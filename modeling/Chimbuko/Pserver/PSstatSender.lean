import Chimbuko.Pserver.FunctionNames

/-!
# The sender of statistics

A thread of the server goes around a loop. It tests a flag, asks every payload for its part of a
packet, sends the packet unless it is empty, and sleeps. A payload merges the workers' objects into
a temporary one and reports it, and meanwhile the workers may add data. The main thread sets the
flag some time after the network loop has ended, and then waits for the thread to end.

What a payload reports is in the packet under way or in one that was sent, and a packet that is
built is always sent, since it has a time.
-/

namespace Chimbuko

open KeyedMap RoundLedger TransitionSystem

/-- A packet under construction. A payload without data adds nothing. -/
structure StatPacket where
  createdAt : Option ℤ
  version : Option ℕ
  anomalyStats : Option SentMessage
  counterStats : Option (List CounterObject)
  anomalyMetrics : Option MetricsMessage

namespace StatPacket

/-- A packet without data. -/
def empty : StatPacket :=
  { createdAt := none, version := none, anomalyStats := none, counterStats := none
    anomalyMetrics := none }

/-- The number of members of a packet. -/
def size (p : StatPacket) : ℕ :=
  p.createdAt.toList.length + p.version.toList.length + p.anomalyStats.toList.length +
    p.counterStats.toList.length + p.anomalyMetrics.toList.length

end StatPacket

/-- Where the sender's thread is in its loop. For each payload that it asks, the temporary object
is with the payload. -/
inductive StatSenderThread
  | test
  | anomalyStats
  | counterStats (next : ℕ) (comb : GlobalCounterStats)
  | anomalyMetrics
  | send
  | sleep
  | ended

/-- Where the main thread is: it serves the network, waits before it sets the flag, waits for the
sender's thread, or has returned from there. -/
inductive MainThread
  | network
  | waiting
  | joining
  | returned
deriving DecidableEq

/-- The sender with the statistics that it sends, and the main thread. -/
structure PSstatSender where
  anomalyStats : AnomalyServer
  counterStats : ℕ → GlobalCounterStats
  anomalyMetrics : MetricsServer
  thread : StatSenderThread
  packet : StatPacket
  iter : ℕ
  /-- The packets that were sent, with the number of the loop's pass. -/
  packets : List (ℕ × StatPacket)
  stopSender : Bool
  bad : Bool
  main : MainThread

/-- What a worker, the sender or the main thread does next. -/
inductive StatSenderAction
  /-- A worker adds function statistics, or the sender goes on with them. -/
  | anomalyStats (a : AnomalyServerAction)
  | addCounterData (worker : ℕ) (loc : ADLocalCounterStatistics)
  /-- The sender goes on with the counter statistics. -/
  | counterStats
  /-- A worker adds anomaly metrics, or the sender goes on with them. -/
  | anomalyMetrics (a : MetricsServerAction)
  /-- The sender tests the flag, and goes on at some time. -/
  | test (now : ℤ)
  | send
  | wake
  | stopStatSender
  | setStop
  | join

namespace PSstatSender

/-- Nothing has happened yet. -/
def start : PSstatSender :=
  { anomalyStats := AnomalyServer.start, counterStats := fun _ => GlobalCounterStats.new
    anomalyMetrics := MetricsServer.start, thread := .test, packet := StatPacket.empty, iter := 0
    packets := [], stopSender := false, bad := false, main := .network }

/-- The sender's thread ends with an exception. -/
def catchException (s : PSstatSender) (e : String) : Except String PSstatSender :=
  if e = "out of turn" then throw e else pure { s with thread := .ended, bad := true }

/-- The sender goes on with the function statistics. -/
def sendAnomalyStats (n : ℕ) (s : PSstatSender) (a : AnomalyServerAction) :
    Except String PSstatSender :=
  match s.thread with
  | .anomalyStats =>
    match AnomalyServer.exec n s.anomalyStats a with
    | .error e => s.catchException e
    | .ok stats =>
      match stats.sender with
      | .idle => pure { s with
          anomalyStats := stats
          thread := .counterStats 0 GlobalCounterStats.new
          packet := { s.packet with
            anomalyStats := (stats.messages.drop s.anomalyStats.messages.length).head? } }
      | _ => pure { s with anomalyStats := stats }
  | _ => throw "out of turn"

/-- The sender goes on with the counter statistics. -/
def sendCounterStats (n : ℕ) (s : PSstatSender) : Except String PSstatSender :=
  match s.thread with
  | .counterStats next comb =>
    if next < n then
      match comb.plus (s.counterStats next) with
      | .error e => s.catchException e
      | .ok comb => pure { s with thread := .counterStats (next + 1) comb }
    else
      let stats := comb.getJsonState
      pure { s with
        thread := .anomalyMetrics
        packet := { s.packet with counterStats := if stats.length > 0 then some stats else none } }
  | _ => throw "out of turn"

/-- The sender goes on with the anomaly metrics. -/
def sendAnomalyMetrics (n : ℕ) (s : PSstatSender) (a : MetricsServerAction) :
    Except String PSstatSender :=
  match s.thread with
  | .anomalyMetrics =>
    match MetricsServer.exec n s.anomalyMetrics a with
    | .error e => s.catchException e
    | .ok metrics =>
      match metrics.sender with
      | .idle => pure { s with
          anomalyMetrics := metrics
          thread := .send
          packet := { s.packet with
            anomalyMetrics := (metrics.messages.drop s.anomalyMetrics.messages.length).head? } }
      | _ => pure { s with anomalyMetrics := metrics }
  | _ => throw "out of turn"

/-- Whether the network loop can end: no worker is adding data. -/
def quiet (n : ℕ) (s : PSstatSender) : Bool :=
  (List.range n).all fun w => (s.anomalyMetrics.worker w).adding.isEmpty

/-- One step of the server with `n` workers. A step that is not a thread's next one fails. -/
def exec (n : ℕ) (s : PSstatSender) : StatSenderAction → Except String PSstatSender
  | .anomalyStats a =>
    if a.ofWorker then
      if s.main = .network then do
        let stats ← AnomalyServer.exec n s.anomalyStats a
        pure { s with anomalyStats := stats }
      else throw "the network loop has ended"
    else s.sendAnomalyStats n a
  | .addCounterData w loc =>
    if s.main = .network ∧ w < n then do
      let stats ← (s.counterStats w).addCounterData loc
      pure { s with counterStats := Function.update s.counterStats w stats }
    else throw "the network loop has ended"
  | .counterStats => s.sendCounterStats n
  | .anomalyMetrics a =>
    if a.ofWorker then
      if s.main = .network then do
        let metrics ← MetricsServer.exec n s.anomalyMetrics a
        pure { s with anomalyMetrics := metrics }
      else throw "the network loop has ended"
    else s.sendAnomalyMetrics n a
  | .test now =>
    match s.thread with
    | .test =>
      if s.stopSender then pure { s with thread := .ended }
      else pure { s with
        thread := .anomalyStats
        packet := { StatPacket.empty with createdAt := some now, version := some 2 } }
    | _ => throw "out of turn"
  | .send =>
    match s.thread with
    | .send => pure { s with
        thread := .sleep
        packet := StatPacket.empty
        packets := s.packets ++ if s.packet.size ≠ 0 then [(s.iter, s.packet)] else [] }
    | _ => throw "out of turn"
  | .wake =>
    match s.thread with
    | .sleep => pure { s with thread := .test, iter := s.iter + 1 }
    | _ => throw "out of turn"
  | .stopStatSender =>
    if s.main = .network ∧ s.quiet n then pure { s with main := .waiting }
    else throw "out of turn"
  | .setStop =>
    if s.main = .waiting then pure { s with main := .joining, stopSender := true }
    else throw "out of turn"
  | .join =>
    match s.thread with
    | .ended =>
      if s.main = .joining then pure { s with main := .returned } else throw "out of turn"
    | _ => throw "out of turn"

/-- Data come under the names of their function indices. -/
def NamedAction (funcName : ℕ → String) (metricName : ℤ → String) : StatSenderAction → Prop
  | .anomalyStats a => AnomalyServer.NamedAction funcName a
  | .anomalyMetrics a => MetricsServer.NamedAction metricName a
  | _ => True

instance (funcName : ℕ → String) (metricName : ℤ → String) (a : StatSenderAction) :
    Decidable (NamedAction funcName metricName a) := by
  cases a <;> unfold NamedAction <;> infer_instance

/-- The runs of a server with `n` workers whose data agree on the names of functions. -/
abbrev Reaches (n : ℕ) (funcName : ℕ → String) (metricName : ℤ → String) (s t : PSstatSender) :
    Prop :=
  Runs (StepOf (exec n)) (fun _ a => NamedAction funcName metricName a) s t

/-- The function statistics in the packets that were sent. -/
def anomalyPackets (s : PSstatSender) : List SentMessage :=
  s.packets.filterMap fun p => p.2.anomalyStats

/-- The anomaly metrics in the packets that were sent. -/
def metricsPackets (s : PSstatSender) : List MetricsMessage :=
  s.packets.filterMap fun p => p.2.anomalyMetrics

/-- Every anomaly datum with anomalies and every contribution to the anomaly metrics that workers
received has been sent once. -/
def AllEmitted (n : ℕ) (s : PSstatSender) : Prop :=
  (AnomalyServer.emitted s.anomalyPackets : Multiset AnomalyData) =
      AnomalyServer.anomalous (s.anomalyStats.received n) ∧
    MetricsServer.newData s.metricsPackets =
      ∑ w ∈ Finset.range n, s.anomalyMetrics.counted w

/-- What holds in each place of the loop: only the payload that is asked is in a round, and the
packet under way has a time, and nothing yet of the payloads that are still to be asked. -/
def ThreadHolds (s : PSstatSender) : StatSenderThread → Prop
  | .test | .sleep =>
    s.anomalyStats.sender = .idle ∧ s.anomalyMetrics.sender = .idle ∧ s.packet = StatPacket.empty
  | .anomalyStats =>
    s.anomalyMetrics.sender = .idle ∧ s.packet.createdAt.isSome ∧ s.packet.anomalyStats = none ∧
      s.packet.anomalyMetrics = none
  | .counterStats _ _ =>
    s.anomalyStats.sender = .idle ∧ s.anomalyMetrics.sender = .idle ∧
      s.packet.createdAt.isSome ∧ s.packet.anomalyMetrics = none
  | .anomalyMetrics =>
    s.anomalyStats.sender = .idle ∧ s.packet.createdAt.isSome ∧ s.packet.anomalyMetrics = none
  | .send =>
    s.anomalyStats.sender = .idle ∧ s.anomalyMetrics.sender = .idle ∧ s.packet.createdAt.isSome
  | .ended =>
    s.anomalyStats.sender = .idle ∧ s.anomalyMetrics.sender = .idle ∧
      s.packet = StatPacket.empty ∧ s.stopSender = true

/-- What holds for each place of the main thread. -/
def MainHolds (n : ℕ) (s : PSstatSender) : MainThread → Prop
  | .network => s.stopSender = false
  | .waiting => s.stopSender = false ∧ s.quiet n = true
  | .joining => s.stopSender = true ∧ s.quiet n = true
  | .returned => s.stopSender = true ∧ s.quiet n = true ∧ s.thread = .ended

/-- All that the payloads reported is in the packets, sent or under way. -/
structure Holds (n : ℕ) (funcName : ℕ → String) (metricName : ℤ → String) (s : PSstatSender) :
    Prop where
  anomalyStats : s.anomalyStats.Holds n
  anomalyMetrics : s.anomalyMetrics.Holds n
  funcNames : s.anomalyStats.Named funcName
  metricNames : s.anomalyMetrics.Named metricName
  thread : s.ThreadHolds s.thread
  main : s.MainHolds n s.main
  anomalyMessages : s.anomalyStats.messages = s.anomalyPackets ++ s.packet.anomalyStats.toList
  metricsMessages : s.anomalyMetrics.messages = s.metricsPackets ++ s.packet.anomalyMetrics.toList
  notBad : s.bad = false

variable {n : ℕ} {funcName : ℕ → String} {metricName : ℤ → String}

/-- At the start everything is where it should be. -/
theorem holds_start : start.Holds n funcName metricName := by
  constructor
  · exact AnomalyServer.holds_start n
  · exact MetricsServer.holds_start n
  · exact AnomalyServer.named_start
  · exact MetricsServer.named_start
  · exact ⟨rfl, rfl, rfl⟩
  all_goals rfl

/-- How the sender goes on with the function statistics. -/
theorem Holds.sendAnomalyStats_cases {s t : PSstatSender} (hs : s.Holds n funcName metricName)
    {a : AnomalyServerAction} (ha : AnomalyServer.NamedAction funcName a)
    (hsender : a.ofWorker = false) (h : s.sendAnomalyStats n a = .ok t) :
    s.thread = .anomalyStats ∧ ∃ stats m, AnomalyServer.exec n s.anomalyStats a = .ok stats ∧
      stats.Named funcName ∧ stats.messages = s.anomalyStats.messages ++ Option.toList m ∧
      ((stats.sender ≠ .idle ∧ m = none ∧ t = { s with anomalyStats := stats }) ∨
        (stats.sender = .idle ∧ t = { s with
          anomalyStats := stats
          thread := .counterStats 0 GlobalCounterStats.new
          packet := { s.packet with anomalyStats := m } })) := by
  unfold PSstatSender.sendAnomalyStats at h
  split at h
  · rename_i hthread
    refine ⟨hthread, ?_⟩
    rcases hs.funcNames.exec hs.anomalyStats ha with ⟨stats, hrun, hnamed⟩ | ⟨e, herror, hturn⟩
    · obtain ⟨m, hmessages, hnone⟩ := AnomalyServer.exec_messages hrun
      refine ⟨stats, m, hrun, hnamed, hmessages, ?_⟩
      rw [hrun] at h
      simp only at h
      split at h
      · rename_i hidle
        cases h
        refine Or.inr ⟨hidle, ?_⟩
        simp [hmessages]
      · rename_i hidle
        cases h
        exact Or.inl ⟨hidle, hnone hidle, rfl⟩
    · rw [herror, hturn hsender] at h
      cases h
  · cases h

/-- How the sender goes on with the counter statistics. -/
theorem sendCounterStats_cases {s t : PSstatSender} (h : s.sendCounterStats n = .ok t) :
    ∃ next comb, s.thread = .counterStats next comb ∧
      ((∃ comb', t = { s with thread := .counterStats (next + 1) comb' }) ∨
        ∃ stats, t = { s with
          thread := .anomalyMetrics, packet := { s.packet with counterStats := stats } }) := by
  unfold PSstatSender.sendCounterStats at h
  split at h
  · rename_i next comb hthread
    refine ⟨next, comb, hthread, ?_⟩
    split at h
    · obtain ⟨comb', hplus⟩ := comb.plus_ok (s.counterStats next)
      rw [hplus] at h
      cases h
      exact Or.inl ⟨comb', rfl⟩
    · cases h
      exact Or.inr ⟨_, rfl⟩
  · cases h

/-- How the sender goes on with the anomaly metrics. -/
theorem Holds.sendAnomalyMetrics_cases {s t : PSstatSender} (hs : s.Holds n funcName metricName)
    {a : MetricsServerAction} (ha : MetricsServer.NamedAction metricName a)
    (hsender : a.ofWorker = false) (h : s.sendAnomalyMetrics n a = .ok t) :
    s.thread = .anomalyMetrics ∧ ∃ metrics m,
      MetricsServer.exec n s.anomalyMetrics a = .ok metrics ∧ metrics.Named metricName ∧
      metrics.messages = s.anomalyMetrics.messages ++ Option.toList m ∧
      ((metrics.sender ≠ .idle ∧ m = none ∧ t = { s with anomalyMetrics := metrics }) ∨
        (metrics.sender = .idle ∧ t = { s with
          anomalyMetrics := metrics
          thread := .send
          packet := { s.packet with anomalyMetrics := m } })) := by
  unfold PSstatSender.sendAnomalyMetrics at h
  split at h
  · rename_i hthread
    refine ⟨hthread, ?_⟩
    rcases hs.metricNames.exec hs.anomalyMetrics ha with
      ⟨metrics, hrun, hnamed⟩ | ⟨e, herror, hturn⟩
    · obtain ⟨m, hmessages, hnone⟩ := MetricsServer.exec_messages hrun
      refine ⟨metrics, m, hrun, hnamed, hmessages, ?_⟩
      rw [hrun] at h
      simp only at h
      split at h
      · rename_i hidle
        cases h
        refine Or.inr ⟨hidle, ?_⟩
        simp [hmessages]
      · rename_i hidle
        cases h
        exact Or.inl ⟨hidle, hnone hidle, rfl⟩
    · rw [herror, hturn hsender] at h
      cases h
  · cases h

/-- The threads' places do not depend on the rest of the state. -/
theorem ThreadHolds.congr {s t : PSstatSender} {thread : StatSenderThread}
    (h : s.ThreadHolds thread) (hanomaly : t.anomalyStats.sender = s.anomalyStats.sender)
    (hmetrics : t.anomalyMetrics.sender = s.anomalyMetrics.sender) (hpacket : t.packet = s.packet)
    (hstop : s.stopSender = true → t.stopSender = true) : t.ThreadHolds thread := by
  cases thread <;> simp only [ThreadHolds, hanomaly, hmetrics, hpacket] at h ⊢
  case ended => exact ⟨h.1, h.2.1, h.2.2.1, hstop h.2.2.2⟩
  all_goals exact h

/-- What the main thread relies on stays if the server is no less quiet. -/
theorem MainHolds.congr {s t : PSstatSender} {main : MainThread} (h : s.MainHolds n main)
    (hstop : t.stopSender = s.stopSender) (hquiet : s.quiet n = true → t.quiet n = true)
    (hthread : s.thread = .ended → t.thread = .ended) : t.MainHolds n main := by
  cases main <;> simp only [MainHolds, hstop] at h ⊢
  case network => exact h
  case waiting => exact ⟨h.1, hquiet h.2⟩
  case joining => exact ⟨h.1, hquiet h.2⟩
  case returned => exact ⟨h.1, hquiet h.2.1, hthread h.2.2⟩

/-- A worker's function statistics leave the sender as it is. -/
theorem Holds.addAnomalyStats {s : PSstatSender} (hs : s.Holds n funcName metricName)
    {a : AnomalyServerAction} (ha : AnomalyServer.NamedAction funcName a)
    (hworker : a.ofWorker = true) {stats : AnomalyServer}
    (h : AnomalyServer.exec n s.anomalyStats a = .ok stats) :
    { s with anomalyStats := stats }.Holds n funcName metricName := by
  obtain ⟨-, hsender, hmessages⟩ := AnomalyServer.exec_worker hworker h
  have hnamed : stats.Named funcName := by
    rcases hs.funcNames.exec hs.anomalyStats ha with ⟨stats', hrun, hnamed⟩ | ⟨e, herror, -⟩
    · rw [h] at hrun
      cases hrun
      exact hnamed
    · rw [h] at herror
      cases herror
  constructor
  · exact hs.anomalyStats.exec h
  · exact hs.anomalyMetrics
  · exact hnamed
  · exact hs.metricNames
  · exact hs.thread.congr hsender rfl rfl id
  · exact hs.main.congr rfl id id
  · exact hmessages.trans hs.anomalyMessages
  · exact hs.metricsMessages
  · exact hs.notBad

/-- A worker's metrics leave the sender as it is, while the network loop runs. -/
theorem Holds.addAnomalyMetrics {s : PSstatSender} (hs : s.Holds n funcName metricName)
    {a : MetricsServerAction} (ha : MetricsServer.NamedAction metricName a)
    (hworker : a.ofWorker = true) (hmain : s.main = .network) {metrics : MetricsServer}
    (h : MetricsServer.exec n s.anomalyMetrics a = .ok metrics) :
    { s with anomalyMetrics := metrics }.Holds n funcName metricName := by
  obtain ⟨hsender, hmessages⟩ := MetricsServer.exec_worker hworker h
  have hnamed : metrics.Named metricName := by
    rcases hs.metricNames.exec hs.anomalyMetrics ha with ⟨metrics', hrun, hnamed⟩ | ⟨e, herror, -⟩
    · rw [h] at hrun
      cases hrun
      exact hnamed
    · rw [h] at herror
      cases herror
  constructor
  · exact hs.anomalyStats
  · exact (hs.anomalyMetrics.exec h).1
  · exact hs.funcNames
  · exact hnamed
  · exact hs.thread.congr rfl hsender rfl id
  · have h := hs.main
    simp only [hmain] at h ⊢
    exact h
  · exact hs.anomalyMessages
  · exact hmessages.trans hs.metricsMessages
  · exact hs.notBad

/-- The sender's function statistics are in the packet when their round is complete. -/
theorem Holds.sendAnomalyStats {s t : PSstatSender} (hs : s.Holds n funcName metricName)
    {a : AnomalyServerAction} (ha : AnomalyServer.NamedAction funcName a)
    (hsender : a.ofWorker = false) (h : s.sendAnomalyStats n a = .ok t) :
    t.Holds n funcName metricName := by
  obtain ⟨hthread, stats, m, hrun, hnamed, hmessages, hcases⟩ :=
    hs.sendAnomalyStats_cases ha hsender h
  have hplace := hs.thread
  rw [hthread] at hplace
  obtain ⟨hmetrics, hcreated, hnoStats, hnoMetrics⟩ := hplace
  have hpackets := hs.anomalyMessages
  simp only [hnoStats, Option.toList_none, List.append_nil] at hpackets
  rcases hcases with ⟨hbusy, hm, rfl⟩ | ⟨hidle, rfl⟩
  · subst hm
    simp only [Option.toList_none, List.append_nil] at hmessages
    constructor
    · exact hs.anomalyStats.exec hrun
    · exact hs.anomalyMetrics
    · exact hnamed
    · exact hs.metricNames
    · rw [hthread]
      exact ⟨hmetrics, hcreated, hnoStats, hnoMetrics⟩
    · exact hs.main.congr rfl id id
    · exact hmessages.trans hs.anomalyMessages
    · exact hs.metricsMessages
    · exact hs.notBad
  · constructor
    · exact hs.anomalyStats.exec hrun
    · exact hs.anomalyMetrics
    · exact hnamed
    · exact hs.metricNames
    · exact ⟨hidle, hmetrics, hcreated, hnoMetrics⟩
    · refine hs.main.congr rfl id fun hended => ?_
      rw [hthread] at hended
      cases hended
    · rw [hmessages, hpackets]
      rfl
    · exact hs.metricsMessages
    · exact hs.notBad

/-- Sending the counter statistics keeps everything where it should be. -/
theorem Holds.sendCounterStats {s t : PSstatSender} (hs : s.Holds n funcName metricName)
    (h : s.sendCounterStats n = .ok t) : t.Holds n funcName metricName := by
  obtain ⟨next, comb, hthread, hcases⟩ := sendCounterStats_cases h
  have hplace := hs.thread
  rw [hthread] at hplace
  obtain ⟨hanomaly, hmetrics, hcreated, hnoMetrics⟩ := hplace
  have hended : ∀ thread, s.thread = .ended → thread = StatSenderThread.ended := by
    intro thread hended
    rw [hthread] at hended
    cases hended
  rcases hcases with ⟨comb', rfl⟩ | ⟨stats, rfl⟩
  · exact ⟨hs.anomalyStats, hs.anomalyMetrics, hs.funcNames, hs.metricNames,
      ⟨hanomaly, hmetrics, hcreated, hnoMetrics⟩, hs.main.congr rfl id (hended _),
      hs.anomalyMessages, hs.metricsMessages, hs.notBad⟩
  · exact ⟨hs.anomalyStats, hs.anomalyMetrics, hs.funcNames, hs.metricNames,
      ⟨hanomaly, hcreated, hnoMetrics⟩, hs.main.congr rfl id (hended _), hs.anomalyMessages,
      hs.metricsMessages, hs.notBad⟩

/-- The sender's metrics are in the packet when their round is complete. -/
theorem Holds.sendAnomalyMetrics {s t : PSstatSender} (hs : s.Holds n funcName metricName)
    {a : MetricsServerAction} (ha : MetricsServer.NamedAction metricName a)
    (hsender : a.ofWorker = false) (h : s.sendAnomalyMetrics n a = .ok t) :
    t.Holds n funcName metricName := by
  obtain ⟨hthread, metrics, m, hrun, hnamed, hmessages, hcases⟩ :=
    hs.sendAnomalyMetrics_cases ha hsender h
  have hplace := hs.thread
  rw [hthread] at hplace
  obtain ⟨hanomaly, hcreated, hnoMetrics⟩ := hplace
  have hpackets := hs.metricsMessages
  simp only [hnoMetrics, Option.toList_none, List.append_nil] at hpackets
  have hquiet : s.quiet n = true → { s with anomalyMetrics := metrics }.quiet n = true := by
    unfold quiet
    simp only [MetricsServer.exec_adding hsender hrun]
    exact id
  rcases hcases with ⟨hbusy, hm, rfl⟩ | ⟨hidle, rfl⟩
  · subst hm
    simp only [Option.toList_none, List.append_nil] at hmessages
    constructor
    · exact hs.anomalyStats
    · exact (hs.anomalyMetrics.exec hrun).1
    · exact hs.funcNames
    · exact hnamed
    · rw [hthread]
      exact ⟨hanomaly, hcreated, hnoMetrics⟩
    · exact hs.main.congr rfl hquiet id
    · exact hs.anomalyMessages
    · exact hmessages.trans hs.metricsMessages
    · exact hs.notBad
  · constructor
    · exact hs.anomalyStats
    · exact (hs.anomalyMetrics.exec hrun).1
    · exact hs.funcNames
    · exact hnamed
    · exact ⟨hanomaly, hidle, hcreated⟩
    · refine hs.main.congr rfl hquiet fun hended => ?_
      rw [hthread] at hended
      cases hended
    · exact hs.anomalyMessages
    · rw [hmessages, hpackets]
      rfl
    · exact hs.notBad

/-- A packet with a time is sent. -/
theorem size_ne_zero {p : StatPacket} (h : p.createdAt.isSome) : p.size ≠ 0 := by
  obtain ⟨now, hnow⟩ := Option.isSome_iff_exists.mp h
  simp [StatPacket.size, hnow]

/-- Every step keeps the account. -/
theorem Holds.exec {s t : PSstatSender} (hs : s.Holds n funcName metricName)
    {a : StatSenderAction} (ha : NamedAction funcName metricName a)
    (h : PSstatSender.exec n s a = .ok t) : t.Holds n funcName metricName := by
  cases a with
  | anomalyStats a =>
    simp only [PSstatSender.exec] at h
    split at h
    · rename_i hworker
      split at h
      · cases hrun : AnomalyServer.exec n s.anomalyStats a with
        | error e =>
          rw [hrun] at h
          cases h
        | ok stats =>
          rw [hrun] at h
          cases h
          exact hs.addAnomalyStats ha hworker hrun
      · cases h
    · rename_i hsender
      exact hs.sendAnomalyStats ha (by simpa using hsender) h
  | addCounterData w loc =>
    simp only [PSstatSender.exec] at h
    split at h
    · cases hrun : (s.counterStats w).addCounterData loc with
      | error e =>
        rw [hrun] at h
        cases h
      | ok stats =>
        rw [hrun] at h
        cases h
        exact ⟨hs.anomalyStats, hs.anomalyMetrics, hs.funcNames, hs.metricNames,
          hs.thread.congr rfl rfl rfl id, hs.main.congr rfl id id, hs.anomalyMessages,
          hs.metricsMessages, hs.notBad⟩
    · cases h
  | counterStats => exact hs.sendCounterStats h
  | anomalyMetrics a =>
    simp only [PSstatSender.exec] at h
    split at h
    · rename_i hworker
      split at h
      · rename_i hmain
        cases hrun : MetricsServer.exec n s.anomalyMetrics a with
        | error e =>
          rw [hrun] at h
          cases h
        | ok metrics =>
          rw [hrun] at h
          cases h
          exact hs.addAnomalyMetrics ha hworker hmain hrun
      · cases h
    · rename_i hsender
      exact hs.sendAnomalyMetrics ha (by simpa using hsender) h
  | test now =>
    simp only [PSstatSender.exec] at h
    split at h
    · rename_i hthread
      have hplace := hs.thread
      rw [hthread] at hplace
      obtain ⟨hanomaly, hmetrics, hpacket⟩ := hplace
      have hanomalyMessages := hs.anomalyMessages
      have hmetricsMessages := hs.metricsMessages
      rw [hpacket] at hanomalyMessages hmetricsMessages
      split at h
      · rename_i hstop
        cases h
        exact ⟨hs.anomalyStats, hs.anomalyMetrics, hs.funcNames, hs.metricNames,
          ⟨hanomaly, hmetrics, hpacket, hstop⟩, hs.main.congr rfl id fun _ => rfl,
          hs.anomalyMessages, hs.metricsMessages, hs.notBad⟩
      · cases h
        refine ⟨hs.anomalyStats, hs.anomalyMetrics, hs.funcNames, hs.metricNames,
          ⟨hmetrics, rfl, rfl, rfl⟩, hs.main.congr rfl id fun hended => ?_,
          hanomalyMessages, hmetricsMessages, hs.notBad⟩
        rw [hthread] at hended
        cases hended
    · cases h
  | send =>
    simp only [PSstatSender.exec] at h
    split at h
    · rename_i hthread
      cases h
      have hplace := hs.thread
      rw [hthread] at hplace
      obtain ⟨hanomaly, hmetrics, hcreated⟩ := hplace
      have hsize := size_ne_zero hcreated
      refine ⟨hs.anomalyStats, hs.anomalyMetrics, hs.funcNames, hs.metricNames,
        ⟨hanomaly, hmetrics, rfl⟩, hs.main.congr rfl id fun hended => ?_, ?_, ?_, hs.notBad⟩
      · rw [hthread] at hended
        cases hended
      · simp only [anomalyPackets, hsize, ne_eq, not_false_eq_true, if_true, List.filterMap_append]
        rw [hs.anomalyMessages, anomalyPackets]
        cases hm : s.packet.anomalyStats <;> simp [StatPacket.empty, hm]
      · simp only [metricsPackets, hsize, ne_eq, not_false_eq_true, if_true, List.filterMap_append]
        rw [hs.metricsMessages, metricsPackets]
        cases hm : s.packet.anomalyMetrics <;> simp [StatPacket.empty, hm]
    · cases h
  | wake =>
    simp only [PSstatSender.exec] at h
    split at h
    · rename_i hthread
      cases h
      have hplace := hs.thread
      rw [hthread] at hplace
      refine ⟨hs.anomalyStats, hs.anomalyMetrics, hs.funcNames, hs.metricNames, hplace,
        hs.main.congr rfl id fun hended => ?_, hs.anomalyMessages, hs.metricsMessages, hs.notBad⟩
      rw [hthread] at hended
      cases hended
    · cases h
  | stopStatSender =>
    simp only [PSstatSender.exec] at h
    split at h
    · rename_i hmain
      cases h
      have hstop := hs.main
      rw [hmain.1] at hstop
      exact ⟨hs.anomalyStats, hs.anomalyMetrics, hs.funcNames, hs.metricNames,
        hs.thread.congr rfl rfl rfl id, ⟨hstop, hmain.2⟩, hs.anomalyMessages, hs.metricsMessages,
        hs.notBad⟩
    · cases h
  | setStop =>
    simp only [PSstatSender.exec] at h
    split at h
    · rename_i hmain
      cases h
      have hwaiting := hs.main
      rw [hmain] at hwaiting
      exact ⟨hs.anomalyStats, hs.anomalyMetrics, hs.funcNames, hs.metricNames,
        hs.thread.congr rfl rfl rfl fun _ => rfl, ⟨rfl, hwaiting.2⟩, hs.anomalyMessages,
        hs.metricsMessages, hs.notBad⟩
    · cases h
  | join =>
    simp only [PSstatSender.exec] at h
    split at h
    · rename_i hthread
      split at h
      · rename_i hmain
        cases h
        have hjoining := hs.main
        rw [hmain] at hjoining
        exact ⟨hs.anomalyStats, hs.anomalyMetrics, hs.funcNames, hs.metricNames,
          hs.thread.congr rfl rfl rfl id, ⟨hjoining.1, hjoining.2, hthread⟩, hs.anomalyMessages,
          hs.metricsMessages, hs.notBad⟩
      · cases h
    · cases h

/-- The account holds in every reachable state. -/
theorem holds_of_reaches {s : PSstatSender} (hs : Reaches n funcName metricName start s) :
    s.Holds n funcName metricName :=
  hs.invariant (fun s => s.Holds n funcName metricName) holds_start
    fun _ _ _ h ha hexec => h.exec ha hexec

end PSstatSender

end Chimbuko
