import Chimbuko.Pserver.PSstatSender

/-!
# What the sender leaves behind when it is stopped

The sender tests the flag before a pass and not after it, so no pass starts once the flag is set.
The pass that is under way then, if there is one, still comes to the workers that it has not merged
yet. What the others hold is never sent, and this is so exactly when the sender is past them, for
instance because it sleeps when the last data arrive and until the flag is set.
-/

namespace Chimbuko

open RoundLedger TransitionSystem

/-- The pass of the loop under way is still to ask for metrics, or asks for them. -/
def StatSenderThread.AsksMetrics : StatSenderThread → Prop
  | .anomalyStats | .counterStats _ _ | .anomalyMetrics => True
  | _ => False

namespace PSstatSender

variable {n : ℕ} {funcName : ℕ → String} {metricName : ℤ → String}

/-- The pass under way is still to take a worker's anomaly data. -/
def AnomalyAhead (n : ℕ) (s : PSstatSender) (w : ℕ) : Prop :=
  (s.anomalyStats.ledger n).Ahead (s.thread = .anomalyStats) w

/-- The pass under way is still to take a worker's recent metrics. -/
def MetricsAhead (s : PSstatSender) (w : ℕ) : Prop :=
  s.anomalyMetrics.ledger.Ahead s.thread.AsksMetrics w

/-- The pass under way is still to take all that is to be sent. -/
def LastPassTakesAll (n : ℕ) (s : PSstatSender) : Prop :=
  ∀ w < n, (s.AnomalyAhead n w ∨ ∀ d ∈ (s.anomalyStats.worker w).pending, d.nAnomalies = 0) ∧
    (s.MetricsAhead w ∨ (s.anomalyMetrics.ledger.station w).waiting = [])

/-- The flag is set, and since then nothing has arrived and no pass has started. -/
structure Stopping (n : ℕ) (funcName : ℕ → String) (metricName : ℤ → String)
    (u s : PSstatSender) : Prop where
  holds : s.Holds n funcName metricName
  stopped : s.stopSender = true
  anomaly : ∀ w < n, Ledger.Closing (u.anomalyStats.ledger n) (s.anomalyStats.ledger n)
    (u.thread = .anomalyStats) (s.thread = .anomalyStats) w
  metrics : ∀ w < n, Ledger.Closing u.anomalyMetrics.ledger s.anomalyMetrics.ledger
    u.thread.AsksMetrics s.thread.AsksMetrics w

/-- While the sender stops the main thread is past the network. -/
theorem Stopping.main_ne {u s : PSstatSender} (h : Stopping n funcName metricName u s) :
    s.main ≠ .network ∧ s.main ≠ .waiting := by
  have hmain := h.holds.main
  constructor
  · intro heq
    rw [heq] at hmain
    have hstop : s.stopSender = false := hmain
    rw [h.stopped] at hstop
    cases hstop
  · intro heq
    rw [heq] at hmain
    have hstop : s.stopSender = false := hmain.1
    rw [h.stopped] at hstop
    cases hstop

/-- A step that leaves both payloads alone, and does not change what the pass asks for. -/
theorem Stopping.congr {u s t : PSstatSender} (h : Stopping n funcName metricName u s)
    (ht : t.Holds n funcName metricName) (hstop : t.stopSender = s.stopSender)
    (hanomaly : t.anomalyStats = s.anomalyStats) (hmetrics : t.anomalyMetrics = s.anomalyMetrics)
    (hstats : t.thread = .anomalyStats ↔ s.thread = .anomalyStats)
    (hasks : t.thread.AsksMetrics ↔ s.thread.AsksMetrics) :
    Stopping n funcName metricName u t := by
  constructor
  · exact ht
  · exact hstop.trans h.stopped
  · intro w hw
    exact (h.anomaly w hw).congr (by rw [hanomaly]) fun _ => hstats
  · intro w hw
    exact (h.metrics w hw).congr (by rw [hmetrics]) fun _ => hasks

/-- After the flag is set, no step adds data or starts a pass. -/
theorem Stopping.exec {u s t : PSstatSender} (h : Stopping n funcName metricName u s)
    {a : StatSenderAction} (ha : NamedAction funcName metricName a)
    (hexec : PSstatSender.exec n s a = .ok t) : Stopping n funcName metricName u t := by
  have ht := h.holds.exec ha hexec
  obtain ⟨hnetwork, hwaiting⟩ := h.main_ne
  cases a with
  | anomalyStats a =>
    simp only [PSstatSender.exec] at hexec
    split at hexec
    · cases hexec
    · rename_i hsender
      have hsender : a.ofWorker = false := by simpa using hsender
      obtain ⟨hthread, stats, m, hrun, -, -, hcases⟩ :=
        h.holds.sendAnomalyStats_cases ha hsender hexec
      have hstats : t.anomalyStats = stats := by
        rcases hcases with ⟨-, -, rfl⟩ | ⟨-, rfl⟩ <;> rfl
      have hmetrics : t.anomalyMetrics = s.anomalyMetrics := by
        rcases hcases with ⟨-, -, rfl⟩ | ⟨-, rfl⟩ <;> rfl
      have hidle : stats.sender = .idle → ¬ t.thread = .anomalyStats := by
        intro hidle
        rcases hcases with ⟨hbusy, -⟩ | ⟨-, rfl⟩
        · exact absurd hidle hbusy
        · simp
      constructor
      · exact ht
      · rcases hcases with ⟨-, -, rfl⟩ | ⟨-, rfl⟩ <;> exact h.stopped
      · intro w hw
        rw [hstats]
        rcases AnomalyServer.ledger_exec_sender hsender hrun with ⟨heq, hnext⟩ | hstep
        · exact (h.anomaly w hw).congr heq fun hnone => absurd hnone hnext
        · refine (h.anomaly w hw).step hw hstep (fun _ => hthread) fun hnone => hidle ?_
          exact AnomalyServer.ledger_next_eq_none.mp hnone
      · intro w hw
        refine (h.metrics w hw).congr (by rw [hmetrics]) fun _ => ?_
        rw [hthread]
        rcases hcases with ⟨-, -, rfl⟩ | ⟨-, rfl⟩ <;> simp [StatSenderThread.AsksMetrics, hthread]
  | addCounterData w loc =>
    simp only [PSstatSender.exec] at hexec
    rw [if_neg fun hmain => hnetwork hmain.1] at hexec
    cases hexec
  | counterStats =>
    obtain ⟨next, comb, hthread, hcases⟩ := sendCounterStats_cases hexec
    rcases hcases with ⟨comb', rfl⟩ | ⟨stats, rfl⟩ <;>
      exact h.congr ht rfl rfl rfl (by simp [hthread])
        (by simp [hthread, StatSenderThread.AsksMetrics])
  | anomalyMetrics a =>
    simp only [PSstatSender.exec] at hexec
    split at hexec
    · cases hexec
    · rename_i hsender
      have hsender : a.ofWorker = false := by simpa using hsender
      obtain ⟨hthread, metrics, m, hrun, -, -, hcases⟩ :=
        h.holds.sendAnomalyMetrics_cases ha hsender hexec
      obtain ⟨hholds, hstep⟩ := h.holds.anomalyMetrics.exec_sender hsender hrun
      have hmetrics : t.anomalyMetrics = metrics := by
        rcases hcases with ⟨-, -, rfl⟩ | ⟨-, rfl⟩ <;> rfl
      have hanomaly : t.anomalyStats = s.anomalyStats := by
        rcases hcases with ⟨-, -, rfl⟩ | ⟨-, rfl⟩ <;> rfl
      have hidle : metrics.sender = .idle → ¬ t.thread.AsksMetrics := by
        intro hidle
        rcases hcases with ⟨hbusy, -⟩ | ⟨-, rfl⟩
        · exact absurd hidle hbusy
        · exact id
      constructor
      · exact ht
      · rcases hcases with ⟨-, -, rfl⟩ | ⟨-, rfl⟩ <;> exact h.stopped
      · intro w hw
        refine (h.anomaly w hw).congr (by rw [hanomaly]) fun _ => ?_
        rcases hcases with ⟨-, -, rfl⟩ | ⟨-, rfl⟩ <;> simp [hthread]
      · intro w hw
        rw [hmetrics]
        refine (h.metrics w hw).step hw hstep (fun _ => ?_) fun hnone => hidle ?_
        · rw [hthread]
          trivial
        · exact hholds.sender_idle hnone
  | test now =>
    simp only [PSstatSender.exec, h.stopped, if_true] at hexec
    split at hexec
    · rename_i hthread
      cases hexec
      exact h.congr ht h.stopped.symm rfl rfl (by simp [hthread])
        (by simp [hthread, StatSenderThread.AsksMetrics])
    · cases hexec
  | send =>
    simp only [PSstatSender.exec] at hexec
    split at hexec
    · rename_i hthread
      cases hexec
      exact h.congr ht rfl rfl rfl (by simp [hthread])
        (by simp [hthread, StatSenderThread.AsksMetrics])
    · cases hexec
  | wake =>
    simp only [PSstatSender.exec] at hexec
    split at hexec
    · rename_i hthread
      cases hexec
      exact h.congr ht rfl rfl rfl (by simp [hthread])
        (by simp [hthread, StatSenderThread.AsksMetrics])
    · cases hexec
  | stopStatSender =>
    simp only [PSstatSender.exec] at hexec
    rw [if_neg fun hmain => hnetwork hmain.1] at hexec
    cases hexec
  | setStop =>
    simp only [PSstatSender.exec] at hexec
    rw [if_neg hwaiting] at hexec
    cases hexec
  | join =>
    simp only [PSstatSender.exec] at hexec
    split at hexec
    · split at hexec
      · cases hexec
        exact h.congr ht rfl rfl rfl Iff.rfl Iff.rfl
      · cases hexec
    · cases hexec

/-- The state in which the flag is set. -/
theorem stopping_setStop {s u : PSstatSender} (hs : s.Holds n funcName metricName)
    (h : PSstatSender.exec n s .setStop = .ok u) : Stopping n funcName metricName u u := by
  have hu := hs.exec (a := .setStop) trivial h
  constructor
  · exact hu
  · simp only [PSstatSender.exec] at h
    split at h
    · cases h
      rfl
    · cases h
  · exact fun w _ => Ledger.closing_refl _ _ w
  · exact fun w _ => Ledger.closing_refl _ _ w

/-- Setting the flag does not change what the pass under way takes. -/
theorem lastPassTakesAll_setStop {s u : PSstatSender}
    (h : PSstatSender.exec n s .setStop = .ok u) :
    u.LastPassTakesAll n ↔ s.LastPassTakesAll n := by
  simp only [PSstatSender.exec] at h
  split at h
  · cases h
    rfl
  · cases h

/-- No contribution is on its way when the network loop has ended. -/
theorem Holds.sum_counted {s : PSstatSender} (hs : s.Holds n funcName metricName)
    (hquiet : s.quiet n = true) :
    ∑ w ∈ Finset.range n, s.anomalyMetrics.counted w = s.anomalyMetrics.ledger.arrived n := by
  unfold quiet at hquiet
  simp only [List.all_eq_true, List.mem_range, List.isEmpty_iff] at hquiet
  apply Finset.sum_congr rfl
  intro w hw
  rw [hs.anomalyMetrics.counted, hquiet w (Finset.mem_range.mp hw)]
  simp [MetricsServer.onTheirWay]

/-- After the sender's thread has ended, all has been sent exactly if nothing is left behind. -/
theorem Stopping.sent_all_iff {u t : PSstatSender} (h : Stopping n funcName metricName u t)
    (hreturned : t.main = .returned) : t.AllEmitted n ↔ u.LastPassTakesAll n := by
  have hmain := h.holds.main
  rw [hreturned] at hmain
  obtain ⟨-, hquiet, hthread⟩ := hmain
  have hplace := h.holds.thread
  rw [hthread] at hplace
  obtain ⟨hanomalyIdle, hmetricsIdle, hpacket, -⟩ := hplace
  have hanomalyNext : (t.anomalyStats.ledger n).next = none :=
    AnomalyServer.ledger_next_eq_none.mpr hanomalyIdle
  have hmetricsNext : t.anomalyMetrics.ledger.next = none := by
    have hsender := h.holds.anomalyMetrics.sender
    rwa [hmetricsIdle] at hsender
  have hanomaly : (AnomalyServer.emitted t.anomalyPackets : Multiset AnomalyData) =
      AnomalyServer.anomalous (t.anomalyStats.received n) ↔
      ∀ w < n, u.AnomalyAhead n w ∨
        ∀ d ∈ (u.anomalyStats.worker w).pending, ¬ 0 < d.nAnomalies := by
    have hmessages := h.holds.anomalyMessages
    rw [hpacket, StatPacket.empty, Option.toList_none, List.append_nil] at hmessages
    rw [← hmessages, h.holds.anomalyStats.emitted_eq_iff,
      h.holds.anomalyStats.valid_ledger.filter_delivered_eq_iff hanomalyNext]
    apply forall₂_congr
    intro w hw
    refine (h.anomaly w hw).waiting_iff (Ledger.not_ahead ?_ hanomalyNext) fun d => 0 < d.nAnomalies
    simp [hthread]
  have hmetrics : MetricsServer.newData t.metricsPackets =
      ∑ w ∈ Finset.range n, t.anomalyMetrics.counted w ↔
      ∀ w < n, u.MetricsAhead w ∨ (u.anomalyMetrics.ledger.station w).waiting = [] := by
    have hmessages := h.holds.metricsMessages
    rw [hpacket, StatPacket.empty, Option.toList_none, List.append_nil] at hmessages
    have hall := h.holds.anomalyMetrics.ledger.filter_delivered_eq_iff hmetricsNext fun _ => True
    simp only [Multiset.filter_true] at hall
    rw [← hmessages, h.holds.anomalyMetrics.newData_eq, h.holds.sum_counted hquiet, hall]
    apply forall₂_congr
    intro w hw
    rw [List.eq_nil_iff_forall_not_mem]
    have hwaiting := (h.metrics w hw).waiting_iff
      (Ledger.not_ahead (by simp [hthread, StatSenderThread.AsksMetrics]) hmetricsNext)
      fun _ => True
    simpa [MetricsAhead] using hwaiting
  unfold AllEmitted LastPassTakesAll
  rw [hanomaly, hmetrics, ← forall₂_and]
  simp only [not_lt, Nat.le_zero]

/-- Let the flag be set in any run. When the main thread has returned from waiting for the sender,
every datum with anomalies and every contribution to the metrics that was added has been sent in
exactly one packet if and only if the pass that was under way when the flag was set was still to
take all that had not been sent then. -/
theorem allEmitted_iff (n : ℕ) (funcName : ℕ → String) (metricName : ℤ → String)
    {s u t : PSstatSender} (hs : Reaches n funcName metricName start s)
    (hstop : PSstatSender.exec n s .setStop = .ok u) (ht : Reaches n funcName metricName u t)
    (hreturned : t.main = .returned) : t.AllEmitted n ↔ s.LastPassTakesAll n := by
  have hstopping := ht.invariant (fun t => Stopping n funcName metricName u t)
    (stopping_setStop (holds_of_reaches hs) hstop) fun _ _ _ h ha hexec => h.exec ha hexec
  rw [hstopping.sent_all_iff hreturned, lastPassTakesAll_setStop hstop]

/-- The pass of a sender with one worker after it has started on the function statistics. -/
def restOfPass : List StatSenderAction :=
  [.anomalyStats .mergeAnomalyStats, .anomalyStats .mergeFuncstats, .anomalyStats .collect,
    .counterStats, .counterStats, .anomalyMetrics .startRound, .anomalyMetrics .mergeAndFlush,
    .anomalyMetrics .getJson, .send]

/-- An anomaly of a rank, received by the only worker. -/
def receiveAnomaly : StatSenderAction :=
  .anomalyStats (.updateAnomalyStat 0
    { app := 0, rank := 3, step := 0, minTimestamp := 0, maxTimestamp := 10, nAnomalies := 2
      outlierScores := RunStats.new true })

/-- The flag is set while the pass under way has not merged the worker. -/
theorem allEmitted_iff_inPass :
    ∃ t : PSstatSender, t.AllEmitted 1 ∧
      (AnomalyServer.emitted t.anomalyPackets).length = 1 := by
  have hrun : ∃ s ∈ runAll (PSstatSender.exec 1)
        (fun _ a => NamedAction (fun _ => "solve") (fun _ => "solve") a) start
        [receiveAnomaly, .stopStatSender, .test 0, .anomalyStats .startRound],
      ∃ u ∈ runAll (PSstatSender.exec 1) (fun _ _ => True) s [.setStop],
      ∃ t ∈ runAll (PSstatSender.exec 1)
        (fun _ a => NamedAction (fun _ => "solve") (fun _ => "solve") a) u
        (restOfPass ++ [.wake, .test 1, .join]),
        (s.anomalyStats.ledger 1).next = some 0 ∧
        (s.anomalyMetrics.ledger.station 0).waiting.length = 0 ∧ t.main = .returned ∧
        (AnomalyServer.emitted t.anomalyPackets).length = 1 := by
    decide +kernel
  obtain ⟨s, hs, u, hu, t, ht, hnext, hwaiting, hreturned, hlength⟩ := hrun
  have hstop : PSstatSender.exec 1 s .setStop = .ok u := by
    simp only [runAll, if_true, Option.mem_def] at hu
    split at hu
    · rename_i v hv
      cases hu
      exact hv
    · cases hu
  have hall := allEmitted_iff 1 _ _ (runs_of_runAll _ hs) hstop (runs_of_runAll _ ht) hreturned
  refine ⟨t, hall.mpr fun w hw => ?_, hlength⟩
  obtain rfl : w = 0 := by omega
  exact ⟨Or.inl (Or.inr ⟨0, hnext, le_rfl⟩), Or.inr (List.eq_nil_of_length_eq_zero hwaiting)⟩

/-- Data arrive while the sender sleeps, and the flag is set before it wakes. -/
theorem not_allEmitted :
    ¬ ∀ (n : ℕ) (funcName : ℕ → String) (metricName : ℤ → String) (s : PSstatSender),
      Reaches n funcName metricName start s → s.main = .returned → s.AllEmitted n := by
  intro h
  have hrun : ∃ s ∈ runAll (PSstatSender.exec 1)
      (fun _ a => NamedAction (fun _ => "solve") (fun _ => "solve") a) start
      ([.test 0, .anomalyStats .startRound] ++ restOfPass ++
        [receiveAnomaly, .stopStatSender, .setStop, .wake, .test 1, .join]),
      s.main = .returned ∧ (AnomalyServer.emitted s.anomalyPackets).length = 0 ∧
        (AnomalyServer.anomalous (s.anomalyStats.received 1)).card = 1 := by
    decide +kernel
  obtain ⟨s, hs, hreturned, hnone, hone⟩ := hrun
  have hall := (h 1 _ _ s (runs_of_runAll _ hs) hreturned).1
  have hcard := congrArg Multiset.card hall
  rw [Multiset.coe_card, hnone, hone] at hcard
  cases hcard

end PSstatSender

end Chimbuko
