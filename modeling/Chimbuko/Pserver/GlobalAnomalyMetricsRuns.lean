import Chimbuko.Library.RoundLedger
import Chimbuko.Library.TransitionSystem
import Chimbuko.Pserver.GlobalAnomalyMetrics

/-!
# Workers and the combining sender of anomaly metrics

A worker adds the metrics of a step to its totals and then to its recent metrics, under a lock for
each, and the sender may merge the worker between the two. A round merges all workers into a
temporary object and reports the recent metrics of that object with its totals.

The recent metrics are accounted for by a ledger of rounds, in which a contribution arrives when it
is added to a worker's recent metrics. The totals of a worker aggregate what has arrived and what
is still on its way between the two halves.
-/

namespace Chimbuko

open KeyedMap RoundLedger TransitionSystem

/-- A worker's object, with the data that are in its totals but not yet in its recent metrics. -/
structure MetricsWorker where
  metrics : GlobalAnomalyMetrics
  adding : List ADLocalAnomalyMetrics

/-- Where the sender is in a round: the worker that is merged next, and the temporary object. -/
inductive MetricsSender
  | idle
  | merging (next : ℕ) (comb : GlobalAnomalyMetrics)

/-- A message, with the contributions that its round took from the recent metrics, and those that
were in the workers' totals when they were merged. -/
structure MetricsMessage where
  objects : List MetricsObject
  new : List MetricsContribution
  seen : Multiset MetricsContribution

/-- The server's workers and its sender, with what was sent. -/
structure MetricsServer where
  worker : ℕ → MetricsWorker
  sender : MetricsSender
  /-- The number of the next object. -/
  nextId : ℕ
  messages : List MetricsMessage
  /-- The contributions to the recent metrics. -/
  ledger : Ledger MetricsContribution
  /-- The contributions to each worker's totals. -/
  counted : ℕ → Multiset MetricsContribution
  /-- The contributions to the totals of the temporary object. -/
  seen : Multiset MetricsContribution

/-- What a worker or the sender does next. -/
inductive MetricsServerAction
  | addFull (worker : ℕ) (data : ADLocalAnomalyMetrics)
  | addRecent (worker index : ℕ)
  | startRound
  | mergeAndFlush
  | getJson

/-- Whether a step is one of a worker. -/
def MetricsServerAction.ofWorker : MetricsServerAction → Bool
  | .addFull _ _ | .addRecent _ _ => true
  | _ => false

namespace MetricsServer

/-- Nothing has happened yet. -/
def start : MetricsServer :=
  { worker := fun _ => ⟨GlobalAnomalyMetrics.new, []⟩, sender := .idle, nextId := 0
    messages := [], ledger := Ledger.empty, counted := fun _ => 0, seen := 0 }

/-- The first half of adding data: they are in the totals. -/
def addFull (s : MetricsServer) (w : ℕ) (data : ADLocalAnomalyMetrics) :
    Except String MetricsServer := do
  let metrics ← (s.worker w).metrics.addFull data
  pure { s with
    worker := Function.update s.worker w ⟨metrics, (s.worker w).adding ++ [data]⟩
    counted := Function.update s.counted w (s.counted w + data.contributions) }

/-- The second half of adding data. -/
def addRecent (s : MetricsServer) (w index : ℕ) (data : ADLocalAnomalyMetrics) :
    Except String MetricsServer := do
  let metrics ← (s.worker w).metrics.addRecent data
  pure { s with
    worker := Function.update s.worker w ⟨metrics, (s.worker w).adding.eraseIdx index⟩
    ledger := s.ledger.arrive w data.contributions }

/-- The sender merges and flushes a worker. -/
def mergeWorker (s : MetricsServer) (next : ℕ) (comb : GlobalAnomalyMetrics) :
    Except String MetricsServer := do
  let (comb, metrics) ← comb.mergeAndFlush (s.worker next).metrics
  pure { s with
    worker := Function.update s.worker next ⟨metrics, (s.worker next).adding⟩
    sender := .merging (next + 1) comb
    ledger := s.ledger.visit next
    seen := s.seen + s.counted next }

/-- The sender reports the temporary object, if there is anything in it. -/
def sendMessage (n : ℕ) (s : MetricsServer) (comb : GlobalAnomalyMetrics) :
    Except String MetricsServer := do
  let (objects, _) ← comb.getJson s.nextId
  pure { s with
    sender := .idle
    nextId := s.nextId + objects.length
    messages := s.messages ++ if objects.length > 0 then [⟨objects, s.ledger.load n, s.seen⟩]
      else []
    ledger := s.ledger.finish n }

/-- One step of the server with `n` workers. A step that is not the sender's next one fails. -/
def exec (n : ℕ) (s : MetricsServer) : MetricsServerAction → Except String MetricsServer
  | .addFull w data => if w < n then s.addFull w data else throw "no such worker"
  | .addRecent w index =>
    if w < n then
      match (s.worker w).adding[index]? with
      | some data => s.addRecent w index data
      | none => throw "no such data"
    else throw "no such worker"
  | .startRound =>
    match s.sender with
    | .idle => pure { s with
        sender := .merging 0 GlobalAnomalyMetrics.new, ledger := s.ledger.start, seen := 0 }
    | _ => throw "out of turn"
  | .mergeAndFlush =>
    match s.sender with
    | .merging next comb => if next < n then s.mergeWorker next comb else throw "out of turn"
    | _ => throw "out of turn"
  | .getJson =>
    match s.sender with
    | .merging next comb => if next = n then s.sendMessage n comb else throw "out of turn"
    | _ => throw "out of turn"

/-- The runs of a server with `n` workers. -/
abbrev Reaches (n : ℕ) (s t : MetricsServer) : Prop :=
  Runs (StepOf (exec n)) (fun _ _ => True) s t

/-- The contributions in the new data of some messages. -/
def newData (messages : List MetricsMessage) : Multiset MetricsContribution :=
  (messages.map fun m => (m.new : Multiset MetricsContribution)).sum

/-- The new data of messages and others are those of all of them. -/
theorem newData_append (ms ms' : List MetricsMessage) :
    newData (ms ++ ms') = newData ms + newData ms' := by
  simp [newData]

/-- The contributions of data on their way from the totals to the recent metrics. -/
def onTheirWay (adding : List ADLocalAnomalyMetrics) : Multiset MetricsContribution :=
  (adding.flatMap ADLocalAnomalyMetrics.contributions : List MetricsContribution)

/-- The messages up to a given one report what is in its totals. -/
def MessagesHold (messages : List MetricsMessage) : Prop :=
  ∀ before m, before ++ [m] <+: messages →
    GlobalAnomalyMetrics.Reports m.objects m.new m.seen ∧ newData (before ++ [m]) ≤ m.seen

/-- The temporary object is right wherever the sender is in a round. -/
def SenderHolds (n : ℕ) (s : MetricsServer) : MetricsSender → Prop
  | .idle => s.ledger.next = none
  | .merging next comb => s.ledger.next = some next ∧
      GlobalAnomalyMetrics.Holds comb.full s.seen ∧
      GlobalAnomalyMetrics.Holds comb.recent (s.ledger.load n) ∧
      s.ledger.took next ≤ s.seen

/-- The workers' objects, the temporary object and the messages account for what was added. -/
structure Holds (n : ℕ) (s : MetricsServer) : Prop where
  full : ∀ w, GlobalAnomalyMetrics.Holds (s.worker w).metrics.full (s.counted w)
  recent : ∀ w,
    GlobalAnomalyMetrics.Holds (s.worker w).metrics.recent (s.ledger.station w).waiting
  counted : ∀ w, s.counted w = (s.ledger.station w).arrived + onTheirWay (s.worker w).adding
  ledger : s.ledger.Valid n
  sender : SenderHolds n s s.sender
  newData_eq : newData s.messages = s.ledger.delivered
  messages : MessagesHold s.messages

/-- At the start nothing was collected. -/
theorem holds_start (n : ℕ) : start.Holds n := by
  constructor
  · intro w
    exact GlobalAnomalyMetrics.holds_empty
  · intro w
    exact GlobalAnomalyMetrics.holds_empty
  · intro w
    rfl
  · exact Ledger.valid_empty n
  · rfl
  · rfl
  · intro before m hprefix
    have hnil := List.prefix_nil.mp hprefix
    simp at hnil

/-- The sender's phase does not depend on the workers. -/
theorem SenderHolds.congr {n : ℕ} {s t : MetricsServer} {phase : MetricsSender}
    (h : SenderHolds n s phase) (hseen : t.seen = s.seen) (hnext : t.ledger.next = s.ledger.next)
    (hload : t.ledger.load n = s.ledger.load n) (htook : t.ledger.took = s.ledger.took) :
    SenderHolds n t phase := by
  cases phase with
  | idle => exact hnext.trans h
  | merging next comb =>
    obtain ⟨hphase, hfull, hrecent, hle⟩ := h
    refine ⟨hnext.trans hphase, ?_, ?_, ?_⟩
    · rw [hseen]
      exact hfull
    · rw [hload]
      exact hrecent
    · rw [hseen, htook]
      exact hle

/-- Data can always be added to the totals. -/
theorem Holds.addFull {n : ℕ} {s : MetricsServer} (hs : s.Holds n) (w : ℕ)
    (data : ADLocalAnomalyMetrics) :
    ∃ t, s.addFull w data = .ok t ∧ t.Holds n ∧ t.ledger = s.ledger := by
  obtain ⟨full, hrun, hfull⟩ := (hs.full w).addInto data
  refine ⟨{ s with
    worker := Function.update s.worker w
      ⟨{ (s.worker w).metrics with full := full }, (s.worker w).adding ++ [data]⟩
    counted := Function.update s.counted w (s.counted w + data.contributions) }, ?_, ?_, rfl⟩
  · unfold MetricsServer.addFull GlobalAnomalyMetrics.addFull
    simp only [hrun]
    rfl
  constructor
  · intro v
    by_cases hv : v = w
    · subst hv
      simpa using hfull
    · simpa [hv] using hs.full v
  · intro v
    by_cases hv : v = w
    · subst hv
      simpa using hs.recent v
    · simpa [hv] using hs.recent v
  · intro v
    by_cases hv : v = w
    · subst hv
      simp only [Function.update_self]
      rw [hs.counted, onTheirWay, onTheirWay, List.flatMap_append, ← Multiset.coe_add, ← add_assoc]
      simp
    · simpa [hv] using hs.counted v
  · exact hs.ledger
  · exact hs.sender.congr rfl rfl rfl rfl
  · exact hs.newData_eq
  · exact hs.messages

/-- Data that go on to the recent metrics are no longer on their way. -/
theorem onTheirWay_eraseIdx {adding : List ADLocalAnomalyMetrics} {index : ℕ}
    {data : ADLocalAnomalyMetrics} (h : adding[index]? = some data) :
    onTheirWay adding = data.contributions + onTheirWay (adding.eraseIdx index) := by
  unfold onTheirWay
  rw [Multiset.coe_add, Multiset.coe_eq_coe]
  induction adding generalizing index with
  | nil => simp at h
  | cons first rest ih =>
    cases index with
    | zero =>
      simp only [List.getElem?_cons_zero, Option.some.injEq] at h
      subst h
      simp
    | succ index =>
      rw [List.getElem?_cons_succ] at h
      rw [List.flatMap_cons, List.eraseIdx_cons_succ, List.flatMap_cons]
      apply ((ih h).append_left _).trans
      rw [← List.append_assoc, ← List.append_assoc]
      exact List.perm_append_comm.append_right _

/-- Data on their way can always be added to the recent metrics. -/
theorem Holds.addRecent {n : ℕ} {s : MetricsServer} (hs : s.Holds n) {w index : ℕ} (hw : w < n)
    {data : ADLocalAnomalyMetrics} (hdata : (s.worker w).adding[index]? = some data) :
    ∃ t, s.addRecent w index data = .ok t ∧ t.Holds n ∧ Ledger.Step n s.ledger t.ledger := by
  obtain ⟨recent, hrun, hrecent⟩ := (hs.recent w).addInto data
  have hstep := Ledger.Step.arrive (n := n) s.ledger w data.contributions hw
  refine ⟨{ s with
    worker := Function.update s.worker w
      ⟨{ (s.worker w).metrics with recent := recent }, (s.worker w).adding.eraseIdx index⟩
    ledger := s.ledger.arrive w data.contributions }, ?_, ?_, hstep⟩
  · unfold MetricsServer.addRecent GlobalAnomalyMetrics.addRecent
    simp only [hrun]
    rfl
  constructor
  · intro v
    by_cases hv : v = w
    · subst hv
      simpa using hs.full v
    · simpa [hv] using hs.full v
  · intro v
    by_cases hv : v = w
    · subst hv
      simpa using hrecent
    · simpa [hv, Ledger.arrive_other _ _ hv] using hs.recent v
  · intro v
    by_cases hv : v = w
    · subst hv
      simp only [Function.update_self]
      rw [Ledger.arrive_arrived, ← Multiset.coe_add, add_assoc, ← onTheirWay_eraseIdx hdata]
      exact hs.counted v
    · simpa [hv, Ledger.arrive_other _ _ hv] using hs.counted v
  · exact hs.ledger.step hstep
  · refine hs.sender.congr rfl rfl (Ledger.load_arrive _ _ _ _) ?_
    funext k
    exact Ledger.took_arrive _ _ _ _
  · exact hs.newData_eq
  · exact hs.messages

/-- Merging a worker moves its recent metrics into the temporary object. -/
theorem Holds.mergeWorker {n next : ℕ} {s t : MetricsServer} {comb : GlobalAnomalyMetrics}
    (hs : s.Holds n) (hsender : s.sender = .merging next comb) (hnext : next < n)
    (h : s.mergeWorker next comb = .ok t) :
    t.Holds n ∧ Ledger.CollectStep n s.ledger t.ledger := by
  have hcomb := hs.sender
  rw [hsender] at hcomb
  obtain ⟨hphase, hcfull, hcrecent, htook⟩ := hcomb
  have hstep := Ledger.CollectStep.visit s.ledger next hphase hnext
  unfold MetricsServer.mergeWorker GlobalAnomalyMetrics.mergeAndFlush
    GlobalAnomalyMetrics.plus at h
  cases hfull : GlobalAnomalyMetrics.plusEquals comb.full (s.worker next).metrics.full with
  | error e =>
    simp only [hfull] at h
    cases h
  | ok full =>
    cases hrecent : GlobalAnomalyMetrics.plusEquals comb.recent (s.worker next).metrics.recent with
    | error e =>
      simp only [hfull, hrecent] at h
      cases h
    | ok recent =>
      simp only [hfull, hrecent] at h
      cases h
      refine ⟨?_, hstep⟩
      constructor
      · intro v
        by_cases hv : v = next
        · subst hv
          simpa using hs.full v
        · simpa [hv] using hs.full v
      · intro v
        by_cases hv : v = next
        · subst hv
          simpa using GlobalAnomalyMetrics.holds_empty
        · simpa [hv, Ledger.visit_other _ hv] using hs.recent v
      · intro v
        rw [Ledger.visit_arrived]
        by_cases hv : v = next
        · subst hv
          simpa using hs.counted v
        · simpa [hv] using hs.counted v
      · exact hs.ledger.step hstep.toStep
      · refine ⟨rfl, hcfull.plusEquals (hs.full next) hfull, ?_, ?_⟩
        · rw [Ledger.coe_load_visit _ hnext]
          exact hcrecent.plusEquals (hs.recent next) hrecent
        · change (s.ledger.visit next).took (next + 1) ≤ s.seen + s.counted next
          rw [Ledger.took_visit, hs.counted]
          exact add_le_add htook (Multiset.le_add_right _ _)
      · exact hs.newData_eq
      · exact hs.messages

/-- A round that merged all workers sends what it took. -/
theorem Holds.sendMessage {n : ℕ} {s : MetricsServer} {comb : GlobalAnomalyMetrics}
    (hs : s.Holds n) (hsender : s.sender = .merging n comb) :
    ∃ t, s.sendMessage n comb = .ok t ∧ t.Holds n ∧
      Ledger.CollectStep n s.ledger t.ledger := by
  have hcomb := hs.sender
  rw [hsender] at hcomb
  obtain ⟨hphase, hcfull, hcrecent, htook⟩ := hcomb
  have hstep := Ledger.CollectStep.finish s.ledger hphase
  have hload : (s.ledger.load n : Multiset MetricsContribution) ≤ s.seen := by
    apply le_trans _ htook
    rw [Ledger.coe_load, Ledger.took]
    exact Finset.sum_le_sum fun w _ => Multiset.le_add_left _ _
  obtain ⟨objects, hrun, hreports⟩ :=
    GlobalAnomalyMetrics.getJson_ok hcfull hcrecent hload s.nextId
  let added : List MetricsMessage :=
    if objects.length > 0 then [⟨objects, s.ledger.load n, s.seen⟩] else []
  have hadded : newData added = s.ledger.load n := by
    simp only [added]
    split
    · simp [newData]
    · rename_i hlength
      have hnil : objects = [] := List.eq_nil_of_length_eq_zero (by omega)
      subst hnil
      rw [eq_comm]
      apply Multiset.eq_zero_of_forall_notMem
      intro c hc
      obtain ⟨o, ho, -⟩ := hreports.complete c hc
      simp at ho
  have hnew : newData (s.messages ++ added) = (s.ledger.finish n).delivered := by
    rw [newData_append, hs.newData_eq, hadded]
    rfl
  refine ⟨{ s with
    sender := .idle
    nextId := s.nextId + objects.length
    messages := s.messages ++ added
    ledger := s.ledger.finish n }, ?_, ?_, hstep⟩
  · unfold MetricsServer.sendMessage
    simp only [hrun]
    rfl
  constructor
  · exact hs.full
  · exact hs.recent
  · intro w
    rw [Ledger.finish_arrived]
    exact hs.counted w
  · exact hs.ledger.step hstep.toStep
  · rfl
  · exact hnew
  · intro before m hprefix
    by_cases hlength : objects.length > 0
    · have hlast : added = [⟨objects, s.ledger.load n, s.seen⟩] := if_pos hlength
      simp only [hlast] at hprefix
      rcases List.prefix_concat_iff.mp hprefix with heq | hold
      · obtain ⟨rfl, hm⟩ := List.append_inj' heq rfl
        cases hm
        refine ⟨hreports, ?_⟩
        rw [← hlast, hnew, hs.ledger.delivered_finish]
        exact htook
      · exact hs.messages before m hold
    · have hlast : added = [] := if_neg hlength
      simp only [hlast, List.append_nil] at hprefix
      exact hs.messages before m hprefix

/-- A step of the sender keeps the account, and is one of the collector. -/
theorem Holds.exec_sender {n : ℕ} {s t : MetricsServer} {a : MetricsServerAction}
    (hs : s.Holds n) (ha : a.ofWorker = false) (h : MetricsServer.exec n s a = .ok t) :
    t.Holds n ∧ Ledger.CollectStep n s.ledger t.ledger := by
  cases a with
  | addFull w data => cases ha
  | addRecent w index => cases ha
  | startRound =>
    simp only [MetricsServer.exec] at h
    split at h
    · rename_i hsender
      cases h
      have hnext : s.ledger.next = none := by
        have hidle := hs.sender
        rwa [hsender] at hidle
      have hstep := Ledger.CollectStep.start (n := n) s.ledger hnext
      refine ⟨?_, hstep⟩
      constructor
      · exact hs.full
      · exact hs.recent
      · exact hs.counted
      · exact hs.ledger.step hstep.toStep
      · refine ⟨rfl, GlobalAnomalyMetrics.holds_empty, ?_, le_rfl⟩
        change GlobalAnomalyMetrics.Holds ∅ (s.ledger.load n)
        rw [hs.ledger.load_eq_nil hnext]
        exact GlobalAnomalyMetrics.holds_empty
      · exact hs.newData_eq
      · exact hs.messages
    · cases h
  | mergeAndFlush =>
    simp only [MetricsServer.exec] at h
    split at h
    · rename_i next comb hsender
      split at h
      · rename_i hnext
        exact hs.mergeWorker hsender hnext h
      · cases h
    · cases h
  | getJson =>
    simp only [MetricsServer.exec] at h
    split at h
    · rename_i next comb hsender
      split at h
      · rename_i hnext
        obtain ⟨t', ht', hholds, hstep⟩ := hs.sendMessage (hnext ▸ hsender)
        rw [ht'] at h
        cases h
        exact ⟨hholds, hstep⟩
      · cases h
    · cases h

/-- Every step keeps the account, and is one of the ledger or leaves it as it is. -/
theorem Holds.exec {n : ℕ} {s t : MetricsServer} {a : MetricsServerAction} (hs : s.Holds n)
    (h : MetricsServer.exec n s a = .ok t) :
    t.Holds n ∧ (t.ledger = s.ledger ∨ Ledger.Step n s.ledger t.ledger) := by
  cases a with
  | addFull w data =>
    simp only [MetricsServer.exec] at h
    split at h
    · obtain ⟨t', ht', hholds, hledger⟩ := hs.addFull w data
      rw [ht'] at h
      cases h
      exact ⟨hholds, Or.inl hledger⟩
    · cases h
  | addRecent w index =>
    simp only [MetricsServer.exec] at h
    split at h
    · rename_i hw
      split at h
      · rename_i data hdata
        obtain ⟨t', ht', hholds, hstep⟩ := hs.addRecent hw hdata
        rw [ht'] at h
        cases h
        exact ⟨hholds, Or.inr hstep⟩
      · cases h
    · cases h
  | startRound =>
    obtain ⟨hholds, hstep⟩ := hs.exec_sender rfl h
    exact ⟨hholds, Or.inr hstep.toStep⟩
  | mergeAndFlush =>
    obtain ⟨hholds, hstep⟩ := hs.exec_sender rfl h
    exact ⟨hholds, Or.inr hstep.toStep⟩
  | getJson =>
    obtain ⟨hholds, hstep⟩ := hs.exec_sender rfl h
    exact ⟨hholds, Or.inr hstep.toStep⟩

/-- A step of a worker leaves the sender as it is. -/
theorem exec_worker {n : ℕ} {s t : MetricsServer} {a : MetricsServerAction}
    (ha : a.ofWorker = true) (h : MetricsServer.exec n s a = .ok t) :
    t.sender = s.sender ∧ t.messages = s.messages := by
  cases a with
  | addFull w data =>
    simp only [MetricsServer.exec] at h
    split at h
    · unfold MetricsServer.addFull at h
      cases hadd : (s.worker w).metrics.addFull data with
      | error e =>
        rw [hadd] at h
        cases h
      | ok metrics =>
        rw [hadd] at h
        cases h
        exact ⟨rfl, rfl⟩
    · cases h
  | addRecent w index =>
    simp only [MetricsServer.exec] at h
    split at h
    · split at h
      · rename_i data hdata
        unfold MetricsServer.addRecent at h
        cases hadd : (s.worker w).metrics.addRecent data with
        | error e =>
          rw [hadd] at h
          cases h
        | ok metrics =>
          rw [hadd] at h
          cases h
          exact ⟨rfl, rfl⟩
      · cases h
    · cases h
  | startRound => cases ha
  | mergeAndFlush => cases ha
  | getJson => cases ha

/-- Only the last step of a round sends a message. -/
theorem exec_messages {n : ℕ} {s t : MetricsServer} {a : MetricsServerAction}
    (h : MetricsServer.exec n s a = .ok t) :
    ∃ m : Option MetricsMessage, t.messages = s.messages ++ m.toList ∧
      (t.sender ≠ .idle → m = none) := by
  cases ha : a.ofWorker with
  | true => exact ⟨none, by simp [(exec_worker ha h).2], fun _ => rfl⟩
  | false =>
  cases a with
  | addFull w data => cases ha
  | addRecent w index => cases ha
  | startRound =>
    simp only [MetricsServer.exec] at h
    split at h
    · cases h
      exact ⟨none, by simp, fun _ => rfl⟩
    · cases h
  | mergeAndFlush =>
    simp only [MetricsServer.exec] at h
    split at h
    · rename_i next comb hsender
      split at h
      · unfold MetricsServer.mergeWorker at h
        cases hmerge : comb.mergeAndFlush (s.worker next).metrics with
        | error e =>
          rw [hmerge] at h
          cases h
        | ok merged =>
          rw [hmerge] at h
          cases h
          exact ⟨none, by simp, fun _ => rfl⟩
      · cases h
    · cases h
  | getJson =>
    simp only [MetricsServer.exec] at h
    split at h
    · rename_i next comb hsender
      split at h
      · unfold MetricsServer.sendMessage at h
        cases hjson : comb.getJson s.nextId with
        | error e =>
          rw [hjson] at h
          cases h
        | ok report =>
          rw [hjson] at h
          cases h
          let m : MetricsMessage := ⟨report.1, s.ledger.load n, s.seen⟩
          refine ⟨if report.1.length > 0 then some m else none, ?_, fun hbusy => absurd rfl hbusy⟩
          by_cases hlength : report.1.length > 0
          · simp [hlength, m]
          · simp [hlength]
      · cases h
    · cases h

/-- The sender leaves the data alone that are on their way. -/
theorem exec_adding {n : ℕ} {s t : MetricsServer} {a : MetricsServerAction}
    (ha : a.ofWorker = false) (h : MetricsServer.exec n s a = .ok t) (w : ℕ) :
    (t.worker w).adding = (s.worker w).adding := by
  cases a with
  | addFull w data => cases ha
  | addRecent w index => cases ha
  | startRound =>
    simp only [MetricsServer.exec] at h
    split at h
    · cases h
      rfl
    · cases h
  | mergeAndFlush =>
    simp only [MetricsServer.exec] at h
    split at h
    · rename_i next comb hsender
      split at h
      · unfold MetricsServer.mergeWorker at h
        cases hmerge : comb.mergeAndFlush (s.worker next).metrics with
        | error e =>
          rw [hmerge] at h
          cases h
        | ok merged =>
          rw [hmerge] at h
          cases h
          by_cases hw : w = next
          · subst hw
            simp
          · simp [hw]
      · cases h
    · cases h
  | getJson =>
    simp only [MetricsServer.exec] at h
    split at h
    · rename_i next comb hsender
      split at h
      · unfold MetricsServer.sendMessage at h
        cases hjson : comb.getJson s.nextId with
        | error e =>
          rw [hjson] at h
          cases h
        | ok report =>
          rw [hjson] at h
          cases h
          rfl
      · cases h
    · cases h

/-- Outside a round the sender is idle. -/
theorem Holds.sender_idle {n : ℕ} {s : MetricsServer} (hs : s.Holds n)
    (hnext : s.ledger.next = none) : s.sender = .idle := by
  have hsender := hs.sender
  cases hphase : s.sender with
  | idle => rfl
  | merging next comb =>
    rw [hphase] at hsender
    rw [hsender.1] at hnext
    cases hnext

/-- No step fails because a report has no totals. -/
theorem Holds.exec_error {n : ℕ} {s : MetricsServer} {a : MetricsServerAction} {e : String}
    (hs : s.Holds n) (h : MetricsServer.exec n s a = .error e) :
    e ∉ GlobalAnomalyMetrics.findErrors := by
  cases a with
  | addFull w data =>
    simp only [MetricsServer.exec] at h
    split at h
    · obtain ⟨t, ht, -⟩ := hs.addFull w data
      rw [ht] at h
      cases h
    · cases h
      decide
  | addRecent w index =>
    simp only [MetricsServer.exec] at h
    split at h
    · rename_i hw
      split at h
      · rename_i data hdata
        obtain ⟨t, ht, -⟩ := hs.addRecent hw hdata
        rw [ht] at h
        cases h
      · cases h
        decide
    · cases h
      decide
  | startRound =>
    simp only [MetricsServer.exec] at h
    split at h
    · cases h
    · cases h
      decide
  | mergeAndFlush =>
    simp only [MetricsServer.exec] at h
    split at h
    · rename_i next comb hsender
      split at h
      · unfold MetricsServer.mergeWorker GlobalAnomalyMetrics.mergeAndFlush
          GlobalAnomalyMetrics.plus at h
        cases hfull : GlobalAnomalyMetrics.plusEquals comb.full
            (s.worker next).metrics.full with
        | error e' =>
          simp only [hfull] at h
          cases h
          rw [GlobalAnomalyMetrics.plusEquals_error hfull]
          decide
        | ok full =>
          cases hrecent : GlobalAnomalyMetrics.plusEquals comb.recent
              (s.worker next).metrics.recent with
          | error e' =>
            simp only [hfull, hrecent] at h
            cases h
            rw [GlobalAnomalyMetrics.plusEquals_error hrecent]
            decide
          | ok recent =>
            simp only [hfull, hrecent] at h
            cases h
      · cases h
        decide
    · cases h
      decide
  | getJson =>
    simp only [MetricsServer.exec] at h
    split at h
    · rename_i next comb hsender
      split at h
      · rename_i hnext
        obtain ⟨t, ht, -⟩ := hs.sendMessage (hnext ▸ hsender)
        rw [ht] at h
        cases h
      · cases h
        decide
    · cases h
      decide

/-- The account holds in every reachable state. -/
theorem holds_of_reaches {n : ℕ} {s : MetricsServer} (hs : Reaches n start s) : s.Holds n :=
  hs.invariant (fun s => s.Holds n) (holds_start n) fun _ _ _ h _ hexec => (h.exec hexec).1

/-- What had arrived in a reachable state is kept account of in all later ones. -/
theorem since_of_reaches {n : ℕ} {s t : MetricsServer} (hs : Reaches n start s)
    (hst : Reaches n s t) : ∀ w < n, Ledger.Since s.ledger t.ledger w := by
  have hboth := hst.invariant
    (fun u => u.Holds n ∧ ∀ w < n, Ledger.Since s.ledger u.ledger w)
    ⟨holds_of_reaches hs, fun w _ => Ledger.since_refl s.ledger w⟩ (by
      intro u a v hu _ hexec
      obtain ⟨hholds, hledger⟩ := hu.1.exec hexec
      refine ⟨hholds, fun w hw => ?_⟩
      rcases hledger with heq | hstep
      · rw [heq]
        exact hu.2 w hw
      · exact (hu.2 w hw).step hw hstep)
  exact hboth.2

/-- The contributions whose data were added, to the totals and to the recent metrics. -/
def added (n : ℕ) (s : MetricsServer) : Multiset MetricsContribution := s.ledger.arrived n

/-- In every run, no step fails because recent metrics have no totals. The messages' new data are
those of no more contributions than were added, and of all that were added before a round was
started that is complete. Each message reports every function of its new contributions once, with
the aggregate of these as new data, and as totals the aggregate of what the workers had counted
when they were merged, which includes all new data of this and the earlier messages. -/
theorem metrics_emitted_once (n : ℕ) {s t : MetricsServer} (hs : Reaches n start s)
    (hst : Reaches n s t) :
    (∀ a e, exec n t a = .error e → e ∉ GlobalAnomalyMetrics.findErrors) ∧
      newData t.messages ≤ t.added n ∧
      (s.ledger.started < t.ledger.rounds → s.added n ≤ newData t.messages) ∧
      ∀ before m, before ++ [m] <+: t.messages →
        GlobalAnomalyMetrics.Reports m.objects m.new m.seen ∧ newData (before ++ [m]) ≤ m.seen := by
  have ht := holds_of_reaches (hst.trans hs)
  refine ⟨fun a e h => ht.exec_error h, ?_, ?_, ht.messages⟩
  · rw [ht.newData_eq]
    exact ht.ledger.delivered_le
  · intro hround
    rw [ht.newData_eq]
    apply ht.ledger.le_delivered (since_of_reaches hs hst)
    intro w _
    have hdue := s.ledger.due_le_started w
    omega

/-- A rank with one anomaly of one function. -/
def oneAnomaly (step : ℤ) : ADLocalAnomalyMetrics :=
  { app := 0, rank := 3, step := step, firstEventTs := 100, lastEventTs := 200
    metrics := AList.singleton 7
      { score := (RunStats.new true).push 2, severity := (RunStats.new true).push 50, count := 1
        fid := 7, func := "solve"
        sampled := ⟨(RunStats.describes_push_new 2).sampled,
          (RunStats.describes_push_new 50).sampled⟩ }
    fid_eq := by
      intro fid f hf
      have hmem := AList.mem_lookup_iff.mp hf
      rw [AList.singleton_entries, List.mem_singleton] at hmem
      cases hmem
      rfl }

/-- The first round merges the worker between the two halves of adding the second data. -/
def splitAdd : List MetricsServerAction :=
  [.addFull 0 (oneAnomaly 0), .addRecent 0 0, .addFull 0 (oneAnomaly 1), .startRound,
    .mergeAndFlush, .addRecent 0 0, .getJson, .startRound, .mergeAndFlush, .getJson]

/-- All data are in the new data of a message in the end. -/
theorem metrics_emitted_once_splitAdd :
    ∃ s t : MetricsServer, s.added 1 ≤ newData t.messages ∧ (s.added 1).card = 2 ∧
      t.messages.length = 2 := by
  have hrun : ∃ s ∈ runAll (exec 1) (fun _ _ => True) start (splitAdd.take 7),
      ∃ t ∈ runAll (exec 1) (fun _ _ => True) s (splitAdd.drop 7),
        s.ledger.started < t.ledger.rounds ∧ (s.added 1).card = 2 ∧ t.messages.length = 2 := by
    decide +kernel
  obtain ⟨s, hs, t, ht, hround, hcard, hlength⟩ := hrun
  have hall := metrics_emitted_once 1 (runs_of_runAll _ hs) (runs_of_runAll _ ht)
  exact ⟨s, t, hall.2.2.1 hround, hcard, hlength⟩

end MetricsServer

end Chimbuko
