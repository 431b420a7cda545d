import Chimbuko.Library.RoundLedger
import Chimbuko.Library.TransitionSystem
import Chimbuko.Pserver.GlobalAnomalyStats
import Mathlib.Algebra.BigOperators.Group.Finset.Piecewise
import Mathlib.Algebra.Order.BigOperators.Group.Finset

/-!
# Workers and the combining sender

The workers add anomaly data and profiles to objects of their own, each kind under a lock of its
own, while the sender goes around the workers with a temporary object and then builds a message
from it. Between any two of these steps any other worker may take its own.

What a worker received is, in order, what finished rounds collected, what the round under way
merged, and what is pending. These three parts are kept beside the worker's object, and every
merge and every message is an account of them.
-/

namespace Chimbuko

open KeyedMap RoundLedger TransitionSystem

/-- A worker's object, with the anomaly data that it received. -/
structure StatsWorker where
  stats : GlobalAnomalyStats
  /-- Data that a finished round took. -/
  collected : List AnomalyData
  /-- Data that the round under way took. -/
  merged : List AnomalyData
  pending : List AnomalyData

/-- All anomaly data that a worker received. -/
def StatsWorker.received (w : StatsWorker) : List AnomalyData :=
  w.collected ++ w.merged ++ w.pending

/-- Where the sender is in a round: the worker whose anomaly data or profiles are next, and the
temporary object. -/
inductive CombineSender
  | idle
  | anomaly (next : ℕ) (comb : GlobalAnomalyStats)
  | func (next : ℕ) (comb : GlobalAnomalyStats)

/-- A message, with what the workers had received when they were merged in its round. -/
structure SentMessage where
  content : AnomalyStatsMessage
  seen : List AnomalyData

/-- The server's workers and its sender, with what was sent. -/
structure AnomalyServer where
  worker : ℕ → StatsWorker
  sender : CombineSender
  /-- What the workers merged in this round had received. -/
  seen : List AnomalyData
  messages : List SentMessage
  /-- The number of rounds that were started. -/
  started : ℕ
  /-- The number of rounds that were completed. -/
  completed : ℕ

/-- What a worker or the sender does next. -/
inductive AnomalyServerAction
  | updateAnomalyStat (worker : ℕ) (anom : AnomalyData)
  | updateFuncStat (worker : ℕ) (f : FuncStats)
  | startRound
  | mergeAnomalyStats
  | mergeFuncstats
  | collect

/-- Whether a step is one of a worker. -/
def AnomalyServerAction.ofWorker : AnomalyServerAction → Bool
  | .updateAnomalyStat _ _ | .updateFuncStat _ _ => true
  | _ => false

namespace AnomalyServer

/-- Nothing has happened yet. -/
def start : AnomalyServer :=
  { worker := fun _ => ⟨GlobalAnomalyStats.new, [], [], []⟩
    sender := .idle, seen := [], messages := [], started := 0, completed := 0 }

/-- Set the state of a worker. -/
def setWorker (s : AnomalyServer) (w : ℕ) (x : StatsWorker) : AnomalyServer :=
  { s with worker := Function.update s.worker w x }

/-- The sender moves a worker's anomaly data. -/
def mergeWorker (s : AnomalyServer) (next : ℕ) (comb : GlobalAnomalyStats) :
    Except String AnomalyServer := do
  let w := s.worker next
  let (comb, stats) ← comb.mergeAnomalyStats w.stats
  pure { s.setWorker next ⟨stats, w.collected, w.merged ++ w.pending, []⟩ with
    sender := .func next comb
    seen := s.seen ++ w.received }

/-- The sender builds the message of a round. -/
def sendMessage (s : AnomalyServer) (comb : GlobalAnomalyStats) : AnomalyServer :=
  { s with
    worker := fun w => ⟨(s.worker w).stats, (s.worker w).collected ++ (s.worker w).merged, [],
      (s.worker w).pending⟩
    sender := .idle
    messages := s.messages ++ (comb.collect.1.map fun m => ⟨m, s.seen⟩).toList
    completed := s.completed + 1 }

/-- One step of the server with `n` workers. A step that is not the sender's next one fails. -/
def exec (n : ℕ) (s : AnomalyServer) : AnomalyServerAction → Except String AnomalyServer
  | .updateAnomalyStat w anom =>
    if w < n then
      let old := s.worker w
      pure (s.setWorker w
        ⟨old.stats.updateAnomalyStat anom, old.collected, old.merged, old.pending ++ [anom]⟩)
    else throw "no such worker"
  | .updateFuncStat w f =>
    if w < n then
      let old := s.worker w
      pure (s.setWorker w
        ⟨old.stats.updateFuncStat f, old.collected, old.merged, old.pending⟩)
    else throw "no such worker"
  | .startRound =>
    match s.sender with
    | .idle => pure { s with
        sender := .anomaly 0 GlobalAnomalyStats.new, seen := [], started := s.started + 1 }
    | _ => throw "out of turn"
  | .mergeAnomalyStats =>
    match s.sender with
    | .anomaly next comb => if next < n then s.mergeWorker next comb else throw "out of turn"
    | _ => throw "out of turn"
  | .mergeFuncstats =>
    match s.sender with
    | .func next comb => do
      let comb ← comb.mergeFuncstats (s.worker next).stats
      pure { s with sender := .anomaly (next + 1) comb }
    | _ => throw "out of turn"
  | .collect =>
    match s.sender with
    | .anomaly next comb => if next = n then pure (s.sendMessage comb) else throw "out of turn"
    | _ => throw "out of turn"

/-- The runs of a server with `n` workers. -/
abbrev Reaches (n : ℕ) (s t : AnomalyServer) : Prop :=
  Runs (StepOf (exec n)) (fun _ _ => True) s t

/-- All anomaly data that the workers received. -/
def received (n : ℕ) (s : AnomalyServer) : Multiset AnomalyData :=
  ∑ w ∈ Finset.range n, ((s.worker w).received : Multiset AnomalyData)

/-- All anomaly data in messages. -/
def emitted (messages : List SentMessage) : List AnomalyData :=
  messages.flatMap fun m => m.content.data

/-- The data with anomalies. -/
def anomalous (ds : Multiset AnomalyData) : Multiset AnomalyData :=
  ds.filter fun d => 0 < d.nAnomalies

/-- An object of a message is for one program and rank: its data have anomalies, and its
statistics are those of all data of the program and rank among the given ones. -/
def ObjectCorrect (seen : List AnomalyData) (o : AnomalyObject) : Prop :=
  ∃ key : ℤ × ℕ, o.key = anomalyKey key.1 (toInt key.2) ∧
    o.stats.Describes (GlobalAnomalyStats.counts (GlobalAnomalyStats.ofKey key seen)) ∧
    ∀ d ∈ o.data, GlobalAnomalyStats.keyOf d = key ∧ 0 < d.nAnomalies

/-- The temporary object after merging the first `k` workers. -/
structure CombHolds (n : ℕ) (s : AnomalyServer) (k : ℕ) (comb : GlobalAnomalyStats) : Prop where
  le : k ≤ n
  holds : comb.Holds s.seen
  unflushed : comb.unflushed =
    ∑ w ∈ Finset.range n, ((s.worker w).merged : Multiset AnomalyData)
  rest : ∀ w, k ≤ w → (s.worker w).merged = []
  seen : (s.seen : Multiset AnomalyData) = ∑ w ∈ Finset.range k,
    ((s.worker w).collected + (s.worker w).merged : Multiset AnomalyData)

/-- The temporary object is right wherever the sender is in a round. -/
def SenderHolds (n : ℕ) (s : AnomalyServer) : CombineSender → Prop
  | .idle => ∀ w, (s.worker w).merged = []
  | .anomaly next comb => CombHolds n s next comb
  | .func next comb => CombHolds n s (next + 1) comb

/-- The messages up to a given one are accounted for by what was seen when it was built. -/
def MessagesHold (messages : List SentMessage) : Prop :=
  ∀ before m, before ++ [m] <+: messages →
    (∀ o ∈ m.content.anomaly, ObjectCorrect m.seen o) ∧
      (emitted (before ++ [m]) : Multiset AnomalyData) ≤ m.seen

/-- The workers' objects, the temporary object and the messages account for what was received. -/
structure Holds (n : ℕ) (s : AnomalyServer) : Prop where
  worker : ∀ w, (s.worker w).stats.Holds (s.worker w).received
  unflushed : ∀ w, (s.worker w).stats.unflushed = (s.worker w).pending
  sender : SenderHolds n s s.sender
  emitted_eq : (emitted s.messages : Multiset AnomalyData) =
    ∑ w ∈ Finset.range n, anomalous (s.worker w).collected
  messages : MessagesHold s.messages
  idle : s.sender = .idle → s.started = s.completed
  busy : s.sender ≠ .idle → s.started = s.completed + 1

/-- At the start nothing was collected. -/
theorem holds_start (n : ℕ) : start.Holds n := by
  refine ⟨fun _ => GlobalAnomalyStats.holds_new, fun _ => rfl, fun _ => rfl, ?_, ?_,
    fun _ => rfl, fun h => absurd rfl h⟩
  · exact (Finset.sum_eq_zero fun _ _ => rfl).symm
  · intro before m hprefix
    have hnil := List.prefix_nil.mp hprefix
    simp at hnil

/-- What the sender holds depends on what was seen, collected and merged only. -/
theorem SenderHolds.congr {n : ℕ} {s t : AnomalyServer} {phase : CombineSender}
    (h : SenderHolds n s phase) (hseen : t.seen = s.seen)
    (hcollected : ∀ w, (t.worker w).collected = (s.worker w).collected)
    (hmerged : ∀ w, (t.worker w).merged = (s.worker w).merged) : SenderHolds n t phase := by
  have hcomb : ∀ k comb, CombHolds n s k comb → CombHolds n t k comb := by
    intro k comb hcomb
    refine ⟨hcomb.le, by rw [hseen]; exact hcomb.holds, ?_, ?_, ?_⟩
    · rw [hcomb.unflushed]
      exact Finset.sum_congr rfl fun w _ => by rw [hmerged]
    · intro w hw
      rw [hmerged]
      exact hcomb.rest w hw
    · rw [hseen, hcomb.seen]
      exact Finset.sum_congr rfl fun w _ => by rw [hmerged, hcollected]
  cases phase with
  | idle => exact fun w => (hmerged w).trans (h w)
  | anomaly next comb => exact hcomb next comb h
  | func next comb => exact hcomb (next + 1) comb h

/-- The worker that was set. -/
@[simp] theorem setWorker_self (s : AnomalyServer) (w : ℕ) (x : StatsWorker) :
    (s.setWorker w x).worker w = x := Function.update_self _ _ _

/-- The other workers stay as they are. -/
theorem setWorker_of_ne (s : AnomalyServer) {w v : ℕ} (x : StatsWorker) (h : v ≠ w) :
    (s.setWorker w x).worker v = s.worker v := Function.update_of_ne h _ _

/-- A property of the new worker and of the old ones. -/
theorem forall_setWorker {P : StatsWorker → ℕ → Prop} {s : AnomalyServer} {w : ℕ}
    {x : StatsWorker} (hx : P x w) (hs : ∀ v, P (s.worker v) v) (v : ℕ) :
    P ((s.setWorker w x).worker v) v := by
  by_cases hv : v = w
  · rw [hv, setWorker_self]
    exact hx
  · rw [setWorker_of_ne s x hv]
    exact hs v

/-- A step of a worker keeps the account, if its object holds what it then received. -/
theorem Holds.setWorker {n : ℕ} {s : AnomalyServer} (hs : s.Holds n) (w : ℕ)
    (stats : GlobalAnomalyStats) (pending : List AnomalyData)
    (hstats : stats.Holds ((s.worker w).collected ++ (s.worker w).merged ++ pending))
    (hunflushed : stats.unflushed = pending) :
    (s.setWorker w ⟨stats, (s.worker w).collected, (s.worker w).merged, pending⟩).Holds n := by
  have hcollected := forall_setWorker (s := s) (w := w)
    (x := ⟨stats, (s.worker w).collected, (s.worker w).merged, pending⟩)
    (P := fun x v => x.collected = (s.worker v).collected) rfl fun _ => rfl
  have hmerged := forall_setWorker (s := s) (w := w)
    (x := ⟨stats, (s.worker w).collected, (s.worker w).merged, pending⟩)
    (P := fun x v => x.merged = (s.worker v).merged) rfl fun _ => rfl
  refine ⟨?_, ?_, hs.sender.congr rfl hcollected hmerged, ?_, hs.messages, hs.idle, hs.busy⟩
  · exact forall_setWorker (P := fun x _ => x.stats.Holds x.received) hstats hs.worker
  · exact forall_setWorker (P := fun x _ => x.stats.unflushed = x.pending) hunflushed hs.unflushed
  · refine hs.emitted_eq.trans (Finset.sum_congr rfl fun v _ => ?_)
    rw [hcollected]

/-- Merging a worker moves its pending data into the temporary object. -/
theorem Holds.mergeWorker {n next : ℕ} {s : AnomalyServer} {comb : GlobalAnomalyStats}
    (hs : s.Holds n) (hsender : s.sender = .anomaly next comb) (hnext : next < n) :
    ∃ t, s.mergeWorker next comb = .ok t ∧ t.Holds n := by
  have hcomb : CombHolds n s next comb := by
    have h := hs.sender
    rwa [hsender] at h
  obtain ⟨comb', stats, hmerge, hcomb', hstats, hmoved, hflushed, -, -⟩ :=
    hcomb.holds.mergeAnomalyStats (hs.worker next)
  have hmerged := hcomb.rest next le_rfl
  let w : StatsWorker := ⟨stats, (s.worker next).collected,
    (s.worker next).merged ++ (s.worker next).pending, []⟩
  have hreceived : w.received = (s.worker next).received := by
    simp only [w, StatsWorker.received, List.append_nil, List.append_assoc]
  have hrun : s.mergeWorker next comb = .ok { s.setWorker next w with
      sender := .func next comb'
      seen := s.seen ++ (s.worker next).received } := by
    rw [AnomalyServer.mergeWorker, hmerge]
    rfl
  have hother : ∀ v, v ≠ next → Function.update s.worker next w v = s.worker v :=
    fun v hv => Function.update_of_ne hv _ _
  have hself : Function.update s.worker next w next = w := Function.update_self _ _ _
  refine ⟨_, hrun, ?_, ?_, ⟨hnext, hcomb', ?_, fun v hv => ?_, ?_⟩, ?_, hs.messages,
    (fun h => by cases h), fun _ => ?_⟩
  · refine forall_setWorker (P := fun x _ => x.stats.Holds x.received) ?_ hs.worker
    rw [hreceived]
    exact hstats
  · exact forall_setWorker (P := fun x _ => x.stats.unflushed = x.pending) hflushed hs.unflushed
  · have hterm : ∀ v, ((Function.update s.worker next w v).merged : Multiset AnomalyData) =
        (s.worker v).merged + if v = next then ((s.worker v).pending : Multiset AnomalyData)
          else 0 := by
      intro v
      by_cases hv : v = next
      · rw [hv, hself, if_pos rfl, Multiset.coe_add]
      · rw [hother v hv, if_neg hv, add_zero]
    change comb'.unflushed = ∑ v ∈ Finset.range n,
      ((Function.update s.worker next w v).merged : Multiset AnomalyData)
    rw [Finset.sum_congr rfl fun v _ => hterm v, Finset.sum_add_distrib, Finset.sum_ite_eq',
      if_pos (Finset.mem_range.mpr hnext), hmoved, hcomb.unflushed, hs.unflushed]
  · change (Function.update s.worker next w v).merged = []
    rw [hother v (Nat.lt_of_succ_le hv).ne']
    exact hcomb.rest v (Nat.le_of_succ_le hv)
  · change ((s.seen ++ (s.worker next).received : List AnomalyData) : Multiset AnomalyData) =
      ∑ v ∈ Finset.range (next + 1), (((Function.update s.worker next w v).collected :
        Multiset AnomalyData) + (Function.update s.worker next w v).merged)
    rw [Finset.sum_range_succ, hself, ← Multiset.coe_add, hcomb.seen, ← hreceived]
    congr 1
    · refine Finset.sum_congr rfl fun v hv => ?_
      rw [hother v (Finset.mem_range.mp hv).ne]
    · rw [StatsWorker.received, List.append_nil, Multiset.coe_add]
  · refine hs.emitted_eq.trans (Finset.sum_congr rfl fun v _ => ?_)
    exact forall_setWorker (w := next) (x := w) (P := fun x v =>
      anomalous (s.worker v).collected = anomalous x.collected) rfl (fun _ => rfl) v
  · exact hs.busy (by rw [hsender]; exact fun h => by cases h)

/-- The data of anomalies are among the data. -/
theorem anomalous_le (ds : Multiset AnomalyData) : anomalous ds ≤ ds := Multiset.filter_le _ _

/-- The anomalies of data and others are those of all of them. -/
theorem anomalous_add (ds es : Multiset AnomalyData) :
    anomalous (ds + es) = anomalous ds + anomalous es := Multiset.filter_add _ _ _

/-- More data have more anomalies. -/
theorem anomalous_mono {ds es : Multiset AnomalyData} (h : ds ≤ es) :
    anomalous ds ≤ anomalous es := Multiset.filter_le_filter _ h

/-- The anomalies of all data are those of all workers. -/
theorem anomalous_sum (n : ℕ) (f : ℕ → Multiset AnomalyData) :
    anomalous (∑ w ∈ Finset.range n, f w) = ∑ w ∈ Finset.range n, anomalous (f w) := by
  induction n with
  | zero => rfl
  | succ n ih => rw [Finset.sum_range_succ, Finset.sum_range_succ, anomalous_add, ih]

/-- What messages and others emit is what all of them emit. -/
theorem emitted_append (ms ms' : List SentMessage) :
    emitted (ms ++ ms') = emitted ms ++ emitted ms' := List.flatMap_append

/-- Sending a message emits what the round merged. -/
theorem Holds.sendMessage {n : ℕ} {s : AnomalyServer} {comb : GlobalAnomalyStats}
    (hs : s.Holds n) (hsender : s.sender = .anomaly n comb) : (s.sendMessage comb).Holds n := by
  have hcomb : CombHolds n s n comb := by
    have h := hs.sender
    rwa [hsender] at h
  have hnew : (emitted (comb.collect.1.map fun m => ⟨m, s.seen⟩).toList :
      Multiset AnomalyData) = anomalous (∑ w ∈ Finset.range n, (s.worker w).merged) := by
    rw [← hcomb.unflushed, anomalous, ← GlobalAnomalyStats.collect_data]
    cases comb.collect.1 with
    | none => rfl
    | some m => exact congrArg _ (List.append_nil _)
  have hemitted : (emitted (s.sendMessage comb).messages : Multiset AnomalyData) =
      ∑ w ∈ Finset.range n, anomalous ((s.worker w).collected + (s.worker w).merged) := by
    rw [AnomalyServer.sendMessage, emitted_append, ← Multiset.coe_add, hnew, hs.emitted_eq,
      anomalous_sum, ← Finset.sum_add_distrib]
    exact Finset.sum_congr rfl fun w _ => (anomalous_add _ _).symm
  refine ⟨?_, hs.unflushed, fun _ => rfl, ?_, ?_, fun _ => ?_, fun h => absurd rfl h⟩
  · intro w
    change (s.worker w).stats.Holds
      ((s.worker w).collected ++ (s.worker w).merged ++ [] ++ (s.worker w).pending)
    rw [List.append_nil]
    exact hs.worker w
  · rw [hemitted]
    refine Finset.sum_congr rfl fun w _ => ?_
    rw [Multiset.coe_add]
    rfl
  · intro before m hprefix
    cases hcollect : comb.collect.1 with
    | none =>
      rw [AnomalyServer.sendMessage, hcollect] at hprefix
      exact hs.messages before m (by simpa using hprefix)
    | some content =>
      rw [AnomalyServer.sendMessage, hcollect] at hprefix
      rcases List.prefix_concat_iff.mp hprefix with heq | hold
      · obtain ⟨rfl, hm⟩ := List.append_inj' heq rfl
        cases hm
        refine ⟨fun o ho => ?_, ?_⟩
        · obtain ⟨key, a, hlookup, hkey, hstats, hdata⟩ :=
            GlobalAnomalyStats.mem_collect hcollect ho
          obtain ⟨hdescribes, hown⟩ := hcomb.holds.stats key a hlookup
          refine ⟨key, hkey, hstats ▸ hdescribes, fun d hd => ?_⟩
          rw [hdata] at hd
          obtain ⟨hmem, hpos⟩ := List.mem_filter.mp hd
          exact ⟨hown d hmem, of_decide_eq_true hpos⟩
        · have hall : s.messages ++ [⟨content, s.seen⟩] = (s.sendMessage comb).messages := by
            rw [AnomalyServer.sendMessage, hcollect]
            rfl
          rw [hall, hemitted, hcomb.seen]
          exact Finset.sum_le_sum fun w _ => anomalous_le _
      · exact hs.messages before m hold
  · exact hs.busy (by rw [hsender]; exact fun h => by cases h)

/-- Every step keeps the account. -/
theorem Holds.exec {n : ℕ} {s t : AnomalyServer} {a : AnomalyServerAction} (hs : s.Holds n)
    (h : AnomalyServer.exec n s a = .ok t) : t.Holds n := by
  cases a with
  | updateAnomalyStat w anom =>
    simp only [AnomalyServer.exec] at h
    split at h
    · cases h
      obtain ⟨hstats, hunflushed⟩ := (hs.worker w).updateAnomalyStat anom
      refine hs.setWorker w _ _ ?_ ?_
      · rw [← List.append_assoc]
        exact hstats
      · rw [hunflushed, hs.unflushed, ← Multiset.coe_add]
        rfl
    · cases h
  | updateFuncStat w f =>
    simp only [AnomalyServer.exec] at h
    split at h
    · cases h
      refine hs.setWorker w _ _ ⟨?_, ?_⟩ (hs.unflushed w)
      · exact (hs.worker w).stats
      · exact (hs.worker w).absent
    · cases h
  | startRound =>
    simp only [AnomalyServer.exec] at h
    split at h
    · rename_i hsender
      cases h
      have hmerged : ∀ w, (s.worker w).merged = [] := by
        have hidle := hs.sender
        rwa [hsender] at hidle
      refine ⟨hs.worker, hs.unflushed, ?_, hs.emitted_eq, hs.messages, (fun h => by cases h),
        fun _ => congrArg (· + 1) (hs.idle hsender)⟩
      refine ⟨Nat.zero_le n, GlobalAnomalyStats.holds_new, ?_, fun w _ => hmerged w, rfl⟩
      exact (Finset.sum_eq_zero fun w _ => by rw [hmerged]; rfl).symm
    · cases h
  | mergeAnomalyStats =>
    simp only [AnomalyServer.exec] at h
    split at h
    · rename_i next comb hsender
      split at h
      · rename_i hnext
        obtain ⟨t', ht', hholds⟩ := hs.mergeWorker hsender hnext
        rw [ht'] at h
        cases h
        exact hholds
      · cases h
    · cases h
  | mergeFuncstats =>
    simp only [AnomalyServer.exec] at h
    split at h
    · rename_i next comb hsender
      have hcomb : CombHolds n s (next + 1) comb := by
        have h := hs.sender
        rwa [hsender] at h
      cases hmerge : comb.mergeFuncstats (s.worker next).stats with
      | error e =>
        rw [hmerge] at h
        cases h
      | ok comb' =>
        rw [hmerge] at h
        cases h
        have hanomaly := GlobalAnomalyStats.mergeFuncstats_anomalyStats hmerge
        have hbusy := hs.busy (by rw [hsender]; exact fun h => by cases h)
        refine ⟨hs.worker, hs.unflushed, ⟨hcomb.le, ⟨?_, ?_⟩, ?_, hcomb.rest, hcomb.seen⟩,
          hs.emitted_eq, hs.messages, (fun h => by cases h), fun _ => hbusy⟩
        · rw [hanomaly]
          exact hcomb.holds.stats
        · rw [hanomaly]
          exact hcomb.holds.absent
        · rw [GlobalAnomalyStats.unflushed, hanomaly]
          exact hcomb.unflushed
    · cases h
  | collect =>
    simp only [AnomalyServer.exec] at h
    split at h
    · rename_i next comb hsender
      split at h
      · rename_i hnext
        cases h
        exact hs.sendMessage (hnext ▸ hsender)
      · cases h
    · cases h

/-- The account of the anomaly data alone. -/
def ledger (n : ℕ) (s : AnomalyServer) : Ledger AnomalyData :=
  { station := fun w => ⟨(s.worker w).collected, (s.worker w).merged, (s.worker w).pending⟩
    next := match s.sender with
      | .idle => none
      | .anomaly next _ => some next
      | .func next _ => some (next + 1)
    delivered := ∑ w ∈ Finset.range n, ((s.worker w).collected : Multiset AnomalyData)
    rounds := s.completed }

/-- A step of a worker that leaves what finished rounds took. -/
theorem sum_collected_setWorker (n : ℕ) {w : ℕ} {s : AnomalyServer} {x : StatsWorker}
    (hx : x.collected = (s.worker w).collected) :
    ∑ v ∈ Finset.range n, (((s.setWorker w x).worker v).collected : Multiset AnomalyData) =
      ∑ v ∈ Finset.range n, ((s.worker v).collected : Multiset AnomalyData) := by
  apply Finset.sum_congr rfl
  intro v _
  by_cases hv : v = w
  · rw [hv, setWorker_self, hx]
  · rw [setWorker_of_ne s x hv]

/-- A worker's step that leaves what rounds took is the arrival of some data. -/
theorem ledger_setWorker (n w : ℕ) (s : AnomalyServer) (stats : GlobalAnomalyStats)
    (added : List AnomalyData) :
    (s.setWorker w ⟨stats, (s.worker w).collected, (s.worker w).merged,
      (s.worker w).pending ++ added⟩).ledger n = (s.ledger n).arrive w added := by
  apply Ledger.ext
  · funext v
    by_cases hv : v = w
    · subst hv
      simp [ledger, Ledger.arrive]
    · simp [ledger, Ledger.arrive, setWorker_of_ne s _ hv, hv]
  · rfl
  · exact sum_collected_setWorker n rfl
  · rfl

/-- Merging a worker is a visit. -/
theorem ledger_mergeWorker {n next : ℕ} {s t : AnomalyServer} {comb : GlobalAnomalyStats}
    (h : s.mergeWorker next comb = .ok t) : t.ledger n = (s.ledger n).visit next := by
  rw [AnomalyServer.mergeWorker] at h
  cases hstats : comb.mergeAnomalyStats (s.worker next).stats with
  | error e =>
    rw [hstats] at h
    cases h
  | ok result =>
    rw [hstats] at h
    cases h
    apply Ledger.ext
    · funext v
      by_cases hv : v = next
      · subst hv
        simp [ledger, Ledger.visit]
      · simp [ledger, Ledger.visit, setWorker_of_ne s _ hv, hv]
    · rfl
    · exact sum_collected_setWorker n rfl
    · rfl

/-- Sending the message ends the round. -/
theorem ledger_sendMessage (n : ℕ) (s : AnomalyServer) (comb : GlobalAnomalyStats) :
    (s.sendMessage comb).ledger n = (s.ledger n).finish n := by
  apply Ledger.ext
  · rfl
  · rfl
  · change (∑ w ∈ Finset.range n, (((s.worker w).collected ++ (s.worker w).merged :
      List AnomalyData) : Multiset AnomalyData)) = (s.ledger n).delivered + (s.ledger n).load n
    rw [Ledger.coe_load]
    simp only [← Multiset.coe_add]
    rw [Finset.sum_add_distrib]
    rfl
  · rfl

/-- No round is under way exactly if the sender is idle. -/
theorem ledger_next_eq_none {n : ℕ} {s : AnomalyServer} :
    (s.ledger n).next = none ↔ s.sender = .idle := by
  unfold ledger
  cases s.sender <;> simp

/-- A step of a worker is an arrival of data, and leaves the sender as it is. -/
theorem exec_worker {n : ℕ} {s t : AnomalyServer} {a : AnomalyServerAction}
    (ha : a.ofWorker = true) (h : AnomalyServer.exec n s a = .ok t) :
    Ledger.Step n (s.ledger n) (t.ledger n) ∧ t.sender = s.sender ∧ t.messages = s.messages := by
  cases a with
  | updateAnomalyStat w anom =>
    simp only [AnomalyServer.exec] at h
    split at h
    · rename_i hw
      cases h
      rw [ledger_setWorker]
      exact ⟨Ledger.Step.arrive _ w [anom] hw, rfl, rfl⟩
    · cases h
  | updateFuncStat w f =>
    simp only [AnomalyServer.exec] at h
    split at h
    · rename_i hw
      cases h
      have hset := ledger_setWorker n w s ((s.worker w).stats.updateFuncStat f) []
      rw [List.append_nil] at hset
      rw [hset]
      exact ⟨Ledger.Step.arrive _ w [] hw, rfl, rfl⟩
    · cases h
  | startRound => cases ha
  | mergeAnomalyStats => cases ha
  | mergeFuncstats => cases ha
  | collect => cases ha

/-- A step of the sender is one of the collector, or within the visit of a worker. -/
theorem ledger_exec_sender {n : ℕ} {s t : AnomalyServer} {a : AnomalyServerAction}
    (ha : a.ofWorker = false) (h : AnomalyServer.exec n s a = .ok t) :
    (t.ledger n = s.ledger n ∧ (s.ledger n).next ≠ none) ∨
      Ledger.CollectStep n (s.ledger n) (t.ledger n) := by
  cases a with
  | updateAnomalyStat w anom => cases ha
  | updateFuncStat w f => cases ha
  | startRound =>
    simp only [AnomalyServer.exec] at h
    split at h
    · rename_i hsender
      cases h
      exact Or.inr (Ledger.CollectStep.start (s.ledger n) (by simp [ledger, hsender]))
    · cases h
  | mergeAnomalyStats =>
    simp only [AnomalyServer.exec] at h
    split at h
    · rename_i next comb hsender
      split at h
      · rename_i hnext
        rw [ledger_mergeWorker h]
        exact Or.inr (Ledger.CollectStep.visit _ next (by simp [ledger, hsender]) hnext)
      · cases h
    · cases h
  | mergeFuncstats =>
    simp only [AnomalyServer.exec] at h
    split at h
    · rename_i next comb hsender
      cases hmerge : comb.mergeFuncstats (s.worker next).stats with
      | error e =>
        rw [hmerge] at h
        cases h
      | ok comb' =>
        rw [hmerge] at h
        cases h
        simp [ledger, hsender]
    · cases h
  | collect =>
    simp only [AnomalyServer.exec] at h
    split at h
    · rename_i next comb hsender
      split at h
      · rename_i hnext
        cases h
        rw [ledger_sendMessage]
        exact Or.inr (Ledger.CollectStep.finish _ (by simp [ledger, hsender, hnext]))
      · cases h
    · cases h

/-- Only the last step of a round sends a message. -/
theorem exec_messages {n : ℕ} {s t : AnomalyServer} {a : AnomalyServerAction}
    (h : AnomalyServer.exec n s a = .ok t) :
    ∃ m : Option SentMessage, t.messages = s.messages ++ m.toList ∧
      (t.sender ≠ .idle → m = none) := by
  cases ha : a.ofWorker with
  | true => exact ⟨none, by simp [(exec_worker ha h).2.2], fun _ => rfl⟩
  | false =>
  cases a with
  | updateAnomalyStat w anom => cases ha
  | updateFuncStat w f => cases ha
  | startRound =>
    simp only [AnomalyServer.exec] at h
    split at h
    · cases h
      exact ⟨none, by simp, fun _ => rfl⟩
    · cases h
  | mergeAnomalyStats =>
    simp only [AnomalyServer.exec] at h
    split at h
    · rename_i next comb hsender
      split at h
      · rw [AnomalyServer.mergeWorker] at h
        cases hmerge : comb.mergeAnomalyStats (s.worker next).stats with
        | error e =>
          rw [hmerge] at h
          cases h
        | ok merged =>
          rw [hmerge] at h
          cases h
          exact ⟨none, by simp [setWorker], fun _ => rfl⟩
      · cases h
    · cases h
  | mergeFuncstats =>
    simp only [AnomalyServer.exec] at h
    split at h
    · rename_i next comb hsender
      cases hmerge : comb.mergeFuncstats (s.worker next).stats with
      | error e =>
        rw [hmerge] at h
        cases h
      | ok comb' =>
        rw [hmerge] at h
        cases h
        exact ⟨none, by simp, fun _ => rfl⟩
    · cases h
  | collect =>
    simp only [AnomalyServer.exec] at h
    split at h
    · rename_i next comb hsender
      split at h
      · cases h
        exact ⟨comb.collect.1.map fun m => ⟨m, s.seen⟩, rfl, fun hbusy => absurd rfl hbusy⟩
      · cases h
    · cases h

/-- Every step is one of the ledger, or leaves it as it is. -/
theorem ledger_exec {n : ℕ} {s t : AnomalyServer} {a : AnomalyServerAction}
    (h : AnomalyServer.exec n s a = .ok t) :
    t.ledger n = s.ledger n ∨ Ledger.Step n (s.ledger n) (t.ledger n) := by
  cases ha : a.ofWorker with
  | true => exact Or.inr (exec_worker ha h).1
  | false =>
    rcases ledger_exec_sender ha h with ⟨heq, -⟩ | hstep
    · exact Or.inl heq
    · exact Or.inr hstep.toStep

/-- The account holds in every reachable state. -/
theorem holds_of_reaches {n : ℕ} {s : AnomalyServer} (hs : Reaches n start s) : s.Holds n :=
  hs.invariant (fun s => s.Holds n) (holds_start n) fun _ _ _ h _ hexec => h.exec hexec

/-- What had been received in a reachable state is kept account of in all later ones. -/
theorem ledger_since {n : ℕ} {s t : AnomalyServer} (hst : Reaches n s t) :
    ∀ w < n, Ledger.Since (s.ledger n) (t.ledger n) w := by
  apply hst.invariant fun u => ∀ w < n, Ledger.Since (s.ledger n) (u.ledger n) w
  · exact fun w _ => Ledger.since_refl (s.ledger n) w
  · intro u a v hu _ hexec w hw
    rcases ledger_exec hexec with heq | hstep
    · rw [heq]
      exact hu w hw
    · exact (hu w hw).step hw hstep

/-- The ledger has as many rounds as the sender started. -/
theorem Holds.started_ledger {n : ℕ} {s : AnomalyServer} (hs : s.Holds n) :
    (s.ledger n).started = s.started := by
  unfold Ledger.started ledger
  cases hsender : s.sender with
  | idle => simp [hs.idle hsender]
  | anomaly next comb => simp [hs.busy (by simp [hsender])]
  | func next comb => simp [hs.busy (by simp [hsender])]

/-- The account of the anomaly data is balanced. -/
theorem Holds.valid_ledger {n : ℕ} {s : AnomalyServer} (hs : s.Holds n) :
    (s.ledger n).Valid n := by
  have hsender := hs.sender
  constructor
  · intro k hk
    unfold ledger at hk
    cases hphase : s.sender with
    | idle => simp [hphase] at hk
    | anomaly next comb =>
      rw [hphase] at hsender
      simp only [hphase, Option.some.injEq] at hk
      exact hk ▸ hsender.le
    | func next comb =>
      rw [hphase] at hsender
      simp only [hphase, Option.some.injEq] at hk
      exact hk ▸ hsender.le
  · intro w hw
    unfold ledger at hw
    cases hphase : s.sender with
    | idle =>
      rw [hphase] at hsender
      exact hsender w
    | anomaly next comb =>
      rw [hphase] at hsender
      exact hsender.rest w (hw next (by simp [hphase]))
    | func next comb =>
      rw [hphase] at hsender
      exact hsender.rest w (hw (next + 1) (by simp [hphase]))
  · rfl

/-- All data with anomalies are in messages exactly if the account has delivered them. -/
theorem Holds.emitted_eq_iff {n : ℕ} {s : AnomalyServer} (hs : s.Holds n) :
    (emitted s.messages : Multiset AnomalyData) = anomalous (s.received n) ↔
      (s.ledger n).delivered.filter (fun d => 0 < d.nAnomalies) =
        ((s.ledger n).arrived n).filter fun d => 0 < d.nAnomalies := by
  have hdelivered : (emitted s.messages : Multiset AnomalyData) =
      (s.ledger n).delivered.filter fun d => 0 < d.nAnomalies := by
    rw [hs.emitted_eq, ← anomalous_sum]
    rfl
  rw [hdelivered]
  rfl

/-- In every run, the messages hold no more data with anomalies than were received; they hold all
that were received before a round was started that is complete. The objects of a message are for
one program and rank each, with the statistics of what the workers had received when they were
merged, which includes everything emitted until then. -/
theorem emitted_once (n : ℕ) {s t : AnomalyServer} (hs : Reaches n start s)
    (hst : Reaches n s t) :
    (emitted t.messages : Multiset AnomalyData) ≤ anomalous (t.received n) ∧
      (s.started < t.completed →
        anomalous (s.received n) ≤ (emitted t.messages : Multiset AnomalyData)) ∧
      ∀ before m, before ++ [m] <+: t.messages →
        (∀ o ∈ m.content.anomaly, ObjectCorrect m.seen o) ∧
          (emitted (before ++ [m]) : Multiset AnomalyData) ≤ m.seen := by
  have ht := holds_of_reaches (hst.trans hs)
  refine ⟨?_, fun hround => ?_, ht.messages⟩
  · rw [ht.emitted_eq, received, anomalous_sum]
    refine Finset.sum_le_sum fun w _ => anomalous_mono ?_
    rw [StatsWorker.received, List.append_assoc]
    exact (List.prefix_append _ _).sublist.subperm
  · rw [ht.emitted_eq, received, anomalous_sum]
    refine Finset.sum_le_sum fun w hw => anomalous_mono ?_
    have hdue := (s.ledger n).due_le_started w
    rw [(holds_of_reaches hs).started_ledger] at hdue
    have hsince := ledger_since hst w (Finset.mem_range.mp hw)
    exact (hsince.delivered (hdue.trans hround)).sublist.subperm

/-- Two workers receive data of one rank while a round is under way. -/
def oneRound : List AnomalyServerAction :=
  let anom (step nAnomalies : ℕ) : AnomalyData :=
    { app := 0, rank := 3, step := step, minTimestamp := 0, maxTimestamp := 10
      nAnomalies := nAnomalies, outlierScores := RunStats.new true }
  [.updateAnomalyStat 0 (anom 0 2), .startRound, .mergeAnomalyStats,
    .updateAnomalyStat 0 (anom 1 1), .mergeFuncstats, .updateAnomalyStat 1 (anom 2 0),
    .mergeAnomalyStats, .mergeFuncstats, .collect]

/-- The first data are in the message. -/
theorem emitted_once_round :
    ∃ s t : AnomalyServer, anomalous (s.received 2) ≤ (emitted t.messages : Multiset AnomalyData) ∧
      (emitted t.messages).length = 1 := by
  have hrun : ∃ s ∈ runAll (exec 2) (fun _ _ => True) start (oneRound.take 1),
      ∃ t ∈ runAll (exec 2) (fun _ _ => True) s (oneRound.drop 1),
        s.started < t.completed ∧ (emitted t.messages).length = 1 := by
    decide +kernel
  obtain ⟨s, hs, t, ht, hround, hlength⟩ := hrun
  exact ⟨s, t, (emitted_once 2 (runs_of_runAll _ hs) (runs_of_runAll _ ht)).2.1 hround, hlength⟩

end AnomalyServer

end Chimbuko
