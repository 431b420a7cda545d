import Chimbuko.Pserver.NetPayloadRecvCombinedADdata
import Mathlib.Algebra.BigOperators.Group.Finset.Piecewise
import Mathlib.Algebra.BigOperators.Pi

/-!
# The final statistics of the server

Messages are spread over the workers, each of which adds them to objects of its own. At the end of
the run these objects are summed up. The sums are made from all messages, however they were spread
and in whatever order they came, so they hold what a single worker would hold.
-/

namespace Chimbuko

open KeyedMap

namespace PSmoduleDataManager

/-- A worker receives a message. -/
def receive (workers : ℕ → NetWorkerStats) (p : ℕ × ADcombinedPSdataArray) :
    Except String (ℕ → NetWorkerStats) := do
  let w ← (workers p.1).action p.2
  pure (Function.update workers p.1 w)

/-- The workers receive messages in some order. -/
def receiveAll (schedule : List (ℕ × ADcombinedPSdataArray)) :
    Except String (ℕ → NetWorkerStats) :=
  schedule.foldlM receive fun _ => NetWorkerStats.new

/-- The statistics that are sent to the provenance database. -/
structure FinalStats where
  counterStats : GlobalCounterStats
  anomStats : GlobalAnomalyStats
  anomMetrics : GlobalAnomalyMetrics

/-- Sum up the objects of `nt` workers. -/
def sumWorkers (nt : ℕ) (workers : ℕ → NetWorkerStats) : Except String FinalStats := do
  let tmpCstats ← (List.range nt).foldlM (fun tmp i => tmp.plus (workers i).counterStats)
    GlobalCounterStats.new
  let tmpFstats ← (List.range nt).foldlM (fun tmp i => tmp.plus (workers i).anomStats)
    GlobalAnomalyStats.new
  let tmpMetrics ← (List.range nt).foldlM (fun tmp i => tmp.plus (workers i).anomMetrics)
    GlobalAnomalyMetrics.new
  pure { counterStats := tmpCstats, anomStats := tmpFstats, anomMetrics := tmpMetrics }

/-- The final statistics of a run with `nt` workers. -/
def finalStats (nt : ℕ) (schedule : List (ℕ × ADcombinedPSdataArray)) :
    Except String FinalStats := do
  let workers ← receiveAll schedule
  sumWorkers nt workers

/-- The same keys and the same statistics. -/
structure SameStats (a b : FinalStats) : Prop where
  counterStats : Matches (Matches Eq) a.counterStats.counterStats b.counterStats.counterStats
  funcstats : Matches Eq a.anomStats.funcstats b.anomStats.funcstats
  anomalyStats : Matches (fun x y => x.stats = y.stats) a.anomStats.anomalyStats
    b.anomStats.anomalyStats
  anomMetrics : Matches (Matches (Matches Eq)) a.anomMetrics.full b.anomMetrics.full

/-- What the messages of a worker add. -/
def share (schedule : List (ℕ × ADcombinedPSdataArray)) (w : ℕ) : StatsAmounts :=
  (schedule.map fun p => if p.1 = w then p.2.amount else 0).sum

variable {funcName : ℕ → String} {metricName : ℤ → String}

/-- Every worker's objects are made from its messages. -/
theorem receiveAll_ok (schedule : List (ℕ × ADcombinedPSdataArray))
    (h : ∀ p ∈ schedule, p.2.WellFormed funcName metricName) :
    ∃ workers, receiveAll schedule = .ok workers ∧
      ∀ w, (workers w).Totals funcName metricName (share schedule w) := by
  have hfold : ∀ (schedule : List (ℕ × ADcombinedPSdataArray)),
      (∀ p ∈ schedule, p.2.WellFormed funcName metricName) →
      ∀ (workers : ℕ → NetWorkerStats) (t : ℕ → StatsAmounts),
        (∀ w, (workers w).Totals funcName metricName (t w)) →
        ∃ workers', schedule.foldlM receive workers = .ok workers' ∧
          ∀ w, (workers' w).Totals funcName metricName (t w + share schedule w) := by
    intro schedule
    induction schedule with
    | nil =>
      intro _ workers t ht
      exact ⟨workers, rfl, by simpa [share] using ht⟩
    | cons p rest ih =>
      intro hschedule workers t ht
      obtain ⟨w, hw, htotals⟩ := (ht p.1).action (hschedule p List.mem_cons_self)
      obtain ⟨workers', hrun, hall⟩ := ih
        (fun q hq => hschedule q (List.mem_cons_of_mem _ hq)) (Function.update workers p.1 w)
        (fun v => t v + if p.1 = v then p.2.amount else 0) (by
          intro v
          by_cases hv : v = p.1
          · subst hv
            simpa using htotals
          · simpa [hv, Ne.symm hv] using ht v)
      refine ⟨workers', ?_, ?_⟩
      · have hreceive : receive workers p = .ok (Function.update workers p.1 w) := by
          unfold receive
          simp only [hw]
          rfl
        rw [List.foldlM_cons, hreceive]
        exact hrun
      · intro v
        have hv := hall v
        rwa [add_assoc] at hv
  obtain ⟨workers, hrun, hall⟩ := hfold schedule h (fun _ => NetWorkerStats.new) (fun _ => 0)
    fun _ => NetWorkerStats.totals_new
  exact ⟨workers, hrun, by simpa using hall⟩

/-- Adding up objects, one after the other, adds up what they are made from. -/
theorem foldlM_plus_ok {A C : Type} [AddCommMonoid C] {Holds : A → C → Prop}
    {plus : A → A → Except String A}
    (hplus : ∀ a b c d, Holds a c → Holds b d → ∃ t, plus a b = .ok t ∧ Holds t (c + d))
    (start : A) (hstart : Holds start 0) {f : ℕ → A} {c : ℕ → C} (hf : ∀ i, Holds (f i) (c i))
    (nt : ℕ) :
    ∃ t, (List.range nt).foldlM (fun tmp i => plus tmp (f i)) start = .ok t ∧
      Holds t (∑ i ∈ Finset.range nt, c i) := by
  induction nt with
  | zero => exact ⟨start, rfl, by simpa using hstart⟩
  | succ nt ih =>
    obtain ⟨t, hrun, ht⟩ := ih
    obtain ⟨u, hu, hholds⟩ := hplus t (f nt) _ _ ht (hf nt)
    refine ⟨u, ?_, ?_⟩
    · rw [List.range_succ, List.foldlM_append, hrun]
      simp only [List.foldlM_cons, List.foldlM_nil, bind, Except.bind, hu]
      rfl
    · rw [Finset.sum_range_succ]
      exact hholds

/-- The final statistics are made from given data. -/
structure FinalStats.Totals (funcName : ℕ → String) (metricName : ℤ → String) (s : FinalStats)
    (t : StatsAmounts) : Prop where
  anomStats : GlobalAnomalyStats.Totals funcName s.anomStats t.1 t.2.1
  counterStats : s.counterStats.Holds t.2.2.1
  anomMetrics : GlobalAnomalyMetrics.Totals metricName s.anomMetrics.full t.2.2.2

/-- Summing up the workers' objects sums up their data. -/
theorem sumWorkers_ok (nt : ℕ) {workers : ℕ → NetWorkerStats} {t : ℕ → StatsAmounts}
    (h : ∀ w, (workers w).Totals funcName metricName (t w)) :
    ∃ s, sumWorkers nt workers = .ok s ∧
      s.Totals funcName metricName (∑ w ∈ Finset.range nt, t w) := by
  obtain ⟨cstats, hc, hcounters⟩ := foldlM_plus_ok
    (fun _ _ _ _ ha hb => GlobalCounterStats.Holds.plus ha hb) GlobalCounterStats.new
    GlobalCounterStats.holds_new (fun i => (h i).counterStats) nt
  have hfplus : ∀ (a b : GlobalAnomalyStats)
      (c d : GlobalAnomalyStats.FuncAmounts × GlobalAnomalyStats.AnomalyAmounts),
      GlobalAnomalyStats.Totals funcName a c.1 c.2 → GlobalAnomalyStats.Totals funcName b d.1 d.2 →
      ∃ t, a.plus b = .ok t ∧ GlobalAnomalyStats.Totals funcName t (c + d).1 (c + d).2 :=
    fun a b c d ha hb => ha.plus hb
  obtain ⟨fstats, hf, hfuncs⟩ := foldlM_plus_ok hfplus GlobalAnomalyStats.new
    (GlobalAnomalyStats.totals_new funcName) (c := fun i => ((t i).1, (t i).2.1))
    (fun i => (h i).anomStats) nt
  have hmplus : ∀ (a b : GlobalAnomalyMetrics) (c d : GlobalAnomalyMetrics.Amounts),
      GlobalAnomalyMetrics.Totals metricName a.full c ∧
        GlobalAnomalyMetrics.Totals metricName a.recent c →
      GlobalAnomalyMetrics.Totals metricName b.full d ∧
        GlobalAnomalyMetrics.Totals metricName b.recent d →
      ∃ t, a.plus b = .ok t ∧ GlobalAnomalyMetrics.Totals metricName t.full (c + d) ∧
        GlobalAnomalyMetrics.Totals metricName t.recent (c + d) := by
    intro a b c d ha hb
    obtain ⟨full, hfull, hfullTotals⟩ := ha.1.plusEquals hb.1
    obtain ⟨recent, hrecent, hrecentTotals⟩ := ha.2.plusEquals hb.2
    refine ⟨{ full := full, recent := recent }, ?_, hfullTotals, hrecentTotals⟩
    unfold GlobalAnomalyMetrics.plus
    simp only [hfull, hrecent]
    rfl
  obtain ⟨metrics, hm, hmetrics⟩ := foldlM_plus_ok hmplus
    GlobalAnomalyMetrics.new ⟨mapAccounts_empty, mapAccounts_empty⟩
    (fun i => ⟨(h i).full, (h i).recent⟩) nt
  refine ⟨{ counterStats := cstats, anomStats := fstats, anomMetrics := metrics }, ?_, ?_⟩
  · unfold sumWorkers
    simp only [hc, hf, hm]
    rfl
  constructor
  · rw [Prod.fst_sum] at hfuncs
    rw [Prod.snd_sum] at hfuncs
    rw [Prod.fst_sum, Prod.snd_sum, Prod.fst_sum]
    exact hfuncs
  · rw [Prod.snd_sum, Prod.snd_sum, Prod.fst_sum]
    exact hcounters
  · rw [Prod.snd_sum, Prod.snd_sum, Prod.snd_sum]
    exact hmetrics.1

/-- All messages are some worker's. -/
theorem sum_share {nt : ℕ} {schedule : List (ℕ × ADcombinedPSdataArray)}
    (h : ∀ p ∈ schedule, p.1 < nt) : ∑ w ∈ Finset.range nt, share schedule w =
      (schedule.map fun p => p.2.amount).sum := by
  induction schedule with
  | nil => simp [share]
  | cons p rest ih =>
    have hp : p.1 ∈ Finset.range nt := Finset.mem_range.mpr (h p List.mem_cons_self)
    have hshare : ∀ w, share (p :: rest) w =
        (if p.1 = w then p.2.amount else 0) + share rest w := fun _ => rfl
    rw [Finset.sum_congr rfl fun w _ => hshare w, Finset.sum_add_distrib, Finset.sum_ite_eq,
      if_pos hp, ih fun q hq => h q (List.mem_cons_of_mem _ hq)]
    rfl

/-- The final statistics are made from all messages. -/
theorem finalStats_ok (nt : ℕ) (schedule : List (ℕ × ADcombinedPSdataArray))
    (hworkers : ∀ p ∈ schedule, p.1 < nt)
    (hmessages : ∀ p ∈ schedule, p.2.WellFormed funcName metricName) :
    ∃ s, finalStats nt schedule = .ok s ∧
      s.Totals funcName metricName (schedule.map fun p => p.2.amount).sum := by
  obtain ⟨workers, hrun, htotals⟩ := receiveAll_ok schedule hmessages
  obtain ⟨s, hs, hsum⟩ := sumWorkers_ok nt htotals
  rw [sum_share hworkers] at hsum
  refine ⟨s, ?_, hsum⟩
  unfold finalStats
  simp only [hrun, bind, Except.bind]
  exact hs

/-- Final statistics are determined by the data that they are made from. -/
theorem FinalStats.Totals.same {s s' : FinalStats} {t : StatsAmounts}
    (h : s.Totals funcName metricName t) (h' : s'.Totals funcName metricName t) :
    SameStats s s' := by
  constructor
  · exact h.counterStats.matches h'.counterStats
  · exact h.anomStats.funcstats.matches (fun _ _ _ _ ha hb => ha.unique hb) h'.anomStats.funcstats
  · exact h.anomStats.anomalyStats.matches (fun _ _ _ _ ha hb => ha.1.unique hb.1)
      h'.anomStats.anomalyStats
  · exact h.anomMetrics.matches h'.anomMetrics

/-- The final statistics of messages that are spread over some workers in any way are those of a
single worker that received the same messages in any order, if the messages are well formed and
the names of every function index agree. -/
theorem finalStats_independent (funcName : ℕ → String) (metricName : ℤ → String) (nt : ℕ)
    (schedule : List (ℕ × ADcombinedPSdataArray)) (messages : List ADcombinedPSdataArray)
    (hworkers : ∀ p ∈ schedule, p.1 < nt) (hperm : messages.Perm (schedule.map Prod.snd))
    (hmessages : ∀ m ∈ messages, m.WellFormed funcName metricName) :
    ∃ many one, finalStats nt schedule = .ok many ∧
      finalStats 1 (messages.map fun m => (0, m)) = .ok one ∧ SameStats many one := by
  obtain ⟨many, hmany, hmanyTotals⟩ := finalStats_ok nt schedule hworkers fun p hp =>
    hmessages p.2 (hperm.mem_iff.mpr (List.mem_map_of_mem hp))
  obtain ⟨one, hone, honeTotals⟩ := finalStats_ok 1 (messages.map fun m => (0, m))
    (by simp) (by simpa using hmessages)
  refine ⟨many, one, hmany, hone, ?_⟩
  have hsum : (schedule.map fun p => p.2.amount).sum =
      ((messages.map fun m => ((0 : ℕ), m)).map fun p => p.2.amount).sum := by
    have hmap := (hperm.map ADcombinedPSdataArray.amount).sum_eq
    simp only [List.map_map, Function.comp_def] at hmap ⊢
    exact hmap.symm
  rw [hsum] at hmanyTotals
  exact hmanyTotals.same honeTotals

/-- One call of one function, with a counter and an anomaly. -/
def oneCall (rank : ℕ) (runtime : ℚ) : ADcombinedPSdataArray :=
  let calls := (RunStats.new false).push runtime
  { funcStats := [{
      anomData := { app := 0, rank := rank, step := 0, minTimestamp := 100, maxTimestamp := 200
                    nAnomalies := 1, outlierScores := (RunStats.new true).push 2 }
      funcStats := AList.singleton 7 { pid := 0, id := 7, name := "solve", nAnomaly := 1
                                       inclusive := calls, exclusive := calls } }]
    counterStats := [{ programIdx := 0, stats := AList.singleton "memory" calls }]
    anomMetrics := [{
      app := 0, rank := rank, step := 0, firstEventTs := 100, lastEventTs := 200
      metrics := AList.singleton 7
        { score := (RunStats.new true).push 2, severity := (RunStats.new true).push runtime
          count := 1, fid := 7, func := "solve"
          sampled := ⟨RunStats.sampled_push true 2, RunStats.sampled_push true runtime⟩ }
      fid_eq := by
        intro fid f hf
        have hmem := AList.mem_lookup_iff.mp hf
        rw [AList.singleton_entries, List.mem_singleton] at hmem
        cases hmem
        rfl }] }

/-- The data of one call are well formed. -/
theorem wellFormed_oneCall (rank : ℕ) (runtime : ℚ) :
    (oneCall rank runtime).WellFormed (fun _ => "solve") fun _ => "solve" := by
  constructor
  · rfl
  · rfl
  · intro data hdata f hf
    rw [List.mem_singleton.mp hdata] at hf
    rw [List.mem_singleton.mp hf]
    exact ⟨rfl, RunStats.sampled_push false runtime, RunStats.sampled_push false runtime⟩
  · intro loc hloc name stats hstats
    rw [List.mem_singleton.mp hloc] at hstats
    have hmem := AList.mem_lookup_iff.mp hstats
    rw [AList.singleton_entries, List.mem_singleton] at hmem
    cases hmem
    exact RunStats.sampled_push false runtime
  · intro data hdata fid f hf
    rw [List.mem_singleton.mp hdata] at hf
    have hmem := AList.mem_lookup_iff.mp hf
    rw [AList.singleton_entries, List.mem_singleton] at hmem
    cases hmem
    rfl

/-- Two ranks with the same function, on two workers and on one. -/
theorem finalStats_independent_oneCall : ∃ many one,
    finalStats 2 [(1, oneCall 0 30), (0, oneCall 1 20)] = .ok many ∧
      finalStats 1 [(0, oneCall 1 20), (0, oneCall 0 30)] = .ok one ∧ SameStats many one :=
  finalStats_independent (fun _ => "solve") (fun _ => "solve") 2
    [(1, oneCall 0 30), (0, oneCall 1 20)] [oneCall 1 20, oneCall 0 30] (by simp)
    (List.Perm.swap _ _ _) (by simp [wellFormed_oneCall])

end PSmoduleDataManager

end Chimbuko
