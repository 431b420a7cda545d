import Chimbuko.Pserver.GlobalAnomalyMetricsRuns
import Chimbuko.Pserver.GlobalAnomalyStatsRuns
import Chimbuko.Pserver.NetPayloadRecvCombinedADdata

/-!
# Names of functions

Profiles and metrics of one function index can be combined only if they are kept under one name.
The names come with the data. As long as the data that arrive agree on the name of every index, so
do the objects of all workers and of the round under way, and no merge of a round fails.
-/

namespace Chimbuko

open KeyedMap

namespace GlobalAnomalyStats

/-- Profiles are kept under their program and function index, with the name of the index. -/
def NamedBy (funcName : ℕ → String) (g : GlobalAnomalyStats) : Prop :=
  ∀ key a, g.funcstats.lookup key = some a →
    a.pid = key.1 ∧ a.fid = toInt key.2 ∧ a.func = funcName key.2

variable {funcName : ℕ → String}

/-- New statistics have no names. -/
theorem namedBy_new : new.NamedBy funcName := by
  intro key a h
  rw [new, AList.lookup_empty] at h
  cases h

/-- Including a profile under the name of its index. -/
theorem NamedBy.updateFuncStat {g : GlobalAnomalyStats} (h : g.NamedBy funcName) {f : FuncStats}
    (hf : f.name = funcName f.id) : (g.updateFuncStat f).NamedBy funcName := by
  intro key a ha
  unfold GlobalAnomalyStats.updateFuncStat at ha
  by_cases hkey : key = (toInt f.pid, f.id)
  · subst hkey
    rw [AList.lookup_insert] at ha
    cases ha
    cases hold : g.funcstats.lookup (toInt f.pid, f.id) with
    | none => exact ⟨rfl, rfl, hf⟩
    | some old => exact h _ old hold
  · rw [AList.lookup_insert_ne hkey] at ha
    exact h key a ha

/-- Profiles under the same names are merged without error. -/
theorem NamedBy.mergeFuncstats {g r : GlobalAnomalyStats} (h : g.NamedBy funcName)
    (h' : r.NamedBy funcName) :
    ∃ t, g.mergeFuncstats r = .ok t ∧ t.NamedBy funcName := by
  have hplus : ∀ key a b, g.funcstats.lookup key = some a → r.funcstats.lookup key = some b →
      ∃ u, a.plus b = .ok u ∧ u.pid = a.pid ∧ u.fid = a.fid ∧ u.func = a.func := by
    intro key a b ha hb
    obtain ⟨hpid, hfid, hfunc⟩ := h key a ha
    obtain ⟨hpid', hfid', hfunc'⟩ := h' key b hb
    unfold AggregateFuncStats.plus
    rw [if_neg (by simp [hpid, hfid, hfunc, hpid', hfid', hfunc'])]
    exact ⟨_, rfl, rfl, rfl, rfl⟩
  have hmerge : upsertAll (plusEquals AggregateFuncStats.plus) g.funcstats r.funcstats =
      merge AggregateFuncStats.plus g.funcstats r.funcstats := by
    unfold merge
    congr 1
  have hok : ∃ funcstats, merge AggregateFuncStats.plus g.funcstats r.funcstats =
      .ok funcstats := by
    apply merge_ok
    intro key a b ha hb
    obtain ⟨u, hu, -⟩ := hplus key a b ha hb
    rw [hu]
    rfl
  obtain ⟨funcstats, hrun⟩ := hok
  refine ⟨{ g with funcstats := funcstats }, ?_, ?_⟩
  · unfold GlobalAnomalyStats.mergeFuncstats
    rw [hmerge, hrun]
    rfl
  intro key u hu
  change funcstats.lookup key = some u at hu
  have hcombined := combined_merge hrun key
  rw [hu] at hcombined
  cases hold : g.funcstats.lookup key with
  | none =>
    rw [hold] at hcombined
    cases hnew : r.funcstats.lookup key with
    | none =>
      rw [hnew] at hcombined
      cases hcombined
    | some b =>
      rw [hnew] at hcombined
      cases hcombined
      exact h' key _ hnew
  | some a =>
    rw [hold] at hcombined
    cases hnew : r.funcstats.lookup key with
    | none =>
      rw [hnew] at hcombined
      cases hcombined
      exact h key _ hold
    | some b =>
      rw [hnew] at hcombined
      obtain ⟨u', hu', hpid, hfid, hfunc⟩ := hplus key a b hold hnew
      cases hcombined with
      | both hrun =>
        rw [hu'] at hrun
        cases hrun
        obtain ⟨hpid', hfid', hfunc'⟩ := h key a hold
        exact ⟨hpid.trans hpid', hfid.trans hfid', hfunc.trans hfunc'⟩

/-- The anomaly data do not matter for the names. -/
theorem NamedBy.congr {g r : GlobalAnomalyStats} (h : g.NamedBy funcName)
    (heq : r.funcstats = g.funcstats) : r.NamedBy funcName := by
  intro key a ha
  rw [heq] at ha
  exact h key a ha

end GlobalAnomalyStats

namespace AnomalyServer

/-- The profile of a function comes under the name of its index. -/
def NamedAction (funcName : ℕ → String) : AnomalyServerAction → Prop
  | .updateFuncStat _ f => f.name = funcName f.id
  | _ => True

instance (funcName : ℕ → String) (a : AnomalyServerAction) :
    Decidable (NamedAction funcName a) := by
  cases a <;> unfold NamedAction <;> infer_instance

/-- The names in the temporary object of a round. -/
def SenderNamed (funcName : ℕ → String) : CombineSender → Prop
  | .idle => True
  | .anomaly _ comb => comb.NamedBy funcName
  | .func _ comb => comb.NamedBy funcName

/-- All objects agree on the names. -/
structure Named (funcName : ℕ → String) (s : AnomalyServer) : Prop where
  worker : ∀ w, (s.worker w).stats.NamedBy funcName
  sender : SenderNamed funcName s.sender

variable {funcName : ℕ → String} {n : ℕ}

/-- At the start there are no names. -/
theorem named_start : start.Named funcName :=
  ⟨fun _ => GlobalAnomalyStats.namedBy_new, trivial⟩

/-- Replacing a worker's object by one with the same names. -/
theorem Named.setWorker {s : AnomalyServer} (hs : s.Named funcName) (w : ℕ) {x : StatsWorker}
    (hx : x.stats.NamedBy funcName) : (s.setWorker w x).Named funcName :=
  ⟨forall_setWorker (P := fun x _ => x.stats.NamedBy funcName) hx hs.worker, hs.sender⟩

/-- Merging a worker's anomaly data succeeds, and leaves all names. -/
theorem Named.mergeWorker {s : AnomalyServer} (hs : s.Named funcName) (hholds : s.Holds n)
    {next : ℕ} {comb : GlobalAnomalyStats} (hsender : s.sender = .anomaly next comb) :
    ∃ t, s.mergeWorker next comb = .ok t ∧ t.Named funcName := by
  have hcomb : comb.NamedBy funcName := by
    have h := hs.sender
    rwa [hsender] at h
  have hcombHolds : CombHolds n s next comb := by
    have h := hholds.sender
    rwa [hsender] at h
  obtain ⟨comb', stats, hmerge, -, -, -, -, hcomb', hstats⟩ :=
    hcombHolds.holds.mergeAnomalyStats (hholds.worker next)
  have hworker := hs.setWorker next
    (x := ⟨stats, (s.worker next).collected, (s.worker next).merged ++ (s.worker next).pending, []⟩)
    ((hs.worker next).congr hstats)
  refine ⟨{ s.setWorker next ⟨stats, (s.worker next).collected,
      (s.worker next).merged ++ (s.worker next).pending, []⟩ with
    sender := .func next comb'
    seen := s.seen ++ (s.worker next).received }, ?_, hworker.worker, hcomb.congr hcomb'⟩
  rw [AnomalyServer.mergeWorker, hmerge]
  rfl

/-- Every step keeps the names, and the sender's steps fail only where it is not their turn. -/
theorem Named.exec {s : AnomalyServer} (hs : s.Named funcName) (hholds : s.Holds n)
    {a : AnomalyServerAction} (ha : NamedAction funcName a) :
    (∃ t, AnomalyServer.exec n s a = .ok t ∧ t.Named funcName) ∨
      ∃ e, AnomalyServer.exec n s a = .error e ∧ (a.ofWorker = false → e = "out of turn") := by
  cases a with
  | updateAnomalyStat w anom =>
    simp only [AnomalyServer.exec]
    split
    · exact Or.inl ⟨_, rfl, hs.setWorker w ((hs.worker w).congr rfl)⟩
    · exact Or.inr ⟨_, rfl, fun hw => by cases hw⟩
  | updateFuncStat w f =>
    simp only [AnomalyServer.exec]
    split
    · exact Or.inl ⟨_, rfl, hs.setWorker w ((hs.worker w).updateFuncStat ha)⟩
    · exact Or.inr ⟨_, rfl, fun hw => by cases hw⟩
  | startRound =>
    simp only [AnomalyServer.exec]
    split
    · exact Or.inl ⟨_, rfl, hs.worker, GlobalAnomalyStats.namedBy_new⟩
    · exact Or.inr ⟨_, rfl, fun _ => rfl⟩
  | mergeAnomalyStats =>
    simp only [AnomalyServer.exec]
    split
    · rename_i next comb hsender
      split
      · exact Or.inl (hs.mergeWorker hholds hsender)
      · exact Or.inr ⟨_, rfl, fun _ => rfl⟩
    · exact Or.inr ⟨_, rfl, fun _ => rfl⟩
  | mergeFuncstats =>
    simp only [AnomalyServer.exec]
    split
    · rename_i next comb hsender
      have hcomb : comb.NamedBy funcName := by
        have h := hs.sender
        rwa [hsender] at h
      obtain ⟨comb', hmerge, hcomb'⟩ := hcomb.mergeFuncstats (hs.worker next)
      rw [hmerge]
      exact Or.inl ⟨_, rfl, hs.worker, hcomb'⟩
    · exact Or.inr ⟨_, rfl, fun _ => rfl⟩
  | collect =>
    simp only [AnomalyServer.exec]
    split
    · split
      · exact Or.inl ⟨_, rfl, hs.worker, trivial⟩
      · exact Or.inr ⟨_, rfl, fun _ => rfl⟩
    · exact Or.inr ⟨_, rfl, fun _ => rfl⟩

end AnomalyServer

namespace MetricsServer

/-- The metrics of every function come under the name of its index. -/
def NamedData (metricName : ℤ → String) (data : ADLocalAnomalyMetrics) : Prop :=
  ∀ e ∈ data.metrics.entries, e.2.func = metricName e.1

instance (metricName : ℤ → String) (data : ADLocalAnomalyMetrics) :
    Decidable (NamedData metricName data) :=
  inferInstanceAs (Decidable (∀ e ∈ data.metrics.entries, e.2.func = metricName e.1))

/-- Metrics that are added have the names of their functions. -/
def NamedAction (metricName : ℤ → String) : MetricsServerAction → Prop
  | .addFull _ data => NamedData metricName data
  | _ => True

instance (metricName : ℤ → String) (a : MetricsServerAction) :
    Decidable (NamedAction metricName a) := by
  cases a <;> unfold NamedAction <;> infer_instance

/-- The metrics of a map are kept under the name of their index. -/
def MapNamed (metricName : ℤ → String) (m : AnomalyMetricsMap) : Prop :=
  ∃ c, GlobalAnomalyMetrics.Totals metricName m c

/-- The names in the temporary object of a round. -/
def SenderNamed (metricName : ℤ → String) : MetricsSender → Prop
  | .idle => True
  | .merging _ comb => MapNamed metricName comb.full ∧ MapNamed metricName comb.recent

/-- All objects agree on the names, with the data that are on their way. -/
structure Named (metricName : ℤ → String) (s : MetricsServer) : Prop where
  full : ∀ w, MapNamed metricName (s.worker w).metrics.full
  recent : ∀ w, MapNamed metricName (s.worker w).metrics.recent
  adding : ∀ w, ∀ data ∈ (s.worker w).adding, NamedData metricName data
  sender : SenderNamed metricName s.sender

variable {metricName : ℤ → String} {n : ℕ}

/-- An empty map has no names. -/
theorem mapNamed_empty : MapNamed metricName ∅ := ⟨0, mapAccounts_empty⟩

/-- At the start there are no names. -/
theorem named_start : start.Named metricName := by
  constructor
  · exact fun _ => mapNamed_empty
  · exact fun _ => mapNamed_empty
  · intro w data hdata
    cases hdata
  · trivial

/-- Metrics that are added have the names of their functions. -/
theorem MapNamed.addInto {m : AnomalyMetricsMap} (h : MapNamed metricName m)
    {data : ADLocalAnomalyMetrics} (hdata : NamedData metricName data) :
    ∃ m', GlobalAnomalyMetrics.addInto m data = .ok m' ∧ MapNamed metricName m' := by
  obtain ⟨c, hc⟩ := h
  obtain ⟨m', hm', hc'⟩ := hc.addInto data
    fun fid f hf => hdata ⟨fid, f⟩ (AList.mem_lookup_iff.mp hf)
  exact ⟨m', hm', _, hc'⟩

/-- Maps that agree on names are added without an error. -/
theorem MapNamed.plusEquals {m m' : AnomalyMetricsMap} (h : MapNamed metricName m)
    (h' : MapNamed metricName m') :
    ∃ r, GlobalAnomalyMetrics.plusEquals m m' = .ok r ∧ MapNamed metricName r := by
  obtain ⟨c, hc⟩ := h
  obtain ⟨c', hc'⟩ := h'
  obtain ⟨r, hr, hcr⟩ := hc.plusEquals hc'
  exact ⟨r, hr, _, hcr⟩

/-- Adding data to the totals. -/
theorem Named.addFull {s : MetricsServer} (hs : s.Named metricName) (w : ℕ)
    {data : ADLocalAnomalyMetrics} (hdata : NamedData metricName data) :
    ∃ t, s.addFull w data = .ok t ∧ t.Named metricName := by
  obtain ⟨full, hrun, hfull⟩ := (hs.full w).addInto hdata
  refine ⟨{ s with
    worker := Function.update s.worker w
      ⟨{ (s.worker w).metrics with full := full }, (s.worker w).adding ++ [data]⟩
    counted := Function.update s.counted w (s.counted w + data.contributions) }, ?_, ?_⟩
  · unfold MetricsServer.addFull GlobalAnomalyMetrics.addFull
    simp only [hrun]
    rfl
  constructor
  · intro v
    by_cases hv : v = w
    · subst hv
      simpa using hfull
    · simpa [hv] using hs.full v
  · intro v
    by_cases hv : v = w
    · subst hv
      simpa using hs.recent v
    · simpa [hv] using hs.recent v
  · intro v d hd
    by_cases hv : v = w
    · subst hv
      simp only [Function.update_self, List.mem_append, List.mem_singleton] at hd
      rcases hd with hold | rfl
      · exact hs.adding v d hold
      · exact hdata
    · simp only [Function.update_of_ne hv] at hd
      exact hs.adding v d hd
  · exact hs.sender

/-- Data on their way are added to the recent metrics. -/
theorem Named.addRecent {s : MetricsServer} (hs : s.Named metricName) {w index : ℕ}
    {data : ADLocalAnomalyMetrics} (hdata : (s.worker w).adding[index]? = some data) :
    ∃ t, s.addRecent w index data = .ok t ∧ t.Named metricName := by
  have hnamed := hs.adding w data (List.mem_of_getElem? hdata)
  obtain ⟨recent, hrun, hrecent⟩ := (hs.recent w).addInto hnamed
  refine ⟨{ s with
    worker := Function.update s.worker w
      ⟨{ (s.worker w).metrics with recent := recent }, (s.worker w).adding.eraseIdx index⟩
    ledger := s.ledger.arrive w data.contributions }, ?_, ?_⟩
  · unfold MetricsServer.addRecent GlobalAnomalyMetrics.addRecent
    simp only [hrun]
    rfl
  constructor
  · intro v
    by_cases hv : v = w
    · subst hv
      simpa using hs.full v
    · simpa [hv] using hs.full v
  · intro v
    by_cases hv : v = w
    · subst hv
      simpa using hrecent
    · simpa [hv] using hs.recent v
  · intro v d hd
    by_cases hv : v = w
    · subst hv
      simp only [Function.update_self] at hd
      exact hs.adding v d (List.mem_of_mem_eraseIdx hd)
    · simp only [Function.update_of_ne hv] at hd
      exact hs.adding v d hd
  · exact hs.sender

/-- Merging a worker succeeds. -/
theorem Named.mergeWorker {s : MetricsServer} (hs : s.Named metricName) {next : ℕ}
    {comb : GlobalAnomalyMetrics} (hsender : s.sender = .merging next comb) :
    ∃ t, s.mergeWorker next comb = .ok t ∧ t.Named metricName := by
  have hcomb := hs.sender
  rw [hsender] at hcomb
  obtain ⟨full, hfullRun, hfull⟩ := hcomb.1.plusEquals (hs.full next)
  obtain ⟨recent, hrecentRun, hrecent⟩ := hcomb.2.plusEquals (hs.recent next)
  refine ⟨{ s with
    worker := Function.update s.worker next
      ⟨{ (s.worker next).metrics with recent := ∅ }, (s.worker next).adding⟩
    sender := .merging (next + 1) { full := full, recent := recent }
    ledger := s.ledger.visit next
    seen := s.seen + s.counted next }, ?_, ?_⟩
  · unfold MetricsServer.mergeWorker GlobalAnomalyMetrics.mergeAndFlush GlobalAnomalyMetrics.plus
    simp only [hfullRun, hrecentRun]
    rfl
  constructor
  · intro v
    by_cases hv : v = next
    · subst hv
      simpa using hs.full v
    · simpa [hv] using hs.full v
  · intro v
    by_cases hv : v = next
    · subst hv
      simpa using mapNamed_empty
    · simpa [hv] using hs.recent v
  · intro v d hd
    by_cases hv : v = next
    · subst hv
      simp only [Function.update_self] at hd
      exact hs.adding v d hd
    · simp only [Function.update_of_ne hv] at hd
      exact hs.adding v d hd
  · exact ⟨hfull, hrecent⟩

/-- Sending a message leaves the workers as they are. -/
theorem Named.sendMessage {s t : MetricsServer} (hs : s.Named metricName)
    {comb : GlobalAnomalyMetrics} (h : s.sendMessage n comb = .ok t) : t.Named metricName := by
  unfold MetricsServer.sendMessage at h
  cases hjson : comb.getJson s.nextId with
  | error e =>
    rw [hjson] at h
    cases h
  | ok report =>
    rw [hjson] at h
    cases h
    exact ⟨hs.full, hs.recent, hs.adding, trivial⟩

/-- Every step keeps the names, and the sender's steps fail only where it is not their turn. -/
theorem Named.exec {s : MetricsServer} (hs : s.Named metricName) (hholds : s.Holds n)
    {a : MetricsServerAction} (ha : NamedAction metricName a) :
    (∃ t, MetricsServer.exec n s a = .ok t ∧ t.Named metricName) ∨
      ∃ e, MetricsServer.exec n s a = .error e ∧ (a.ofWorker = false → e = "out of turn") := by
  cases a with
  | addFull w data =>
    simp only [MetricsServer.exec]
    split
    · exact Or.inl (hs.addFull w ha)
    · exact Or.inr ⟨_, rfl, fun hw => by cases hw⟩
  | addRecent w index =>
    simp only [MetricsServer.exec]
    split
    · split
      · rename_i data hdata
        exact Or.inl (hs.addRecent hdata)
      · exact Or.inr ⟨_, rfl, fun hw => by cases hw⟩
    · exact Or.inr ⟨_, rfl, fun hw => by cases hw⟩
  | startRound =>
    simp only [MetricsServer.exec]
    split
    · exact Or.inl ⟨_, rfl, hs.full, hs.recent, hs.adding, mapNamed_empty, mapNamed_empty⟩
    · exact Or.inr ⟨_, rfl, fun _ => rfl⟩
  | mergeAndFlush =>
    simp only [MetricsServer.exec]
    split
    · rename_i next comb hsender
      split
      · exact Or.inl (hs.mergeWorker hsender)
      · exact Or.inr ⟨_, rfl, fun _ => rfl⟩
    · exact Or.inr ⟨_, rfl, fun _ => rfl⟩
  | getJson =>
    simp only [MetricsServer.exec]
    split
    · rename_i next comb hsender
      split
      · rename_i hnext
        obtain ⟨t, ht, -⟩ := hholds.sendMessage (hnext ▸ hsender)
        exact Or.inl ⟨t, ht, hs.sendMessage ht⟩
      · exact Or.inr ⟨_, rfl, fun _ => rfl⟩
    · exact Or.inr ⟨_, rfl, fun _ => rfl⟩

end MetricsServer

end Chimbuko
