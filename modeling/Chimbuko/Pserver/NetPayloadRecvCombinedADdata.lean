import Chimbuko.Pserver.GlobalAnomalyMetrics
import Chimbuko.Pserver.GlobalAnomalyStats
import Chimbuko.Pserver.GlobalCounterStats

/-!
# The combined data of a rank

A rank sends function statistics, counter statistics and anomaly metrics of some steps together,
and the worker that receives them adds them to its own objects.

A worker's objects account for the data that were added to them. For functions this supposes that
the names of one function index agree, without which objects of different workers cannot be
combined.
-/

namespace Chimbuko

open KeyedMap

attribute [ext] AggregateFuncStats AggregateFuncAnomalyMetrics

/-- The data of some steps of a rank. -/
structure ADcombinedPSdataArray where
  funcStats : List ADLocalFuncStatistics
  counterStats : List ADLocalCounterStatistics
  anomMetrics : List ADLocalAnomalyMetrics

/-- The objects of one worker. -/
structure NetWorkerStats where
  anomStats : GlobalAnomalyStats
  counterStats : GlobalCounterStats
  anomMetrics : GlobalAnomalyMetrics

namespace GlobalAnomalyStats

/-- Include the function statistics of a step. -/
def addLocal (self : GlobalAnomalyStats) (data : ADLocalFuncStatistics) : GlobalAnomalyStats :=
  self.addAnomalyData data.anomData (values data.funcStats)

/-- The profile of a function is made from some statistics of its steps, all under its name. -/
structure Profiles (funcName : ℕ → String) (key : ℤ × ℕ) (a : AggregateFuncStats)
    (fs : Multiset FuncStats) : Prop where
  pid : a.pid = key.1
  fid : a.fid = toInt key.2
  func : a.func = funcName key.2
  funcAnomaly : a.funcAnomaly.Pushed (fs.map fun f => (f.nAnomaly : ℚ))
  inclusive : a.inclusive.Collects true (fs.map FuncStats.inclusive)
  exclusive : a.exclusive.Collects true (fs.map FuncStats.exclusive)

/-- A profile with data. -/
def ProfilesSome (funcName : ℕ → String) (key : ℤ × ℕ) (a : AggregateFuncStats)
    (fs : Multiset FuncStats) : Prop :=
  Profiles funcName key a fs ∧ fs ≠ 0

/-- The statistics of a rank are those of some anomaly data. -/
def CountsSome (_ : ℤ × ℕ) (a : AggregateAnomalyData) (ds : Multiset AnomalyData) : Prop :=
  a.stats.Pushed (ds.map fun d => (d.nAnomalies : ℚ)) ∧ ds ≠ 0

/-- A sum with something is something. -/
theorem ne_zero_of_add {A : Type*} {s t : Multiset A} (h : s ≠ 0) : s + t ≠ 0 := by
  intro hzero
  exact h (Multiset.le_zero.mp (hzero ▸ Multiset.le_add_right _ _))

/-- Combining profiles of one function succeeds. -/
theorem ProfilesSome.plus {funcName : ℕ → String} {key : ℤ × ℕ} {a b : AggregateFuncStats}
    {fs gs : Multiset FuncStats} (h : ProfilesSome funcName key a fs)
    (h' : ProfilesSome funcName key b gs) :
    ∃ u, a.plus b = .ok u ∧ ProfilesSome funcName key u (fs + gs) := by
  obtain ⟨h, hfs⟩ := h
  obtain ⟨h', hgs⟩ := h'
  have hne : ∀ {A : Type} (f : FuncStats → A), gs.map f ≠ 0 := by
    intro A f
    simpa using hgs
  unfold AggregateFuncStats.plus
  rw [if_neg (by simp [h.pid, h.fid, h.func, h'.pid, h'.fid, h'.func])]
  refine ⟨_, rfl, ⟨h.pid, h.fid, h.func, ?_, ?_, ?_⟩, ne_zero_of_add hfs⟩
  · rw [Multiset.map_add]
    exact h.funcAnomaly.add h'.funcAnomaly (by simpa using hfs) (hne _)
  · rw [Multiset.map_add]
    exact h.inclusive.add h'.inclusive
      ((h'.inclusive.sampled_of_ne_zero (hne _)).count_add_ne_zero h.inclusive.valid)
  · rw [Multiset.map_add]
    exact h.exclusive.add h'.exclusive
      ((h'.exclusive.sampled_of_ne_zero (hne _)).count_add_ne_zero h.exclusive.valid)

/-- A profile is determined by the statistics that it was made from. -/
theorem ProfilesSome.unique {funcName : ℕ → String} {key : ℤ × ℕ} {a b : AggregateFuncStats}
    {fs : Multiset FuncStats} (h : ProfilesSome funcName key a fs)
    (h' : ProfilesSome funcName key b fs) : a = b := by
  obtain ⟨h, -⟩ := h
  obtain ⟨h', -⟩ := h'
  apply AggregateFuncStats.ext
  · rw [h.pid, h'.pid]
  · rw [h.fid, h'.fid]
  · rw [h.func, h'.func]
  · exact h.funcAnomaly.unique h'.funcAnomaly
  · exact h.inclusive.unique h'.inclusive
  · exact h.exclusive.unique h'.exclusive

/-- Including the statistics of a step adds them to what a profile is made from. -/
theorem profilesSome_add {funcName : ℕ → String} {f : FuncStats}
    (hname : f.name = funcName f.id) (hinclusive : f.inclusive.Sampled)
    (hexclusive : f.exclusive.Sampled) {old : Option AggregateFuncStats}
    {o : WithZero (Multiset FuncStats)}
    (h : AccountsFor (ProfilesSome funcName (toInt f.pid, f.id)) old o) :
    AccountsFor (ProfilesSome funcName (toInt f.pid, f.id))
      (some ((old.getD (AggregateFuncStats.new (toInt f.pid) (toInt f.id) f.name)).add f.nAnomaly
        f.inclusive f.exclusive)) (o + (({f} : Multiset FuncStats) : WithZero _)) := by
  have hadd : ∀ {a : AggregateFuncStats} {fs : Multiset FuncStats},
      Profiles funcName (toInt f.pid, f.id) a fs →
      ProfilesSome funcName (toInt f.pid, f.id) (a.add f.nAnomaly f.inclusive f.exclusive)
        (f ::ₘ fs) := by
    intro a fs ha
    refine ⟨⟨ha.pid, ha.fid, ha.func, ?_, ?_, ?_⟩, Multiset.cons_ne_zero⟩
    · rw [Multiset.map_cons]
      exact ha.funcAnomaly.push _
    · rw [Multiset.map_cons]
      exact ha.inclusive.add_part hinclusive
    · rw [Multiset.map_cons]
      exact ha.exclusive.add_part hexclusive
  cases h with
  | none =>
    rw [zero_add]
    apply AccountsFor.some
    apply hadd
    exact ⟨rfl, rfl, hname, RunStats.pushed_new, RunStats.collects_new true,
      RunStats.collects_new true⟩
  | some hold =>
    rw [← WithZero.coe_add, add_comm, Multiset.singleton_add]
    exact .some (hadd hold.1)

/-- The statistics of functions, by program and function. -/
abbrev FuncAmounts := ℤ × ℕ → WithZero (Multiset FuncStats)

/-- The anomaly data, by program and rank. -/
abbrev AnomalyAmounts := ℤ × ℕ → WithZero (Multiset AnomalyData)

/-- What the statistics of a function add. -/
def funcAmount (f : FuncStats) : FuncAmounts :=
  Pi.single (toInt f.pid, f.id) (({f} : Multiset FuncStats) : WithZero (Multiset FuncStats))

/-- What the function statistics of a step add. -/
def funcAmounts (data : ADLocalFuncStatistics) : FuncAmounts :=
  ((values data.funcStats).map funcAmount).sum

/-- What anomaly data add. -/
def anomalyAmount (d : AnomalyData) : AnomalyAmounts :=
  Pi.single (keyOf d) (({d} : Multiset AnomalyData) : WithZero (Multiset AnomalyData))

/-- The profiles and the statistics of ranks are made from given data. -/
structure Totals (funcName : ℕ → String) (g : GlobalAnomalyStats) (fs : FuncAmounts)
    (ds : AnomalyAmounts) : Prop where
  funcstats : MapAccounts (ProfilesSome funcName) g.funcstats fs
  anomalyStats : MapAccounts CountsSome g.anomalyStats ds

/-- The statistics of a function can be added: they are of some executions, under its name. -/
structure Addable (funcName : ℕ → String) (f : FuncStats) : Prop where
  name : f.name = funcName f.id
  inclusive : f.inclusive.Sampled
  exclusive : f.exclusive.Sampled

/-- New statistics have no totals. -/
theorem totals_new (funcName : ℕ → String) : Totals funcName new 0 0 :=
  ⟨mapAccounts_empty, mapAccounts_empty⟩

/-- Including anomaly data adds them to the statistics of the rank. -/
theorem Totals.updateAnomalyStat {funcName : ℕ → String} {g : GlobalAnomalyStats}
    {fs : FuncAmounts} {ds : AnomalyAmounts} (h : Totals funcName g fs ds) (d : AnomalyData) :
    Totals funcName (g.updateAnomalyStat d) fs (ds + anomalyAmount d) := by
  have hadd : AccountsFor (CountsSome (keyOf d))
      (some (((g.anomalyStats.lookup (keyOf d)).getD (AggregateAnomalyData.new true)).add d))
      (ds (keyOf d) + (({d} : Multiset AnomalyData) : WithZero (Multiset AnomalyData))) := by
    have hkey := h.anomalyStats (keyOf d)
    cases hlookup : g.anomalyStats.lookup (keyOf d) with
    | none =>
      rw [hlookup] at hkey
      rw [hkey.eq_zero, zero_add]
      apply AccountsFor.some
      exact ⟨RunStats.pushed_new.push _, Multiset.singleton_ne_zero d⟩
    | some old =>
      rw [hlookup] at hkey
      obtain ⟨es, hes, hold⟩ := hkey.exists_amount
      rw [hes, ← WithZero.coe_add, add_comm, Multiset.singleton_add]
      apply AccountsFor.some
      refine ⟨?_, Multiset.cons_ne_zero⟩
      rw [Multiset.map_cons]
      exact hold.1.push _
  exact ⟨h.funcstats, h.anomalyStats.insert hadd⟩

/-- Including function statistics adds them to the profiles. -/
theorem Totals.updateFuncStats {funcName : ℕ → String} (funcs : List FuncStats)
    {g : GlobalAnomalyStats} {fs : FuncAmounts} {ds : AnomalyAmounts}
    (h : Totals funcName g fs ds) (hfuncs : ∀ f ∈ funcs, Addable funcName f) :
    Totals funcName (funcs.foldl updateFuncStat g) (fs + (funcs.map funcAmount).sum) ds := by
  induction funcs generalizing g fs with
  | nil => simpa using h
  | cons f rest ih =>
    have hf := hfuncs f List.mem_cons_self
    have hkey := h.funcstats (toInt f.pid, f.id)
    have hinsert := h.funcstats.insert
      (profilesSome_add hf.name hf.inclusive hf.exclusive hkey)
    have hrest := ih (g := g.updateFuncStat f) ⟨hinsert, h.anomalyStats⟩
      fun f' hf' => hfuncs f' (List.mem_cons_of_mem _ hf')
    rw [List.map_cons, List.sum_cons, ← add_assoc]
    exact hrest

/-- Including the function statistics of a step. -/
theorem Totals.addLocal {funcName : ℕ → String} {g : GlobalAnomalyStats} {fs : FuncAmounts}
    {ds : AnomalyAmounts} (h : Totals funcName g fs ds) (data : ADLocalFuncStatistics)
    (hdata : ∀ f ∈ values data.funcStats, Addable funcName f) :
    Totals funcName (g.addLocal data) (fs + funcAmounts data)
      (ds + anomalyAmount data.anomData) :=
  (h.updateAnomalyStat data.anomData).updateFuncStats _ hdata

/-- Combining objects succeeds and adds their data. -/
theorem Totals.plus {funcName : ℕ → String} {g r : GlobalAnomalyStats} {fs fs' : FuncAmounts}
    {ds ds' : AnomalyAmounts} (h : Totals funcName g fs ds) (h' : Totals funcName r fs' ds') :
    ∃ t, g.plus r = .ok t ∧ Totals funcName t (fs + fs') (ds + ds') := by
  have hcounts : ∀ key a b es es', CountsSome key a es → CountsSome key b es' →
      ∃ u, (pure (a.plus b) : Except String AggregateAnomalyData) = .ok u ∧
        CountsSome key u (es + es') := by
    intro key a b es es' ha hb
    refine ⟨a.plus b, rfl, ?_, ne_zero_of_add ha.2⟩
    rw [Multiset.map_add]
    exact ha.1.add hb.1 (by simpa using ha.2) (by simpa using hb.2)
  obtain ⟨anomalyStats, hanomaly, hds⟩ :=
    MapAccounts.merge _ hcounts h.anomalyStats h'.anomalyStats
  obtain ⟨funcstats, hfunc, hfs⟩ := MapAccounts.merge AggregateFuncStats.plus
    (fun _ _ _ _ _ ha hb => ha.plus hb) h.funcstats h'.funcstats
  refine ⟨{ anomalyStats := anomalyStats, funcstats := funcstats }, ?_, hfs, hds⟩
  unfold GlobalAnomalyStats.plus
  simp only [hanomaly, hfunc]
  rfl

end GlobalAnomalyStats

namespace GlobalAnomalyMetrics

/-- The metrics of a function on a rank aggregate some contributions, all under its name. -/
def AggregatesSome (metricName : ℤ → String) (pid rid fid : ℤ) (a : AggregateFuncAnomalyMetrics)
    (cs : Multiset MetricsContribution) : Prop :=
  a.Describes (pid, rid, fid) cs ∧ a.func = metricName fid ∧ cs ≠ 0

/-- The contributions by program, rank and function. A program or a rank may be there without
functions. -/
abbrev Amounts := ℤ → WithZero (ℤ → WithZero (ℤ → WithZero (Multiset MetricsContribution)))

/-- A map aggregates some contributions. -/
def Totals (metricName : ℤ → String) (m : AnomalyMetricsMap) (c : Amounts) : Prop :=
  MapAccounts (fun pid => MapAccounts fun rid => MapAccounts (AggregatesSome metricName pid rid))
    m c

/-- What the metrics of a step add. -/
def amountsOf (data : ADLocalAnomalyMetrics) : Amounts :=
  let funcs : ℤ → WithZero (Multiset MetricsContribution) :=
    amounts (fun fid f => {data.contribution fid f}) data.metrics
  let ranks : ℤ → WithZero (ℤ → WithZero (Multiset MetricsContribution)) :=
    Pi.single data.rank (funcs : WithZero (ℤ → WithZero (Multiset MetricsContribution)))
  Pi.single data.app
    (ranks : WithZero (ℤ → WithZero (ℤ → WithZero (Multiset MetricsContribution))))

/-- Aggregates of one function are added without an error. -/
theorem AggregatesSome.plus {metricName : ℤ → String} {pid rid fid : ℤ}
    {a b : AggregateFuncAnomalyMetrics} {cs ds : Multiset MetricsContribution}
    (h : AggregatesSome metricName pid rid fid a cs)
    (h' : AggregatesSome metricName pid rid fid b ds) :
    ∃ u, a.plus b = .ok u ∧ AggregatesSome metricName pid rid fid u (cs + ds) := by
  have hkey := h.1.key_eq.trans h'.1.key_eq.symm
  simp only [Prod.mk.injEq] at hkey
  have hfunc := h.2.1.trans h'.2.1.symm
  have hplus : ∃ u, a.plus b = .ok u ∧ u.func = a.func := by
    unfold AggregateFuncAnomalyMetrics.plus
    rw [if_neg (by simp [hkey, hfunc])]
    exact ⟨_, rfl, rfl⟩
  obtain ⟨u, hu, hname⟩ := hplus
  exact ⟨u, hu, h.1.plus h'.1 h.2.2 h'.2.2 hu, hname.trans h.2.1,
    GlobalAnomalyStats.ne_zero_of_add h.2.2⟩

/-- Metrics are determined by the contributions. -/
theorem AggregatesSome.unique {metricName : ℤ → String} {pid rid fid : ℤ}
    {a b : AggregateFuncAnomalyMetrics} {cs : Multiset MetricsContribution}
    (h : AggregatesSome metricName pid rid fid a cs)
    (h' : AggregatesSome metricName pid rid fid b cs) : a = b := by
  have hkey := h.1.key_eq.trans h'.1.key_eq.symm
  simp only [Prod.mk.injEq] at hkey
  obtain ⟨hpid, hrid, hfid⟩ := hkey
  apply AggregateFuncAnomalyMetrics.ext hpid hrid hfid
  · rw [h.2.1, h'.2.1]
  · exact h.1.count.unique h'.1.count
  · exact h.1.score.unique h'.1.score
  · exact h.1.severity.unique h'.1.severity
  · rw [h.1.firstIoStep, h'.1.firstIoStep]
  · rw [h.1.lastIoStep, h'.1.lastIoStep]
  · rw [h.1.firstEventTs, h'.1.firstEventTs]
  · rw [h.1.lastEventTs, h'.1.lastEventTs]

/-- Including the metrics of a step adds their contributions. -/
theorem Totals.addInto {metricName : ℤ → String} {m : AnomalyMetricsMap} {c : Amounts}
    (h : Totals metricName m c) (data : ADLocalAnomalyMetrics)
    (hdata : ∀ fid f, data.metrics.lookup fid = some f → f.func = metricName fid) :
    ∃ m', addInto m data = .ok m' ∧ Totals metricName m' (c + amountsOf data) := by
  obtain ⟨b, hranks, houter⟩ := h.insert_inner data.app
  obtain ⟨b', hfuncs, hinner⟩ := hranks.insert_inner data.rank
  obtain ⟨funcs, hrun, haccounts⟩ := hfuncs.upsertEach (f := addFunction data)
    (x := fun fid f => {data.contribution fid f}) (m := data.metrics) (by
      intro fid f hf old o hold
      have hfid : f.fid = fid := data.fid_eq fid f hf
      have hadd : ∀ {a : AggregateFuncAnomalyMetrics} {cs : Multiset MetricsContribution},
          a.Describes (data.app, data.rank, fid) cs → a.func = metricName fid →
          ∃ a', a.add f (toUnsignedLong data.step) data.firstEventTs data.lastEventTs = .ok a' ∧
            AggregatesSome metricName data.app data.rank fid a'
              (data.contribution fid f ::ₘ cs) := by
        intro a cs ha hname
        obtain ⟨a', ha', hdescribes⟩ := ha.add (data.contribution fid f) hfid
        refine ⟨a', ha', hdescribes, ?_, Multiset.cons_ne_zero⟩
        have hfunc : a'.func = a.func := by
          have hrun : a.add f (toUnsignedLong data.step) data.firstEventTs data.lastEventTs =
            .ok a' := ha'
          unfold AggregateFuncAnomalyMetrics.add at hrun
          split at hrun
          · cases hrun
          · cases hrun
            rfl
        exact hfunc.trans hname
      cases hold with
      | none =>
        obtain ⟨a', ha', hsome⟩ := hadd (AggregateFuncAnomalyMetrics.describes_new data.app
          data.rank fid f.func) (hdata fid f hf)
        refine ⟨a', ha', ?_⟩
        rw [zero_add]
        exact .some hsome
      | @some old cs hcs =>
        obtain ⟨a', ha', hsome⟩ := hadd hcs.1 hcs.2.1
        refine ⟨a', ha', ?_⟩
        rw [← WithZero.coe_add, add_comm, Multiset.singleton_add]
        exact .some hsome)
  refine ⟨m.insert data.app (((m.lookup data.app).getD ∅).insert data.rank funcs), ?_, ?_⟩
  · unfold GlobalAnomalyMetrics.addInto
    simp only [hrun]
    rfl
  · exact houter _ _ (hinner _ _ haccounts)

/-- Merging maps succeeds and adds their contributions. -/
theorem Totals.plusEquals {metricName : ℤ → String} {m m' : AnomalyMetricsMap} {c c' : Amounts}
    (h : Totals metricName m c) (h' : Totals metricName m' c') :
    ∃ r, plusEquals m m' = .ok r ∧ Totals metricName r (c + c') := by
  have hfuncs : ∀ pid rid v w a b,
      MapAccounts (AggregatesSome metricName pid rid) v a →
      MapAccounts (AggregatesSome metricName pid rid) w b →
      ∃ u, merge AggregateFuncAnomalyMetrics.plus v w = .ok u ∧
        MapAccounts (AggregatesSome metricName pid rid) u (a + b) :=
    fun pid rid v w a b hv hw => MapAccounts.merge _ (fun _ _ _ _ _ hx hy => hx.plus hy) hv hw
  exact MapAccounts.merge _ (fun pid _ _ _ _ hv hw =>
    MapAccounts.merge _ (hfuncs pid) hv hw) h h'

/-- A map is determined by the contributions. -/
theorem Totals.matches {metricName : ℤ → String} {m m' : AnomalyMetricsMap} {c : Amounts}
    (h : Totals metricName m c) (h' : Totals metricName m' c) :
    Matches (Matches (Matches Eq)) m m' := by
  have hfuncs : ∀ pid rid v w a, MapAccounts (AggregatesSome metricName pid rid) v a →
      MapAccounts (AggregatesSome metricName pid rid) w a → Matches Eq v w :=
    fun _ _ _ _ _ hv hw => hv.matches (fun _ _ _ _ hx hy => hx.unique hy) hw
  have hranks : ∀ pid v w a,
      MapAccounts (fun rid => MapAccounts (AggregatesSome metricName pid rid)) v a →
      MapAccounts (fun rid => MapAccounts (AggregatesSome metricName pid rid)) w a →
      Matches (Matches Eq) v w :=
    fun pid _ _ _ hv hw => hv.matches (hfuncs pid) hw
  exact MapAccounts.matches hranks h h'

end GlobalAnomalyMetrics

/-- The data of one step. -/
abbrev StepData := ADLocalFuncStatistics × ADLocalCounterStatistics × ADLocalAnomalyMetrics

/-- What was added to the objects of a worker. -/
abbrev StatsAmounts := GlobalAnomalyStats.FuncAmounts × GlobalAnomalyStats.AnomalyAmounts ×
  GlobalCounterStats.Amounts × GlobalAnomalyMetrics.Amounts

namespace ADcombinedPSdataArray

/-- The data, step by step. -/
def steps (message : ADcombinedPSdataArray) : List StepData :=
  message.funcStats.zip (message.counterStats.zip message.anomMetrics)

/-- What the data of a step add. -/
def stepAmount (d : StepData) : StatsAmounts :=
  (GlobalAnomalyStats.funcAmounts d.1, GlobalAnomalyStats.anomalyAmount d.1.anomData,
    GlobalCounterStats.amountsOf d.2.1, GlobalAnomalyMetrics.amountsOf d.2.2)

/-- What a message adds. -/
def amount (message : ADcombinedPSdataArray) : StatsAmounts :=
  (message.steps.map stepAmount).sum

/-- The arrays have equal sizes, all statistics are of some values, and every function index has
one name. -/
structure WellFormed (funcName : ℕ → String) (metricName : ℤ → String)
    (message : ADcombinedPSdataArray) : Prop where
  counterStats_length : message.counterStats.length = message.funcStats.length
  anomMetrics_length : message.anomMetrics.length = message.funcStats.length
  funcs : ∀ data ∈ message.funcStats, ∀ f ∈ values data.funcStats,
    GlobalAnomalyStats.Addable funcName f
  counters : ∀ loc ∈ message.counterStats, ∀ name stats, loc.stats.lookup name = some stats →
    stats.Sampled
  metrics : ∀ data ∈ message.anomMetrics, ∀ fid f, data.metrics.lookup fid = some f →
    f.func = metricName fid

end ADcombinedPSdataArray

namespace NetWorkerStats

/-- A worker that has received nothing. -/
def new : NetWorkerStats :=
  { anomStats := GlobalAnomalyStats.new, counterStats := GlobalCounterStats.new
    anomMetrics := GlobalAnomalyMetrics.new }

/-- Include the data of one step. -/
def addStep (self : NetWorkerStats) (d : StepData) : Except String NetWorkerStats := do
  let counterStats ← self.counterStats.addCounterData d.2.1
  let anomMetrics ← self.anomMetrics.add d.2.2
  pure { anomStats := self.anomStats.addLocal d.1, counterStats := counterStats
         anomMetrics := anomMetrics }

/-- Receive the data of some steps. -/
def action (self : NetWorkerStats) (message : ADcombinedPSdataArray) :
    Except String NetWorkerStats :=
  let N := message.funcStats.length
  if message.counterStats.length ≠ N ∨ message.anomMetrics.length ≠ N then
    throw "Expect consistent size for arrays"
  else message.steps.foldlM addStep self

/-- The objects of a worker are made from given data. -/
structure Totals (funcName : ℕ → String) (metricName : ℤ → String) (w : NetWorkerStats)
    (t : StatsAmounts) : Prop where
  anomStats : GlobalAnomalyStats.Totals funcName w.anomStats t.1 t.2.1
  counterStats : w.counterStats.Holds t.2.2.1
  full : GlobalAnomalyMetrics.Totals metricName w.anomMetrics.full t.2.2.2
  recent : GlobalAnomalyMetrics.Totals metricName w.anomMetrics.recent t.2.2.2

variable {funcName : ℕ → String} {metricName : ℤ → String}

/-- A new worker has no totals. -/
theorem totals_new : Totals funcName metricName new 0 :=
  ⟨GlobalAnomalyStats.totals_new funcName, GlobalCounterStats.holds_new, mapAccounts_empty,
    mapAccounts_empty⟩

/-- Including the data of a step. -/
theorem Totals.addStep {w : NetWorkerStats} {t : StatsAmounts}
    (h : Totals funcName metricName w t) (d : StepData)
    (hfuncs : ∀ f ∈ values d.1.funcStats, GlobalAnomalyStats.Addable funcName f)
    (hcounters : ∀ name stats, d.2.1.stats.lookup name = some stats → stats.Sampled)
    (hmetrics : ∀ fid f, d.2.2.metrics.lookup fid = some f → f.func = metricName fid) :
    ∃ w', w.addStep d = .ok w' ∧
      Totals funcName metricName w' (t + ADcombinedPSdataArray.stepAmount d) := by
  obtain ⟨counterStats, hcounter, hcounterHolds⟩ := h.counterStats.addCounterData d.2.1 hcounters
  obtain ⟨full, hfull, hfullTotals⟩ := h.full.addInto d.2.2 hmetrics
  obtain ⟨recent, hrecent, hrecentTotals⟩ := h.recent.addInto d.2.2 hmetrics
  refine ⟨{ anomStats := w.anomStats.addLocal d.1, counterStats := counterStats
            anomMetrics := { full := full, recent := recent } }, ?_, ?_⟩
  · unfold NetWorkerStats.addStep GlobalAnomalyMetrics.add GlobalAnomalyMetrics.addFull
      GlobalAnomalyMetrics.addRecent
    simp only [hcounter, hfull, bind, Except.bind, pure, Except.pure, hrecent]
  · exact ⟨h.anomStats.addLocal d.1 hfuncs, hcounterHolds, hfullTotals, hrecentTotals⟩

/-- Receiving a well-formed message. -/
theorem Totals.action {w : NetWorkerStats} {t : StatsAmounts} (h : Totals funcName metricName w t)
    {message : ADcombinedPSdataArray} (hmessage : message.WellFormed funcName metricName) :
    ∃ w', w.action message = .ok w' ∧ Totals funcName metricName w' (t + message.amount) := by
  have hfold : ∀ (steps : List StepData), (∀ d ∈ steps, d ∈ message.steps) →
      ∀ (w : NetWorkerStats) (t : StatsAmounts), Totals funcName metricName w t →
      ∃ w', steps.foldlM NetWorkerStats.addStep w = .ok w' ∧ Totals funcName metricName w'
        (t + (steps.map ADcombinedPSdataArray.stepAmount).sum) := by
    intro steps
    induction steps with
    | nil =>
      intro _ w t ht
      exact ⟨w, rfl, by simpa using ht⟩
    | cons d rest ih =>
      intro hsteps w t ht
      have hd := hsteps d List.mem_cons_self
      obtain ⟨hfunc, hrest⟩ := List.of_mem_zip hd
      obtain ⟨hcounter, hmetric⟩ := List.of_mem_zip hrest
      obtain ⟨w', hw', ht'⟩ := ht.addStep d (hmessage.funcs d.1 hfunc)
        (hmessage.counters d.2.1 hcounter) (hmessage.metrics d.2.2 hmetric)
      obtain ⟨w'', hw'', ht''⟩ := ih (fun e he => hsteps e (List.mem_cons_of_mem _ he)) w' _ ht'
      refine ⟨w'', ?_, ?_⟩
      · rw [List.foldlM_cons, hw']
        exact hw''
      · rw [List.map_cons, List.sum_cons, ← add_assoc]
        exact ht''
  obtain ⟨w', hw', ht'⟩ := hfold message.steps (fun _ hd => hd) w t h
  refine ⟨w', ?_, ht'⟩
  unfold NetWorkerStats.action
  rw [if_neg (by simp [hmessage.counterStats_length, hmessage.anomMetrics_length])]
  exact hw'

end NetWorkerStats

end Chimbuko
