import Chimbuko.AD.Event
import Chimbuko.Library.KeyedMap
import Chimbuko.Util.RunStatsCollect
import Mathlib.Algebra.Order.Group.Multiset

/-!
# Anomaly metrics on the server

`GlobalAnomalyMetrics` aggregates the anomaly metrics of every function of every rank twice: since
the start of the run, and since the last message. A message reports the recent metrics together
with the totals that go with them, and it is an error if there are none.

A map is accounted for by the contributions that were added to it, where a contribution is the
metrics of one function in one message of a rank.
-/

namespace Chimbuko

open KeyedMap

/-- The metrics of a function's anomalies in one step. They are of at least one anomaly. -/
structure FuncAnomalyMetrics where
  score : RunStats
  severity : RunStats
  count : ℤ
  fid : ℤ
  func : String
  sampled : score.Sampled ∧ severity.Sampled

/-- The anomaly metrics that a rank sends for one step. -/
structure ADLocalAnomalyMetrics where
  app : ℤ
  rank : ℤ
  step : ℤ
  firstEventTs : ℕ
  lastEventTs : ℕ
  /-- By function index. -/
  metrics : AList fun _ : ℤ => FuncAnomalyMetrics
  fid_eq : ∀ fid f, metrics.lookup fid = some f → f.fid = fid

/-- The greatest unsigned long. -/
def unsignedLongMax : ℕ := 2 ^ 64 - 1

/-- The anomaly metrics of a function on a rank. -/
structure AggregateFuncAnomalyMetrics where
  pid : ℤ
  rid : ℤ
  fid : ℤ
  func : String
  count : RunStats
  score : RunStats
  severity : RunStats
  firstIoStep : ℕ
  lastIoStep : ℕ
  firstEventTs : ℕ
  lastEventTs : ℕ

/-- The metrics of one function in one message, as they are added to a map. -/
structure MetricsContribution where
  pid : ℤ
  rid : ℤ
  fid : ℤ
  ioStep : ℕ
  firstEventTs : ℕ
  lastEventTs : ℕ
  metrics : FuncAnomalyMetrics

/-- The program, rank and function to which a contribution belongs. -/
def MetricsContribution.key (c : MetricsContribution) : ℤ × ℤ × ℤ := (c.pid, c.rid, c.fid)

/-- The contribution of a function of a message. -/
def ADLocalAnomalyMetrics.contribution (data : ADLocalAnomalyMetrics) (fid : ℤ)
    (metrics : FuncAnomalyMetrics) : MetricsContribution :=
  { pid := data.app, rid := data.rank, fid := fid, ioStep := toUnsignedLong data.step
    firstEventTs := data.firstEventTs, lastEventTs := data.lastEventTs, metrics := metrics }

/-- The contributions of a message. -/
def ADLocalAnomalyMetrics.contributions (data : ADLocalAnomalyMetrics) :
    List MetricsContribution :=
  data.metrics.entries.map fun e => data.contribution e.1 e.2

namespace AggregateFuncAnomalyMetrics

/-- Metrics without data. -/
def new (pid rid fid : ℤ) (func : String) : AggregateFuncAnomalyMetrics :=
  { pid := pid, rid := rid, fid := fid, func := func
    count := RunStats.new true, score := RunStats.new true, severity := RunStats.new true
    firstIoStep := unsignedLongMax, lastIoStep := 0
    firstEventTs := unsignedLongMax, lastEventTs := 0 }

/-- Include the metrics of a step. -/
def add (self : AggregateFuncAnomalyMetrics) (metrics : FuncAnomalyMetrics)
    (ioStep firstEventTs lastEventTs : ℕ) : Except String AggregateFuncAnomalyMetrics :=
  if metrics.fid ≠ self.fid then throw "Function index mismatch"
  else
    pure { self with
      score := self.score + metrics.score
      severity := self.severity + metrics.severity
      count := self.count.push metrics.count
      firstIoStep := min self.firstIoStep ioStep
      lastIoStep := max self.lastIoStep ioStep
      firstEventTs := min self.firstEventTs firstEventTs
      lastEventTs := max self.lastEventTs lastEventTs }

/-- Combine the metrics of one function on one rank. -/
def plus (self r : AggregateFuncAnomalyMetrics) : Except String AggregateFuncAnomalyMetrics :=
  if self.pid ≠ r.pid ∨ self.rid ≠ r.rid ∨ self.fid ≠ r.fid ∨ self.func ≠ r.func then
    throw "Data metadata mismatch"
  else
    pure { self with
      count := self.count + r.count
      score := self.score + r.score
      severity := self.severity + r.severity
      firstEventTs := min self.firstEventTs r.firstEventTs
      lastEventTs := max self.lastEventTs r.lastEventTs
      firstIoStep := min self.firstIoStep r.firstIoStep
      lastIoStep := max self.lastIoStep r.lastIoStep }

/-- The metrics of a key aggregate some contributions. -/
structure Describes (key : ℤ × ℤ × ℤ) (a : AggregateFuncAnomalyMetrics)
    (cs : Multiset MetricsContribution) : Prop where
  key_eq : (a.pid, a.rid, a.fid) = key
  count : a.count.Pushed (cs.map fun c => (c.metrics.count : ℚ))
  score : a.score.Collects true (cs.map fun c => c.metrics.score)
  severity : a.severity.Collects true (cs.map fun c => c.metrics.severity)
  firstIoStep : a.firstIoStep = (cs.map MetricsContribution.ioStep).fold min unsignedLongMax
  lastIoStep : a.lastIoStep = (cs.map MetricsContribution.ioStep).fold max 0
  firstEventTs : a.firstEventTs =
    (cs.map MetricsContribution.firstEventTs).fold min unsignedLongMax
  lastEventTs : a.lastEventTs = (cs.map MetricsContribution.lastEventTs).fold max 0

/-- New metrics describe nothing. -/
theorem describes_new (pid rid fid : ℤ) (func : String) :
    (new pid rid fid func).Describes (pid, rid, fid) 0 := by
  constructor
  · rfl
  · exact RunStats.pushed_new
  · exact RunStats.collects_new true
  · exact RunStats.collects_new true
  all_goals simp [new]

/-- Including the metrics of the function adds a contribution. -/
theorem Describes.add {key : ℤ × ℤ × ℤ} {a : AggregateFuncAnomalyMetrics}
    {cs : Multiset MetricsContribution} (h : a.Describes key cs) (c : MetricsContribution)
    (hfid : c.metrics.fid = key.2.2) :
    ∃ a', a.add c.metrics c.ioStep c.firstEventTs c.lastEventTs = .ok a' ∧
      a'.Describes key (c ::ₘ cs) := by
  have hkey : a.fid = key.2.2 := congrArg (fun k => k.2.2) h.key_eq
  unfold AggregateFuncAnomalyMetrics.add
  rw [if_neg (by simp [hfid, hkey])]
  refine ⟨_, rfl, ?_⟩
  constructor
  · exact h.key_eq
  · rw [Multiset.map_cons]
    exact h.count.push _
  · rw [Multiset.map_cons]
    exact h.score.add_part c.metrics.sampled.1
  · rw [Multiset.map_cons]
    exact h.severity.add_part c.metrics.sampled.2
  · simp [h.firstIoStep, min_comm]
  · simp [h.lastIoStep, max_comm]
  · simp [h.firstEventTs, min_comm]
  · simp [h.lastEventTs, max_comm]

/-- Combining metrics with data adds their contributions. -/
theorem Describes.plus {key : ℤ × ℤ × ℤ} {a b r : AggregateFuncAnomalyMetrics}
    {cs ds : Multiset MetricsContribution} (h : a.Describes key cs) (h' : b.Describes key ds)
    (hcs : cs ≠ 0) (hds : ds ≠ 0) (hplus : a.plus b = .ok r) : r.Describes key (cs + ds) := by
  unfold AggregateFuncAnomalyMetrics.plus at hplus
  split at hplus
  · cases hplus
  cases hplus
  have hne : ∀ {A : Type} (f : MetricsContribution → A), ds.map f ≠ 0 := by
    intro A f
    simpa using hds
  constructor
  · exact h.key_eq
  · rw [Multiset.map_add]
    exact h.count.add h'.count (by simpa using hcs) (hne _)
  · rw [Multiset.map_add]
    exact h.score.add h'.score
      ((h'.score.sampled_of_ne_zero (hne _)).count_add_ne_zero h.score.valid)
  · rw [Multiset.map_add]
    exact h.severity.add h'.severity
      ((h'.severity.sampled_of_ne_zero (hne _)).count_add_ne_zero h.severity.valid)
  · rw [Multiset.map_add, fold_add_of_idem (min_self _), h.firstIoStep, h'.firstIoStep]
  · rw [Multiset.map_add, fold_add_of_idem (max_self _), h.lastIoStep, h'.lastIoStep]
  · rw [Multiset.map_add, fold_add_of_idem (min_self _), h.firstEventTs, h'.firstEventTs]
  · rw [Multiset.map_add, fold_add_of_idem (max_self _), h.lastEventTs, h'.lastEventTs]

end AggregateFuncAnomalyMetrics

/-- Metrics by program index, rank and function index. -/
abbrev AnomalyMetricsMap :=
  AList fun _ : ℤ => AList fun _ : ℤ => AList fun _ : ℤ => AggregateFuncAnomalyMetrics

/-- The metrics since the start, and those since they were last collected. -/
structure GlobalAnomalyMetrics where
  /-- Since the start of the run. -/
  full : AnomalyMetricsMap
  /-- Since the last flush. -/
  recent : AnomalyMetricsMap

/-- The metrics of a function on a rank as a message reports them. -/
structure MetricsObject where
  app : ℤ
  rank : ℤ
  fid : ℤ
  fname : String
  newData : AggregateFuncAnomalyMetrics
  allData : AggregateFuncAnomalyMetrics
  id : ℕ

/-- The program, rank and function of an object. -/
def MetricsObject.key (o : MetricsObject) : ℤ × ℤ × ℤ := (o.app, o.rank, o.fid)

namespace GlobalAnomalyMetrics

/-- No metrics were received. -/
def new : GlobalAnomalyMetrics := { full := ∅, recent := ∅ }

/-- Include the metrics of one function. -/
def addFunction (data : ADLocalAnomalyMetrics) (fid : ℤ) (old : Option AggregateFuncAnomalyMetrics)
    (metrics : FuncAnomalyMetrics) : Except String AggregateFuncAnomalyMetrics :=
  (old.getD (AggregateFuncAnomalyMetrics.new data.app data.rank fid metrics.func)).add metrics
    (toUnsignedLong data.step) data.firstEventTs data.lastEventTs

/-- Include the metrics of a step in a map. -/
def addInto (into : AnomalyMetricsMap) (data : ADLocalAnomalyMetrics) :
    Except String AnomalyMetricsMap := do
  let ranks := (into.lookup data.app).getD ∅
  let funcs := (ranks.lookup data.rank).getD ∅
  let funcs ← upsertEach (addFunction data) funcs data.metrics
  pure (into.insert data.app (ranks.insert data.rank funcs))

/-- The first half of `add`. -/
def addFull (self : GlobalAnomalyMetrics) (data : ADLocalAnomalyMetrics) :
    Except String GlobalAnomalyMetrics := do
  let full ← addInto self.full data
  pure { self with full := full }

/-- The second half of `add`. -/
def addRecent (self : GlobalAnomalyMetrics) (data : ADLocalAnomalyMetrics) :
    Except String GlobalAnomalyMetrics := do
  let recent ← addInto self.recent data
  pure { self with recent := recent }

/-- Include the metrics of a step, each half under a lock of its own. -/
def add (self : GlobalAnomalyMetrics) (data : ADLocalAnomalyMetrics) :
    Except String GlobalAnomalyMetrics := do
  let self ← self.addFull data
  self.addRecent data

/-- Merge a map into another one, at every level. -/
def plusEquals (into m : AnomalyMetricsMap) : Except String AnomalyMetricsMap :=
  merge (merge (merge AggregateFuncAnomalyMetrics.plus)) into m

/-- Combine two objects. -/
def plus (self r : GlobalAnomalyMetrics) : Except String GlobalAnomalyMetrics := do
  let full ← plusEquals self.full r.full
  let recent ← plusEquals self.recent r.recent
  pure { full := full, recent := recent }

/-- Merge a worker's object and flush its recent metrics. -/
def mergeAndFlush (self r : GlobalAnomalyMetrics) :
    Except String (GlobalAnomalyMetrics × GlobalAnomalyMetrics) := do
  let merged ← self.plus r
  pure (merged, { r with recent := ∅ })

/-- The full statistics that accompany recent ones. -/
def fullEntry (full : AnomalyMetricsMap) (pid rid fid : ℤ) :
    Except String AggregateFuncAnomalyMetrics :=
  match full.lookup pid with
  | none => throw "Unable to find program idx in full statistics!"
  | some ranks =>
    match ranks.lookup rid with
    | none => throw "Unable to find rank idx in full statistics!"
    | some funcs =>
      match funcs.lookup fid with
      | none => throw "Unable to find function idx in full statistics!"
      | some a => pure a

/-- The functions of a map in the order of its three levels. -/
def elements (m : AnomalyMetricsMap) : List ((ℤ × ℤ × ℤ) × AggregateFuncAnomalyMetrics) :=
  m.entries.flatMap fun p => p.2.entries.flatMap fun r => r.2.entries.map fun f =>
    ((p.1, r.1, f.1), f.2)

/-- The object of a function with recent metrics. -/
def elementJson (full : AnomalyMetricsMap) (id : ℕ)
    (e : (ℤ × ℤ × ℤ) × AggregateFuncAnomalyMetrics) : Except String MetricsObject := do
  let all ← fullEntry full e.1.1 e.1.2.1 e.1.2.2
  pure { app := e.1.1, rank := e.1.2.1, fid := e.1.2.2, fname := e.2.func
         newData := e.2, allData := all, id := id }

/-- Report the recent metrics with their totals, numbering the objects from `id`. -/
def objectsFrom (full : AnomalyMetricsMap) : ℕ →
    List ((ℤ × ℤ × ℤ) × AggregateFuncAnomalyMetrics) → Except String (List MetricsObject)
  | _, [] => pure []
  | id, e :: rest => do
    let o ← elementJson full id e
    let os ← objectsFrom full (id + 1) rest
    pure (o :: os)

/-- Report the recent metrics and flush them. -/
def getJson (self : GlobalAnomalyMetrics) (id : ℕ) :
    Except String (List MetricsObject × GlobalAnomalyMetrics) := do
  let objects ← objectsFrom self.full id (elements self.recent)
  pure (objects, { self with recent := ∅ })

/-- The errors of a report without totals. -/
def findErrors : List String :=
  ["Unable to find program idx in full statistics!", "Unable to find rank idx in full statistics!",
    "Unable to find function idx in full statistics!"]

/-- The metrics that a map holds for a function. -/
def metricsAt (m : AnomalyMetricsMap) (key : ℤ × ℤ × ℤ) : Option AggregateFuncAnomalyMetrics :=
  ((m.lookup key.1).bind fun ranks => ranks.lookup key.2.1).bind fun funcs =>
    funcs.lookup key.2.2

/-- The contributions that belong to a key. -/
def ofKey (key : ℤ × ℤ × ℤ) (cs : Multiset MetricsContribution) : Multiset MetricsContribution :=
  cs.filter fun c => c.key = key

/-- What a map holds for a key aggregates some contributions, or there are none. -/
def Accounts (key : ℤ × ℤ × ℤ) :
    Option AggregateFuncAnomalyMetrics → Multiset MetricsContribution → Prop
  | none, cs => cs = 0
  | some a, cs => a.Describes key cs ∧ cs ≠ 0

/-- A map aggregates some contributions, each under its key. -/
def Holds (m : AnomalyMetricsMap) (cs : Multiset MetricsContribution) : Prop :=
  ∀ key, Accounts key (metricsAt m key) (ofKey key cs)

/-- An empty map holds nothing. -/
theorem holds_empty : Holds ∅ 0 := by
  intro key
  rfl

/-- The contributions of a key to both are those to all of them. -/
theorem ofKey_add (key : ℤ × ℤ × ℤ) (cs ds : Multiset MetricsContribution) :
    ofKey key (cs + ds) = ofKey key cs + ofKey key ds :=
  Multiset.filter_add _ _ _

/-- More contributions have more of a key. -/
theorem ofKey_mono (key : ℤ × ℤ × ℤ) {cs ds : Multiset MetricsContribution} (h : cs ≤ ds) :
    ofKey key cs ≤ ofKey key ds :=
  Multiset.filter_le_filter _ h

/-- What aggregates some contributions is there. -/
theorem Accounts.exists_of_ne_zero {key : ℤ × ℤ × ℤ} {o : Option AggregateFuncAnomalyMetrics}
    {cs : Multiset MetricsContribution} (h : Accounts key o cs) (hcs : cs ≠ 0) :
    ∃ a, o = some a ∧ a.Describes key cs := by
  cases o with
  | none => exact absurd h hcs
  | some a => exact ⟨a, rfl, h.1⟩

/-- Combined metrics aggregate the contributions of both maps. -/
theorem Accounts.combined {key : ℤ × ℤ × ℤ} {x y z : Option AggregateFuncAnomalyMetrics}
    {cs ds : Multiset MetricsContribution} (hx : Accounts key x cs) (hy : Accounts key y ds)
    (h : Combined (fun v w u => AggregateFuncAnomalyMetrics.plus v w = .ok u) x y z) :
    Accounts key z (cs + ds) := by
  cases h with
  | right =>
    have hcs : cs = 0 := hx
    rw [hcs, zero_add]
    exact hy
  | left v =>
    have hds : ds = 0 := hy
    rw [hds, add_zero]
    exact hx
  | both hplus =>
    refine ⟨hx.1.plus hy.1 hx.2 hy.2 hplus, ?_⟩
    intro hzero
    exact hx.2 (Multiset.le_zero.mp (hzero ▸ Multiset.le_add_right _ _))

/-- Merged maps, key by key. -/
theorem combined_plusEquals {into m result : AnomalyMetricsMap}
    (h : plusEquals into m = .ok result) (key : ℤ × ℤ × ℤ) :
    Combined (fun v w u => AggregateFuncAnomalyMetrics.plus v w = .ok u) (metricsAt into key)
      (metricsAt m key) (metricsAt result key) :=
  ((combined_merge h key.1).bind fun _ _ _ hranks => combined_merge hranks key.2.1).bind
    fun _ _ _ hfuncs => combined_merge hfuncs key.2.2

/-- Merging maps adds their contributions. -/
theorem Holds.plusEquals {into m result : AnomalyMetricsMap}
    {cs ds : Multiset MetricsContribution} (hinto : Holds into cs) (hm : Holds m ds)
    (h : GlobalAnomalyMetrics.plusEquals into m = .ok result) : Holds result (cs + ds) := by
  intro key
  rw [ofKey_add]
  exact (hinto key).combined (hm key) (combined_plusEquals h key)

/-- Merging maps fails only on metrics of different functions. -/
theorem plusEquals_error {into m : AnomalyMetricsMap} {e : String}
    (h : plusEquals into m = .error e) : e = "Data metadata mismatch" := by
  obtain ⟨ranks, ranks', hranks⟩ := merge_error h
  obtain ⟨funcs, funcs', hfuncs⟩ := merge_error hranks
  obtain ⟨a, b, hplus⟩ := merge_error hfuncs
  unfold AggregateFuncAnomalyMetrics.plus at hplus
  split at hplus
  · cases hplus
    rfl
  · cases hplus

/-- Setting the functions of a rank leaves those of the others. -/
theorem metricsAt_insert (m : AnomalyMetricsMap) (pid rid : ℤ)
    (funcs : AList fun _ : ℤ => AggregateFuncAnomalyMetrics) (key : ℤ × ℤ × ℤ) :
    metricsAt (m.insert pid (((m.lookup pid).getD ∅).insert rid funcs)) key =
      if key.1 = pid ∧ key.2.1 = rid then funcs.lookup key.2.2 else metricsAt m key := by
  have hfind := find_insert m (pid, rid) (key.1, key.2.1) funcs
  unfold find at hfind
  unfold metricsAt
  rw [hfind]
  simp only [Prod.mk.injEq]
  split <;> rfl

/-- The functions of a rank that a map holds before the metrics of a step are included. -/
theorem lookup_funcs (m : AnomalyMetricsMap) (pid rid fid : ℤ) :
    ((((m.lookup pid).getD ∅).lookup rid).getD ∅).lookup fid = metricsAt m (pid, rid, fid) := by
  unfold metricsAt
  cases m.lookup pid with
  | none => simp
  | some ranks =>
    change ((ranks.lookup rid).getD ∅).lookup fid =
      (ranks.lookup rid).bind fun funcs => funcs.lookup fid
    cases ranks.lookup rid <;> simp

/-- A message has at most one contribution to a key. -/
theorem ofKey_contributions (data : ADLocalAnomalyMetrics) (key : ℤ × ℤ × ℤ) :
    ofKey key data.contributions = if key.1 = data.app ∧ key.2.1 = data.rank then
      (((data.metrics.lookup key.2.2).map (data.contribution key.2.2)).toList :
        Multiset MetricsContribution) else 0 := by
  obtain ⟨pid, rid, fid⟩ := key
  unfold ofKey ADLocalAnomalyMetrics.contributions
  rw [Multiset.filter_coe, List.filter_map]
  have hkey : ∀ e : Sigma fun _ : ℤ => FuncAnomalyMetrics,
      (data.contribution e.1 e.2).key = (data.app, data.rank, e.1) := fun _ => rfl
  split
  · rename_i hown
    obtain ⟨rfl, rfl⟩ := hown
    have hfilter := filter_entries data.metrics fid
    simp only [Function.comp_def, hkey, Prod.mk.injEq, true_and]
    rw [hfilter]
    cases data.metrics.lookup fid <;> rfl
  · rename_i hother
    rw [List.filter_eq_nil_iff.mpr]
    · rfl
    · intro e _
      simp only [Function.comp_def, hkey, Prod.mk.injEq, decide_eq_true_eq]
      exact fun h => hother ⟨h.1.symm, h.2.1.symm⟩

/-- Including the metrics of a function adds a contribution to what a map holds for it. -/
theorem Accounts.addFunction {data : ADLocalAnomalyMetrics} {fid : ℤ} {f : FuncAnomalyMetrics}
    {old : Option AggregateFuncAnomalyMetrics} {cs : Multiset MetricsContribution}
    (h : Accounts (data.app, data.rank, fid) old cs) (hf : data.metrics.lookup fid = some f) :
    ∃ a, GlobalAnomalyMetrics.addFunction data fid old f = .ok a ∧
      Accounts (data.app, data.rank, fid) (some a) (cs + {data.contribution fid f}) := by
  have hfid : f.fid = fid := data.fid_eq fid f hf
  have hadd : ∀ old' : AggregateFuncAnomalyMetrics, old'.Describes (data.app, data.rank, fid) cs →
      ∃ a, old'.add f (toUnsignedLong data.step) data.firstEventTs data.lastEventTs = .ok a ∧
        Accounts (data.app, data.rank, fid) (some a) (cs + {data.contribution fid f}) := by
    intro old' hold
    obtain ⟨a, ha, hdescribes⟩ := hold.add (data.contribution fid f) hfid
    rw [add_comm, Multiset.singleton_add]
    exact ⟨a, ha, hdescribes, Multiset.cons_ne_zero⟩
  cases old with
  | none =>
    have hcs : cs = 0 := h
    apply hadd
    rw [hcs]
    exact AggregateFuncAnomalyMetrics.describes_new data.app data.rank fid f.func
  | some old => exact hadd old h.1

/-- Including the metrics of a step never fails, and adds their contributions. -/
theorem Holds.addInto {m : AnomalyMetricsMap} {cs : Multiset MetricsContribution}
    (h : Holds m cs) (data : ADLocalAnomalyMetrics) :
    ∃ m', addInto m data = .ok m' ∧ Holds m' (cs + data.contributions) := by
  obtain ⟨funcs, hrun⟩ := upsertEach_ok (addFunction data)
    ((((m.lookup data.app).getD ∅).lookup data.rank).getD ∅) data.metrics (by
      intro fid f hf
      obtain ⟨a, ha, -⟩ := (h (data.app, data.rank, fid)).addFunction hf
      rw [lookup_funcs, ha]
      rfl)
  refine ⟨m.insert data.app (((m.lookup data.app).getD ∅).insert data.rank funcs), ?_, ?_⟩
  · unfold GlobalAnomalyMetrics.addInto
    simp only [hrun]
    rfl
  rintro ⟨pid, rid, fid⟩
  rw [metricsAt_insert, ofKey_add, ofKey_contributions]
  split
  · rename_i hkey
    obtain ⟨rfl, rfl⟩ := hkey
    cases hf : data.metrics.lookup fid with
    | none =>
      rw [lookup_upsertEach_of_none hrun hf, lookup_funcs]
      simpa using h (data.app, data.rank, fid)
    | some f =>
      obtain ⟨a, ha, haccounts⟩ := (h (data.app, data.rank, fid)).addFunction hf
      obtain ⟨a', ha', hlookup⟩ := lookup_upsertEach hrun hf
      rw [lookup_funcs, ha] at ha'
      cases ha'
      rw [hlookup]
      exact haccounts
  · rw [add_zero]
    exact h (pid, rid, fid)

/-- The elements are the metrics with their keys. -/
theorem mem_elements {m : AnomalyMetricsMap} {key : ℤ × ℤ × ℤ}
    {a : AggregateFuncAnomalyMetrics} :
    (key, a) ∈ elements m ↔ metricsAt m key = some a := by
  unfold elements metricsAt
  simp only [List.mem_flatMap, List.mem_map, Option.bind_eq_some_iff]
  constructor
  · rintro ⟨⟨pid, ranks⟩, hpid, ⟨rid, funcs⟩, hrid, ⟨fid, b⟩, hfid, heq⟩
    cases heq
    exact ⟨funcs, ⟨ranks, AList.mem_lookup_iff.mpr hpid, AList.mem_lookup_iff.mpr hrid⟩,
      AList.mem_lookup_iff.mpr hfid⟩
  · rintro ⟨funcs, ⟨ranks, hranks, hfuncs⟩, ha⟩
    exact ⟨⟨key.1, ranks⟩, AList.mem_lookup_iff.mp hranks, ⟨key.2.1, funcs⟩,
      AList.mem_lookup_iff.mp hfuncs, ⟨key.2.2, a⟩, AList.mem_lookup_iff.mp ha, rfl⟩

/-- No two functions of a map have the same key. -/
theorem nodup_elements (m : AnomalyMetricsMap) : ((elements m).map Prod.fst).Nodup := by
  unfold elements
  simp only [List.map_flatMap, List.map_map]
  apply nodup_flatMap_entries m
    (fun pid ranks => ranks.entries.flatMap fun r => r.2.entries.map fun f => (pid, r.1, f.1))
    Prod.fst
  · intro pid ranks x hx
    simp only [List.mem_flatMap, List.mem_map] at hx
    obtain ⟨r, -, f, -, rfl⟩ := hx
    rfl
  intro pid ranks
  apply nodup_flatMap_entries ranks
    (fun rid funcs => funcs.entries.map fun f => (pid, rid, f.1)) fun x => x.2.1
  · intro rid funcs x hx
    simp only [List.mem_map] at hx
    obtain ⟨f, -, rfl⟩ := hx
    rfl
  intro rid funcs
  rw [List.map_eq_flatMap]
  apply nodup_flatMap_entries funcs (fun fid _ => [(pid, rid, fid)]) fun x => x.2.2
  · intro fid _ x hx
    rw [List.mem_singleton.mp hx]
  · intro fid _
    exact List.nodup_singleton _

/-- The totals of a function are found if the map holds any. -/
theorem fullEntry_of_metricsAt {full : AnomalyMetricsMap} {key : ℤ × ℤ × ℤ}
    {a : AggregateFuncAnomalyMetrics} (h : metricsAt full key = some a) :
    fullEntry full key.1 key.2.1 key.2.2 = .ok a := by
  unfold metricsAt at h
  rw [Option.bind_eq_some_iff] at h
  obtain ⟨funcs, hfuncs, ha⟩ := h
  rw [Option.bind_eq_some_iff] at hfuncs
  obtain ⟨ranks, hranks, hrid⟩ := hfuncs
  unfold fullEntry
  simp only [hranks, hrid, ha]
  rfl

/-- If there are totals for all functions, each is reported with its own. -/
theorem objectsFrom_ok (full : AnomalyMetricsMap)
    (es : List ((ℤ × ℤ × ℤ) × AggregateFuncAnomalyMetrics)) (id : ℕ)
    (h : ∀ e ∈ es, ∃ a, metricsAt full e.1 = some a) :
    ∃ os, objectsFrom full id es = .ok os ∧
      (os.map fun o => (o.key, o.newData)) = es ∧
      ∀ o ∈ os, metricsAt full o.key = some o.allData := by
  induction es generalizing id with
  | nil => exact ⟨[], rfl, rfl, by simp⟩
  | cons e rest ih =>
    obtain ⟨a, ha⟩ := h e List.mem_cons_self
    obtain ⟨os, hos, hmap, hall⟩ := ih (id + 1) fun e' he' => h e' (List.mem_cons_of_mem _ he')
    refine ⟨{ app := e.1.1, rank := e.1.2.1, fid := e.1.2.2, fname := e.2.func, newData := e.2
              allData := a, id := id } :: os, ?_, ?_, ?_⟩
    · unfold objectsFrom elementJson
      simp only [fullEntry_of_metricsAt ha, hos]
      rfl
    · rw [List.map_cons, hmap]
      rfl
    · intro o ho
      rcases List.mem_cons.mp ho with rfl | hmem
      · exact ha
      · exact hall o hmem

/-- A message reports some new contributions, each function with the aggregate of its own, and
with the aggregate of some more contributions as its totals. -/
structure Reports (objects : List MetricsObject) (new all : Multiset MetricsContribution) :
    Prop where
  nodup : (objects.map MetricsObject.key).Nodup
  newData : ∀ o ∈ objects, ofKey o.key new ≠ 0 ∧ o.newData.Describes o.key (ofKey o.key new)
  allData : ∀ o ∈ objects, o.allData.Describes o.key (ofKey o.key all)
  complete : ∀ c ∈ new, ∃ o ∈ objects, o.key = c.key

/-- If all recent contributions are in the totals, a report is made of them. -/
theorem getJson_ok {g : GlobalAnomalyMetrics} {new all : Multiset MetricsContribution}
    (hfull : Holds g.full all) (hrecent : Holds g.recent new) (hle : new ≤ all) (id : ℕ) :
    ∃ objects, g.getJson id = .ok (objects, { g with recent := ∅ }) ∧
      Reports objects new all := by
  have hkey : ∀ key, ofKey key new ≠ 0 → ofKey key all ≠ 0 := by
    intro key hne hzero
    exact hne (Multiset.le_zero.mp (hzero ▸ ofKey_mono key hle))
  have helements : ∀ e ∈ elements g.recent,
      ofKey e.1 new ≠ 0 ∧ e.2.Describes e.1 (ofKey e.1 new) := by
    intro e he
    have haccounts := hrecent e.1
    rw [mem_elements.mp he] at haccounts
    exact ⟨haccounts.2, haccounts.1⟩
  obtain ⟨objects, hrun, hmap, hall⟩ := objectsFrom_ok g.full (elements g.recent) id (by
    intro e he
    obtain ⟨a, ha, -⟩ := (hfull e.1).exists_of_ne_zero (hkey e.1 (helements e he).1)
    exact ⟨a, ha⟩)
  have hmem : ∀ o ∈ objects, (o.key, o.newData) ∈ elements g.recent := by
    intro o ho
    rw [← hmap]
    exact List.mem_map_of_mem ho
  refine ⟨objects, ?_, ?_⟩
  · unfold getJson
    simp only [hrun]
    rfl
  constructor
  · have hnodup := nodup_elements g.recent
    rw [← hmap, List.map_map] at hnodup
    exact hnodup
  · intro o ho
    exact helements _ (hmem o ho)
  · intro o ho
    have haccounts := hfull o.key
    rw [hall o ho] at haccounts
    exact haccounts.1
  · intro c hc
    have hne : ofKey c.key new ≠ 0 := by
      intro hzero
      have hself : c ∈ ofKey c.key new := Multiset.mem_filter.mpr ⟨hc, rfl⟩
      rw [hzero] at hself
      exact Multiset.notMem_zero c hself
    obtain ⟨a, ha, -⟩ := (hrecent c.key).exists_of_ne_zero hne
    have hin := mem_elements.mpr ha
    rw [← hmap] at hin
    obtain ⟨o, ho, heq⟩ := List.mem_map.mp hin
    exact ⟨o, ho, congrArg Prod.fst heq⟩

end GlobalAnomalyMetrics

end Chimbuko
