import Chimbuko.AD.ADLocalFuncStatistics
import Chimbuko.Util.RunStatsMerge
import Mathlib.Algebra.Order.Group.Multiset

/-!
# Anomaly statistics on the server

`GlobalAnomalyStats` holds, for every program and rank, statistics of the numbers of anomalies
and the anomaly data received since the last flush, and for every function its profile. Each
worker thread of the server has an object of its own. The sender merges them into a temporary
one, flushing the workers' data but not their statistics, and builds a message from it.

A nested map of the source is a map with pairs of keys here. Merging profiles fails if two
workers know one function under different names.
-/

namespace Chimbuko

open KeyedMap

/-- The anomaly data collected for a program and rank since the last flush, and statistics of
the numbers of anomalies since the start of the run. -/
structure AggregateAnomalyData where
  stats : RunStats
  data : List AnomalyData

/-- A program and rank of a message, with its statistics and data. -/
structure AnomalyObject where
  key : String
  stats : RunStats
  data : List AnomalyData

/-- The key of a program and rank. -/
def anomalyKey (pid rid : ℤ) : String := toString pid ++ ":" ++ toString rid

namespace AggregateAnomalyData

/-- An aggregate without data. -/
def new (doAccumulate : Bool) : AggregateAnomalyData :=
  { stats := RunStats.new doAccumulate, data := [] }

/-- Add the anomaly count to the statistics, and the data to the list. -/
def add (self : AggregateAnomalyData) (d : AnomalyData) : AggregateAnomalyData :=
  { stats := self.stats.push d.nAnomalies, data := self.data ++ [d] }

/-- Flush the list of data. -/
def flush (self : AggregateAnomalyData) : AggregateAnomalyData := { self with data := [] }

/-- The statistics to date and the data with anomalies, if there are any. -/
def getJson (self : AggregateAnomalyData) (pid rid : ℤ) : Option AnomalyObject :=
  if self.data.any fun d => 0 < d.nAnomalies then
    some { key := anomalyKey pid rid
           stats := self.stats
           data := self.data.filter fun d => 0 < d.nAnomalies }
  else none

/-- Combine the statistics and append the data. -/
def plus (self r : AggregateAnomalyData) : AggregateAnomalyData :=
  { stats := self.stats + r.stats, data := self.data ++ r.data }

end AggregateAnomalyData

/-- The profile of a function over all steps. -/
structure AggregateFuncStats where
  pid : ℤ
  fid : ℤ
  func : String
  funcAnomaly : RunStats
  inclusive : RunStats
  exclusive : RunStats

namespace AggregateFuncStats

/-- An aggregate of a function without data. -/
def new (pid fid : ℤ) (func : String) : AggregateFuncStats :=
  { pid := pid, fid := fid, func := func, funcAnomaly := RunStats.new true
    inclusive := RunStats.new true, exclusive := RunStats.new true }

/-- Add the statistics of one step. -/
def add (self : AggregateFuncStats) (nAnomaly : ℕ) (inclusive exclusive : RunStats) :
    AggregateFuncStats :=
  { self with
    funcAnomaly := self.funcAnomaly.push nAnomaly
    inclusive := self.inclusive + inclusive
    exclusive := self.exclusive + exclusive }

/-- Add two aggregates, if they are of the same function. -/
def plus (self r : AggregateFuncStats) : Except String AggregateFuncStats :=
  if r.pid ≠ self.pid ∨ r.fid ≠ self.fid ∨ r.func ≠ self.func then
    throw "Instances should refer to the same process/function!"
  else
    pure { self with
      funcAnomaly := self.funcAnomaly + r.funcAnomaly
      inclusive := self.inclusive + r.inclusive
      exclusive := self.exclusive + r.exclusive }

end AggregateFuncStats

/-- The anomaly statistics by process and rank, and the function statistics. -/
structure GlobalAnomalyStats where
  /-- By program index and rank. -/
  anomalyStats : AList fun _ : ℤ × ℕ => AggregateAnomalyData
  /-- By program index and function index. -/
  funcstats : AList fun _ : ℤ × ℕ => AggregateFuncStats

/-- What the sender reports: the programs and ranks with new anomalies, and all profiles. -/
structure AnomalyStatsMessage where
  anomaly : List AnomalyObject
  func : List AggregateFuncStats

/-- The anomaly data of a message. -/
def AnomalyStatsMessage.data (m : AnomalyStatsMessage) : List AnomalyData :=
  m.anomaly.flatMap AnomalyObject.data

namespace GlobalAnomalyStats

/-- No statistics were received. -/
def new : GlobalAnomalyStats := { anomalyStats := ∅, funcstats := ∅ }

/-- Include anomaly data, with accumulation for a new program and rank. -/
def updateAnomalyStat (self : GlobalAnomalyStats) (anom : AnomalyData) : GlobalAnomalyStats :=
  let key := (toInt anom.app, anom.rank)
  let old := (self.anomalyStats.lookup key).getD (AggregateAnomalyData.new true)
  { self with anomalyStats := self.anomalyStats.insert key (old.add anom) }

/-- Include the profile of a function. -/
def updateFuncStat (self : GlobalAnomalyStats) (f : FuncStats) : GlobalAnomalyStats :=
  let key := (toInt f.pid, f.id)
  let old := (self.funcstats.lookup key).getD
    (AggregateFuncStats.new (toInt f.pid) (toInt f.id) f.name)
  { self with funcstats := self.funcstats.insert key (old.add f.nAnomaly f.inclusive f.exclusive) }

/-- Include the anomaly data and the profiles of one step of a rank. -/
def addAnomalyData (self : GlobalAnomalyStats) (anom : AnomalyData) (funcs : List FuncStats) :
    GlobalAnomalyStats :=
  funcs.foldl updateFuncStat (self.updateAnomalyStat anom)

/-- Combine an entry of a map with the entry of another one, or copy it. -/
def plusEquals {A : Type} (plus : A → A → Except String A) : Option A → A → Except String A
  | none, new => pure new
  | some old, new => plus old new

/-- The first half of `merge_and_flush`: merge anomaly data of a worker and flush its data. -/
def mergeAnomalyStats (self r : GlobalAnomalyStats) :
    Except String (GlobalAnomalyStats × GlobalAnomalyStats) := do
  let anomalyStats ← upsertAll (plusEquals fun old new => pure (old.plus new)) self.anomalyStats
    r.anomalyStats
  pure ({ self with anomalyStats := anomalyStats },
    { r with anomalyStats := mapEntries (fun _ a => a.flush) r.anomalyStats })

/-- The second half of `merge_and_flush`: merge the profiles of a worker. -/
def mergeFuncstats (self r : GlobalAnomalyStats) : Except String GlobalAnomalyStats := do
  let funcstats ← upsertAll (plusEquals AggregateFuncStats.plus) self.funcstats r.funcstats
  pure { self with funcstats := funcstats }

/-- Combine two objects. -/
def plus (self r : GlobalAnomalyStats) : Except String GlobalAnomalyStats := do
  let anomalyStats ← merge (fun old new => pure (old.plus new)) self.anomalyStats r.anomalyStats
  let funcstats ← merge AggregateFuncStats.plus self.funcstats r.funcstats
  pure { anomalyStats := anomalyStats, funcstats := funcstats }

/-- Report the anomaly data and flush them. -/
def collectStatData (self : GlobalAnomalyStats) : List AnomalyObject × GlobalAnomalyStats :=
  (self.anomalyStats.entries.filterMap fun e => e.2.getJson e.1.1 (toInt e.1.2),
    { self with anomalyStats := mapEntries (fun _ a => a.flush) self.anomalyStats })

/-- The statistics of all functions. -/
def collectFuncData (self : GlobalAnomalyStats) : List AggregateFuncStats :=
  values self.funcstats

/-- Build a message if there are new anomalies. -/
def collect (self : GlobalAnomalyStats) : Option AnomalyStatsMessage × GlobalAnomalyStats :=
  let (anomaly, self) := self.collectStatData
  if anomaly.length = 0 then (none, self)
  else (some { anomaly := anomaly, func := self.collectFuncData }, self)

/-- The program and rank under which anomaly data are kept. -/
def keyOf (d : AnomalyData) : ℤ × ℕ := (toInt d.app, d.rank)

/-- The anomaly data of a program and rank. -/
def ofKey (key : ℤ × ℕ) (ds : List AnomalyData) : List AnomalyData :=
  ds.filter fun d => keyOf d = key

/-- The numbers of anomalies, as values of the statistics. -/
def counts (ds : List AnomalyData) : List ℚ := ds.map fun d => (d.nAnomalies : ℚ)

/-- The anomaly data that have not been flushed. -/
def unflushed (self : GlobalAnomalyStats) : Multiset AnomalyData :=
  total (fun a => (a.data : Multiset AnomalyData)) self.anomalyStats

/-- The statistics of each program and rank are those of some anomaly data, and the data are kept
under their own program and rank. -/
structure Holds (g : GlobalAnomalyStats) (ds : List AnomalyData) : Prop where
  stats : ∀ key a, g.anomalyStats.lookup key = some a →
    a.stats.Describes (counts (ofKey key ds)) ∧ ∀ d ∈ a.data, keyOf d = key
  absent : ∀ key, g.anomalyStats.lookup key = none → ofKey key ds = []

/-- New statistics hold no data. -/
theorem holds_new : new.Holds [] := by
  refine ⟨fun key a h => ?_, fun _ _ => rfl⟩
  rw [new, AList.lookup_empty] at h
  cases h

/-- The data of a key among data and others are those among all of them. -/
theorem ofKey_append (key : ℤ × ℕ) (ds es : List AnomalyData) :
    ofKey key (ds ++ es) = ofKey key ds ++ ofKey key es :=
  List.filter_append _ _

/-- Including anomaly data adds them to the statistics and the data. -/
theorem Holds.updateAnomalyStat {self : GlobalAnomalyStats} {ds : List AnomalyData}
    (h : self.Holds ds) (d : AnomalyData) :
    (self.updateAnomalyStat d).Holds (ds ++ [d]) ∧
      (self.updateAnomalyStat d).unflushed = self.unflushed + {d} := by
  have hself : ∀ key, key = keyOf d → ofKey key (ds ++ [d]) = ofKey key ds ++ [d] := by
    rintro key rfl
    rw [ofKey_append, ofKey, ofKey, List.filter_singleton, decide_eq_true rfl]
    rfl
  have hother : ∀ key, key ≠ keyOf d → ofKey key (ds ++ [d]) = ofKey key ds := by
    intro key hkey
    rw [ofKey_append, ofKey, ofKey, List.filter_singleton, decide_eq_false (Ne.symm hkey)]
    exact List.append_nil _
  have hinsert : (self.updateAnomalyStat d).anomalyStats = self.anomalyStats.insert (keyOf d)
      (((self.anomalyStats.lookup (keyOf d)).getD (AggregateAnomalyData.new true)).add d) := rfl
  refine ⟨⟨fun key a ha => ?_, fun key hkey => ?_⟩, ?_⟩
  · rw [hinsert] at ha
    by_cases hkey : key = keyOf d
    · rw [hself key hkey, counts, List.map_append]
      subst hkey
      rw [AList.lookup_insert] at ha
      cases ha
      cases hold : self.anomalyStats.lookup (keyOf d) with
      | none =>
        rw [h.absent _ hold]
        refine ⟨RunStats.describes_push_new _, fun e he => ?_⟩
        rw [List.mem_singleton.mp he]
      | some old =>
        obtain ⟨hstats, hdata⟩ := h.stats _ old hold
        refine ⟨hstats.push _, fun e he => ?_⟩
        rcases List.mem_append.mp he with hmem | hmem
        · exact hdata e hmem
        · rw [List.mem_singleton.mp hmem]
    · rw [AList.lookup_insert_ne hkey] at ha
      rw [hother key hkey]
      exact h.stats key a ha
  · rw [hinsert] at hkey
    by_cases hd : key = keyOf d
    · rw [hd, AList.lookup_insert] at hkey
      cases hkey
    · rw [AList.lookup_insert_ne hd] at hkey
      rw [hother key hd]
      exact h.absent key hkey
  · rw [unflushed, hinsert, total_insert, unflushed, total_erase _ self.anomalyStats (keyOf d)]
    cases self.anomalyStats.lookup (keyOf d) with
    | none =>
      change ({d} : Multiset AnomalyData) + _ = 0 + _ + {d}
      rw [zero_add, add_comm]
    | some old =>
      change ((old.data ++ [d] : List AnomalyData) : Multiset AnomalyData) + _ =
        (old.data : Multiset AnomalyData) + _ + {d}
      rw [← Multiset.coe_add, add_right_comm]
      rfl

/-- Flushing flushes every aggregate. -/
theorem lookup_flush (m : AList fun _ : ℤ × ℕ => AggregateAnomalyData) (key : ℤ × ℕ) :
    (mapEntries (fun _ a => a.flush) m).lookup key =
      (m.lookup key).map AggregateAnomalyData.flush :=
  lookup_mapEntries _ m key

/-- After flushing there are no data. -/
theorem total_flush (m : AList fun _ : ℤ × ℕ => AggregateAnomalyData) :
    total (fun a => (a.data : Multiset AnomalyData))
      (mapEntries (fun _ a => a.flush) m) = 0 := by
  have hvalues : values (mapEntries (fun _ a => a.flush) m) =
      (values m).map AggregateAnomalyData.flush := by
    rw [values, values, mapEntries, List.map_map, List.map_map]
    rfl
  rw [total, hvalues, List.map_map, List.sum_eq_zero]
  intro x hx
  obtain ⟨a, -, rfl⟩ := List.mem_map.mp hx
  rfl

/-- Merging a worker's anomaly data moves the data, and adds the statistics. -/
theorem Holds.mergeAnomalyStats {self r : GlobalAnomalyStats} {ds es : List AnomalyData}
    (hself : self.Holds ds) (hr : r.Holds es) :
    ∃ self' r', self.mergeAnomalyStats r = .ok (self', r') ∧ self'.Holds (ds ++ es) ∧
      r'.Holds es ∧ self'.unflushed = self.unflushed + r.unflushed ∧ r'.unflushed = 0 ∧
      self'.funcstats = self.funcstats ∧ r'.funcstats = r.funcstats := by
  obtain ⟨result, hrun, hlookup⟩ := upsertAll_ok
    (plusEquals fun old new => (pure (old.plus new) : Except String AggregateAnomalyData))
    self.anomalyStats r.anomalyStats fun key w _ => by
      cases self.anomalyStats.lookup key <;> rfl
  have hmerge : self.mergeAnomalyStats r = .ok ({ self with anomalyStats := result },
      { r with anomalyStats := mapEntries (fun _ a => a.flush) r.anomalyStats }) := by
    rw [GlobalAnomalyStats.mergeAnomalyStats, hrun]
    rfl
  refine ⟨_, _, hmerge, ⟨?_, ?_⟩, ⟨?_, ?_⟩, ?_, total_flush r.anomalyStats, rfl, rfl⟩
  · intro key a ha
    change result.lookup key = some a at ha
    rw [hlookup] at ha
    rw [ofKey_append, counts, List.map_append]
    cases hold : self.anomalyStats.lookup key with
    | none =>
      rw [hself.absent key hold]
      cases hnew : r.anomalyStats.lookup key with
      | none =>
        rw [hold, hnew] at ha
        cases ha
      | some added =>
        rw [hold, hnew] at ha
        cases ha
        exact hr.stats key _ hnew
    | some old =>
      obtain ⟨hstats, hdata⟩ := hself.stats key old hold
      cases hnew : r.anomalyStats.lookup key with
      | none =>
        rw [hold, hnew] at ha
        cases ha
        rw [hr.absent key hnew, List.map_nil, List.append_nil]
        exact ⟨hstats, hdata⟩
      | some added =>
        rw [hold, hnew] at ha
        cases ha
        obtain ⟨hstats', hdata'⟩ := hr.stats key _ hnew
        refine ⟨hstats.add hstats', fun d hd => ?_⟩
        rcases List.mem_append.mp hd with hmem | hmem
        · exact hdata d hmem
        · exact hdata' d hmem
  · intro key hkey
    change result.lookup key = none at hkey
    rw [hlookup] at hkey
    rw [ofKey_append]
    cases hnew : r.anomalyStats.lookup key with
    | none =>
      rw [hnew] at hkey
      rw [hself.absent key hkey, hr.absent key hnew]
      rfl
    | some added =>
      rw [hnew] at hkey
      cases hold : self.anomalyStats.lookup key <;> rw [hold] at hkey <;> cases hkey
  · intro key a ha
    change (mapEntries _ r.anomalyStats).lookup key = some a at ha
    rw [lookup_flush] at ha
    obtain ⟨old, hold, rfl⟩ := Option.map_eq_some_iff.mp ha
    exact ⟨(hr.stats key old hold).1, fun d hd => by cases hd⟩
  · intro key hkey
    change (mapEntries _ r.anomalyStats).lookup key = none at hkey
    rw [lookup_flush, Option.map_eq_none_iff] at hkey
    exact hr.absent key hkey
  · refine total_upsertAll (fun old w v hv => ?_) hrun
    cases old with
    | none =>
      cases hv
      exact (zero_add _).symm
    | some old =>
      cases hv
      rfl

/-- Merging profiles leaves the anomaly data as they are. -/
theorem mergeFuncstats_anomalyStats {self r t : GlobalAnomalyStats}
    (h : self.mergeFuncstats r = .ok t) : t.anomalyStats = self.anomalyStats := by
  rw [mergeFuncstats] at h
  cases hall : upsertAll (plusEquals AggregateFuncStats.plus) self.funcstats r.funcstats with
  | error e =>
    rw [hall] at h
    cases h
  | ok funcstats =>
    rw [hall] at h
    cases h
    rfl

/-- An entry's object has the entry's data with anomalies. -/
theorem getJson_data (a : AggregateAnomalyData) (pid rid : ℤ) :
    ((a.getJson pid rid).map AnomalyObject.data).getD [] =
      a.data.filter fun d => 0 < d.nAnomalies := by
  rw [AggregateAnomalyData.getJson]
  split
  · rfl
  · rename_i hany
    refine (List.filter_eq_nil_iff.mpr fun d hd hpos => hany ?_).symm
    exact List.any_eq_true.mpr ⟨d, hd, hpos⟩

/-- The message, as the flushing of the data leaves it. -/
theorem collect_fst (self : GlobalAnomalyStats) : self.collect.1 =
    if self.collectStatData.1.length = 0 then none
    else some { anomaly := self.collectStatData.1
                func := self.collectStatData.2.collectFuncData } := by
  change (if self.collectStatData.1.length = 0 then (none, self.collectStatData.2) else _).1 = _
  split <;> rfl

/-- The data of a message are the unflushed data with anomalies. -/
theorem collect_data (self : GlobalAnomalyStats) :
    (((self.collect.1.map AnomalyStatsMessage.data).getD [] : List AnomalyData) :
      Multiset AnomalyData) = self.unflushed.filter fun d => 0 < d.nAnomalies := by
  have hmessage : (self.collect.1.map AnomalyStatsMessage.data).getD [] =
      self.collectStatData.1.flatMap AnomalyObject.data := by
    rw [collect_fst]
    split
    · rename_i hlength
      rw [List.length_eq_zero_iff.mp hlength]
      rfl
    · rfl
  have hentries : ∀ entries : List (Sigma fun _ : ℤ × ℕ => AggregateAnomalyData),
      (((entries.filterMap fun e => e.2.getJson e.1.1 (toInt e.1.2)).flatMap AnomalyObject.data :
        List AnomalyData) : Multiset AnomalyData) =
        ((entries.map Sigma.snd).map fun a => (a.data : Multiset AnomalyData)).sum.filter
          fun d => 0 < d.nAnomalies := by
    intro entries
    induction entries with
    | nil => rfl
    | cons e rest ih =>
      have hhead := getJson_data e.2 e.1.1 (toInt e.1.2)
      rw [List.map_cons, List.map_cons, List.sum_cons, Multiset.filter_add, ← ih,
        Multiset.filter_coe, ← hhead, Multiset.coe_add, List.filterMap_cons]
      cases e.2.getJson e.1.1 (toInt e.1.2) <;> rfl
  rw [hmessage, unflushed, total, values]
  exact hentries self.anomalyStats.entries

/-- Every object of a message is the entry of a program and rank. -/
theorem mem_collect {self : GlobalAnomalyStats} {m : AnomalyStatsMessage}
    (h : self.collect.1 = some m) {o : AnomalyObject} (ho : o ∈ m.anomaly) :
    ∃ key a, self.anomalyStats.lookup key = some a ∧ o.key = anomalyKey key.1 (toInt key.2) ∧
      o.stats = a.stats ∧ o.data = a.data.filter fun d => 0 < d.nAnomalies := by
  have hanomaly : m.anomaly = self.collectStatData.1 := by
    rw [collect_fst] at h
    split at h
    · cases h
    · cases h
      rfl
  rw [hanomaly] at ho
  obtain ⟨e, he, hjson⟩ := List.mem_filterMap.mp ho
  refine ⟨e.1, e.2, AList.mem_lookup_iff.mpr he, ?_⟩
  rw [AggregateAnomalyData.getJson] at hjson
  split at hjson
  · cases hjson
    exact ⟨rfl, rfl, rfl⟩
  · cases hjson

end GlobalAnomalyStats

end Chimbuko
