import Chimbuko.AD.ExecData
import Chimbuko.Util.RunStatsCollect
import Mathlib.Algebra.Order.Ring.Int
import Mathlib.Data.List.AList
import Mathlib.Data.Multiset.Fold

/-!
# Statistics of anomalies

The record of an execution, and the statistics of the anomalies of a function: the first and the
last step, the time that they span, their scores and severities, and how many there are for each
rank and step. What is stored of these statistics does not depend on the order in which the
anomalies were included.
-/

namespace Chimbuko

/-- What is stored about an execution. -/
structure ProvRecord (J O : Type) where
  fid : ℕ
  runtimeTotal : ℤ
  runtimeExclusive : ℤ
  rid : ℤ
  ioStep : ℤ
  entry : ℤ
  exit : ℤ
  outlierScore : ℚ
  outlierSeverity : ℚ
  /-- What the model held for the function, if that is known. -/
  algoParams : Option J
  /-- The other fields. -/
  others : O

/-- The record of an execution of a step. -/
def ProvRecord.getEventProvenance {J O : Type} (call : ExecData) (step : ℤ) (outlierSeverity : ℚ)
    (algoParams : Option J) (others : O) : ProvRecord J O where
  fid := call.fid
  runtimeTotal := call.runtime
  runtimeExclusive := call.exclusive
  rid := call.rid
  ioStep := step
  entry := call.entry
  exit := call.exit
  outlierScore := call.score
  outlierSeverity := outlierSeverity
  algoParams := algoParams
  others := others

/-- Statistics of anomalies as they are stored. -/
structure AnomalyMetrics where
  firstIoStep : ℤ
  lastIoStep : ℤ
  minTimestamp : ℕ
  maxTimestamp : ℕ
  score : RunStats
  severity : RunStats
  anomalyCount : RunStats
deriving DecidableEq

/-- Statistics of the anomalies of one function. -/
structure ProvDBpruneGlobalStats where
  firstIoStep : ℤ
  lastIoStep : ℤ
  minTimestamp : ℕ
  maxTimestamp : ℕ
  score : RunStats
  severity : RunStats
  /-- The number of anomalies for each rank and step. -/
  rankAnomCounts : AList fun _ : ℤ × ℤ => ℕ

namespace ProvDBpruneGlobalStats

/-- Statistics without records. -/
def new : ProvDBpruneGlobalStats where
  firstIoStep := 2 ^ 31 - 1
  lastIoStep := -2 ^ 31
  minTimestamp := 2 ^ 64 - 1
  maxTimestamp := 0
  score := RunStats.new true
  severity := RunStats.new true
  rankAnomCounts := ∅

/-- Include an anomaly. -/
def push {J O : Type} (self : ProvDBpruneGlobalStats) (record : ProvRecord J O) :
    ProvDBpruneGlobalStats where
  firstIoStep := Min.min self.firstIoStep record.ioStep
  lastIoStep := Max.max self.lastIoStep record.ioStep
  minTimestamp := Min.min self.minTimestamp (toUnsignedLong record.entry)
  maxTimestamp := Max.max self.maxTimestamp (toUnsignedLong record.exit)
  score := self.score.push record.outlierScore
  severity := self.severity.push record.outlierSeverity
  rankAnomCounts :=
    let key := (record.rid, record.ioStep)
    match self.rankAnomCounts.lookup key with
    | none => self.rankAnomCounts.insert key 1
    | some n => self.rankAnomCounts.insert key (n + 1)

/-- What is stored of the statistics. -/
def summarize (self : ProvDBpruneGlobalStats) : AnomalyMetrics where
  firstIoStep := self.firstIoStep
  lastIoStep := self.lastIoStep
  minTimestamp := self.minTimestamp
  maxTimestamp := self.maxTimestamp
  score := self.score
  severity := self.severity
  anomalyCount :=
    self.rankAnomCounts.entries.foldl (fun s e => s.push (e.2 : ℚ)) (RunStats.new true)

/-- What is left when the statistics were moved from: the counts are gone. -/
def movedFrom (self : ProvDBpruneGlobalStats) : ProvDBpruneGlobalStats :=
  { self with rankAnomCounts := ∅ }

end ProvDBpruneGlobalStats


namespace ProvDBpruneGlobalStats

variable {J O : Type}

/-- The rank and the step of a record. -/
def rankStep (record : ProvRecord J O) : ℤ × ℤ := (record.rid, record.ioStep)

/-- The statistics include exactly the given records. -/
structure Includes (stats : ProvDBpruneGlobalStats) (records : Multiset (ProvRecord J O)) :
    Prop where
  firstIoStep : stats.firstIoStep = (records.map ProvRecord.ioStep).fold Min.min (2 ^ 31 - 1)
  lastIoStep : stats.lastIoStep = (records.map ProvRecord.ioStep).fold Max.max (-2 ^ 31)
  minTimestamp : stats.minTimestamp =
    (records.map fun record => toUnsignedLong record.entry).fold Min.min (2 ^ 64 - 1)
  maxTimestamp : stats.maxTimestamp =
    (records.map fun record => toUnsignedLong record.exit).fold Max.max 0
  score : stats.score.Pushed (records.map ProvRecord.outlierScore)
  severity : stats.severity.Pushed (records.map ProvRecord.outlierSeverity)
  counts : ∀ key, stats.rankAnomCounts.lookup key =
    if (records.map rankStep).count key = 0 then none else some ((records.map rankStep).count key)

/-- New statistics include no records. -/
theorem includes_new : new.Includes (0 : Multiset (ProvRecord J O)) := by
  constructor
  · rfl
  · rfl
  · rfl
  · rfl
  · exact RunStats.pushed_new
  · exact RunStats.pushed_new
  · intro key
    exact AList.lookup_empty key

/-- Pushing a record includes it. -/
theorem Includes.push {self : ProvDBpruneGlobalStats} {records : Multiset (ProvRecord J O)}
    (h : self.Includes records) (record : ProvRecord J O) :
    (self.push record).Includes (record ::ₘ records) := by
  constructor
  · rw [Multiset.map_cons, Multiset.fold_cons_right, ← h.firstIoStep]
    rfl
  · rw [Multiset.map_cons, Multiset.fold_cons_right, ← h.lastIoStep]
    rfl
  · rw [Multiset.map_cons, Multiset.fold_cons_right, ← h.minTimestamp]
    rfl
  · rw [Multiset.map_cons, Multiset.fold_cons_right, ← h.maxTimestamp]
    rfl
  · rw [Multiset.map_cons]
    exact h.score.push _
  · rw [Multiset.map_cons]
    exact h.severity.push _
  · intro key
    have hkey := h.counts (rankStep record)
    rw [Multiset.map_cons]
    have hpush : (self.push record).rankAnomCounts = self.rankAnomCounts.insert (rankStep record)
        ((records.map rankStep).count (rankStep record) + 1) := by
      unfold ProvDBpruneGlobalStats.push
      change (match self.rankAnomCounts.lookup (rankStep record) with
        | none => self.rankAnomCounts.insert (rankStep record) 1
        | some n => self.rankAnomCounts.insert (rankStep record) (n + 1)) = _
      rw [hkey]
      split
      · rename_i hnone
        split at hnone
        · rename_i hzero
          rw [hzero]
        · cases hnone
      · rename_i hsome
        split at hsome
        · cases hsome
        · cases hsome
          rfl
    rw [hpush]
    by_cases heq : key = rankStep record
    · rw [heq, AList.lookup_insert, Multiset.count_cons_self, if_neg (Nat.succ_ne_zero _)]
    · rw [AList.lookup_insert_ne heq, Multiset.count_cons_of_ne heq, h.counts]

/-- Pushing records one after another. -/
theorem includes_foldl (records : List (ProvRecord J O)) {self : ProvDBpruneGlobalStats}
    {before : Multiset (ProvRecord J O)} (h : self.Includes before) :
    (records.foldl push self).Includes (before + (records : Multiset (ProvRecord J O))) := by
  induction records generalizing self before with
  | nil =>
    rw [Multiset.coe_nil, add_zero]
    exact h
  | cons record rest ih =>
    have hrest := ih (h.push record)
    rw [List.foldl_cons]
    rwa [Multiset.cons_add, ← Multiset.add_cons, Multiset.cons_coe] at hrest

/-- The counts are pushed in the order of the map. -/
private theorem pushed_counts (entries : List (Sigma fun _ : ℤ × ℤ => ℕ)) {s : RunStats}
    {xs : Multiset ℚ} (h : s.Pushed xs) :
    (entries.foldl (fun s e => s.push (e.2 : ℚ)) s).Pushed
      (xs + ((entries.map fun e => (e.2 : ℚ) : List ℚ) : Multiset ℚ)) := by
  induction entries generalizing s xs with
  | nil =>
    rw [List.map_nil, Multiset.coe_nil, add_zero]
    exact h
  | cons e rest ih =>
    have hrest := ih (h.push (e.2 : ℚ))
    rw [List.foldl_cons, List.map_cons, ← Multiset.cons_coe, Multiset.add_cons]
    rwa [Multiset.cons_add] at hrest

/-- What is stored is determined by the records that are included. -/
theorem Includes.summarize_eq {s t : ProvDBpruneGlobalStats}
    {records : Multiset (ProvRecord J O)} (hs : s.Includes records) (ht : t.Includes records) :
    s.summarize = t.summarize := by
  have hcounts : s.rankAnomCounts.entries.Perm t.rankAnomCounts.entries := by
    apply List.lookup_ext s.rankAnomCounts.nodupKeys t.rankAnomCounts.nodupKeys
    intro key n
    have hlookup : s.rankAnomCounts.lookup key = t.rankAnomCounts.lookup key := by
      rw [hs.counts, ht.counts]
    exact iff_of_eq (congrArg (n ∈ ·) hlookup)
  have hanomalyCount :
      s.rankAnomCounts.entries.foldl (fun s e => s.push (e.2 : ℚ)) (RunStats.new true) =
        t.rankAnomCounts.entries.foldl (fun s e => s.push (e.2 : ℚ)) (RunStats.new true) := by
    have hpushed := pushed_counts s.rankAnomCounts.entries RunStats.pushed_new
    rw [Multiset.coe_eq_coe.mpr (hcounts.map fun e => (e.2 : ℚ))] at hpushed
    exact hpushed.unique (pushed_counts t.rankAnomCounts.entries RunStats.pushed_new)
  have hscore := hs.score.unique ht.score
  have hseverity := hs.severity.unique ht.severity
  unfold summarize
  rw [hs.firstIoStep, ht.firstIoStep, hs.lastIoStep, ht.lastIoStep, hs.minTimestamp,
    ht.minTimestamp, hs.maxTimestamp, ht.maxTimestamp, hscore, hseverity, hanomalyCount]

/-- The statistics of some records, as they are stored. -/
def summaryOf (records : List (ProvRecord J O)) : AnomalyMetrics :=
  (records.foldl push new).summarize

/-- The order of the records does not matter. -/
theorem summaryOf_perm {records records' : List (ProvRecord J O)} (h : records.Perm records') :
    summaryOf records = summaryOf records' := by
  have hrecords := includes_foldl records includes_new
  rw [Multiset.coe_eq_coe.mpr h] at hrecords
  exact hrecords.summarize_eq (includes_foldl records' includes_new)

end ProvDBpruneGlobalStats

end Chimbuko
