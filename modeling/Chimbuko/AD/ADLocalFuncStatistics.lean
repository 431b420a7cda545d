import Chimbuko.AD.ADEvent
import Chimbuko.Library.KeyedMap
import Chimbuko.Util.RunStats
import Mathlib.Data.List.Dedup

/-!
# Function statistics of a step

What an analysis reports about the executions of each function: the statistics of their
runtimes, and the window of time in which they lie.
-/

namespace Chimbuko

/-- The number of anomalies of one rank in one step, with the window in which they occurred. -/
structure AnomalyData where
  app : ℕ
  rank : ℕ
  step : ℕ
  minTimestamp : ℕ
  maxTimestamp : ℕ
  nAnomalies : ℕ
  outlierScores : RunStats
deriving DecidableEq

/-- The profile of a function in one step. -/
structure FuncStats where
  pid : ℕ
  id : ℕ
  name : String
  nAnomaly : ℕ
  inclusive : RunStats
  exclusive : RunStats

/-- The function statistics gathered in one analysis. -/
structure ADLocalFuncStatistics where
  anomData : AnomalyData
  /-- By function index. -/
  funcStats : AList fun _ : ℕ => FuncStats

namespace FuncStats

/-- Statistics without data. -/
def new (pid id : ℕ) (name : String) : FuncStats :=
  { pid := pid, id := id, name := name, nAnomaly := 0, inclusive := default, exclusive := default }

/-- Include the runtimes of an execution. -/
def pushCall (self : FuncStats) (d : ExecData) : FuncStats :=
  { self with
    inclusive := self.inclusive.push d.runtime
    exclusive := self.exclusive.push d.exclusive }

end FuncStats

namespace ADLocalFuncStatistics

/-- Statistics without data. -/
def new (programIdx rank step : ℕ) : ADLocalFuncStatistics :=
  { anomData := { app := programIdx, rank := rank, step := step, minTimestamp := 0
                  maxTimestamp := 0, nAnomalies := 0, outlierScores := RunStats.new true }
    funcStats := ∅ }

/-- The greatest unsigned long. -/
def ulongMax : ℕ := 2 ^ 64 - 1

/-- Include the executions of one function, and extend the window to them. -/
def gatherFunction (event : ADEvent) (self : ADLocalFuncStatistics) (funcId : ℕ) :
    ADLocalFuncStatistics :=
  match event.execDataMap funcId with
  | [] => self
  | front :: rest =>
    let its := (front :: rest).map event.calls
    let old := (self.funcStats.lookup funcId).getD
      (FuncStats.new self.anomData.app funcId (event.calls front).funcname)
    { anomData := { self.anomData with
        minTimestamp := its.foldl (fun ts d => min ts (toUnsignedLong d.entry))
          self.anomData.minTimestamp
        maxTimestamp := its.foldl (fun ts d => max ts (toUnsignedLong d.exit))
          self.anomData.maxTimestamp }
      funcStats := self.funcStats.insert funcId (its.foldl FuncStats.pushCall old) }

/-- Gather the statistics of all executions in the exec-data map. -/
def gatherStatistics (self : ADLocalFuncStatistics) (event : ADEvent) : ADLocalFuncStatistics :=
  event.functions.foldl (gatherFunction event)
    { self with anomData := { self.anomData with minTimestamp := ulongMax, maxTimestamp := 0 } }

/-- The number of inclusive and exclusive runtimes of a function. -/
def counts (self : ADLocalFuncStatistics) (funcId : ℕ) : ℚ × ℚ :=
  match self.funcStats.lookup funcId with
  | none => (0, 0)
  | some f => (f.inclusive.count, f.exclusive.count)

/-- Each call is counted once. -/
theorem foldl_pushCall_count (its : List ExecData) (f : FuncStats) :
    (its.foldl FuncStats.pushCall f).inclusive.count = f.inclusive.count + its.length ∧
      (its.foldl FuncStats.pushCall f).exclusive.count = f.exclusive.count + its.length := by
  induction its generalizing f with
  | nil => simp
  | cons d rest ih =>
    obtain ⟨hinclusive, hexclusive⟩ := ih (f.pushCall d)
    have hpush : ∀ (s : RunStats) (x : ℚ), (s.push x).count = s.count + 1 := fun _ _ => rfl
    rw [List.foldl_cons, hinclusive, hexclusive, List.length_cons, Nat.cast_add, Nat.cast_one,
      FuncStats.pushCall, hpush, hpush]
    exact ⟨by ring, by ring⟩

/-- A function's executions are counted, and no others. -/
theorem counts_gatherFunction (event : ADEvent) (self : ADLocalFuncStatistics)
    (funcId funcId' : ℕ) : (self.gatherFunction event funcId).counts funcId' =
      if funcId' = funcId then
        self.counts funcId' + (((event.execDataMap funcId).length : ℚ),
          ((event.execDataMap funcId).length : ℚ))
      else self.counts funcId' := by
  rw [gatherFunction]
  cases hcalls : event.execDataMap funcId with
  | nil =>
    rw [List.length_nil, Nat.cast_zero]
    change _ = if funcId' = funcId then self.counts funcId' + 0 else self.counts funcId'
    rw [add_zero, ite_self]
  | cons front rest =>
    by_cases hfunc : funcId' = funcId
    · obtain ⟨hinclusive, hexclusive⟩ := foldl_pushCall_count ((front :: rest).map event.calls)
        ((self.funcStats.lookup funcId).getD
          (FuncStats.new self.anomData.app funcId (event.calls front).funcname))
      rw [if_pos hfunc, hfunc, counts, AList.lookup_insert]
      simp only
      rw [hinclusive, hexclusive, counts, List.length_map]
      cases self.funcStats.lookup funcId <;> rfl
    · rw [if_neg hfunc, counts, counts, AList.lookup_insert_ne hfunc]

/-- Gathering counts every execution in the exec-data map, if they are kept under their own
functions. -/
theorem counts_gatherStatistics (event : ADEvent) (programIdx rank step funcId : ℕ)
    (hcalls : ∀ it ∈ event.execDataMap funcId,
      it < event.nextRef ∧ (event.calls it).fid = funcId) :
    ((new programIdx rank step).gatherStatistics event).counts funcId =
      (((event.execDataMap funcId).length : ℚ), ((event.execDataMap funcId).length : ℚ)) := by
  have hfold : ∀ (functions : List ℕ) (self : ADLocalFuncStatistics), functions.Nodup →
      (functions.foldl (gatherFunction event) self).counts funcId = self.counts funcId +
        if funcId ∈ functions then (((event.execDataMap funcId).length : ℚ),
          ((event.execDataMap funcId).length : ℚ)) else 0 := by
    intro functions
    induction functions with
    | nil => exact fun self _ => (add_zero _).symm
    | cons f rest ih =>
      intro self hnodup
      obtain ⟨hf, hrest⟩ := List.nodup_cons.mp hnodup
      rw [List.foldl_cons, ih _ hrest, counts_gatherFunction]
      by_cases heq : funcId = f
      · subst heq
        rw [if_pos rfl, if_neg hf, add_zero, if_pos List.mem_cons_self]
      · rw [if_neg heq]
        simp only [List.mem_cons, heq, false_or]
  rw [gatherStatistics, hfold event.functions _ (List.nodup_dedup _)]
  change (0 : ℚ × ℚ) + _ = _
  rw [zero_add]
  split
  · rfl
  · rename_i hnot
    have hnil : event.execDataMap funcId = [] := by
      refine List.eq_nil_iff_forall_not_mem.mpr fun it hit => hnot ?_
      obtain ⟨hlt, hfid⟩ := hcalls it hit
      exact List.mem_dedup.mpr (List.mem_map.mpr ⟨it, List.mem_range.mpr hlt, hfid⟩)
    rw [hnil]
    rfl

end ADLocalFuncStatistics

end Chimbuko
