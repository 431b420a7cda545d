import Chimbuko.Param.ParamInterface
import Chimbuko.Util.RunStats

/-!
# The model of the standard deviation algorithm

`core/param/sstd_param`: one `RunStats` for each model index. Updating a model with another
adds the statistics index by index, so in the coordinates of power sums a model is an element
of a commutative monoid and updating is its addition.
-/

namespace Chimbuko

open CentralMoments KeyedMap

/-- Run statistics for each model index. -/
structure SstdParam where
  runstats : ModelMap RunStats

namespace SstdParam

/-- A model without functions. -/
def new : SstdParam := ⟨∅⟩

/-- Forget all functions. -/
def clear (_ : SstdParam) : SstdParam := ⟨∅⟩

/-- `m_runstats[idx] += stats`; indexing a map creates a missing entry by default. -/
def addAt (old : Option RunStats) (stats : RunStats) : Except String RunStats :=
  .ok (old.getD default + stats)

/-- Add the statistics of a map of run statistics. -/
def updateMap (self : SstdParam) (runstats : ModelMap RunStats) : Except String SstdParam := do
  let runstats ← upsertAll addAt self.runstats runstats
  pure ⟨runstats⟩

/-- Add the statistics of another instance. -/
def update (self other : SstdParam) : Except String SstdParam :=
  self.updateMap other.runstats

/-- Take over the statistics of another instance. -/
def assign (self other : SstdParam) : SstdParam := ⟨other.runstats ∪ self.runstats⟩

variable {Buffer Json : Type}

/-- The model as the parameter server uses it. -/
def interface (archive : MapArchive RunStats Buffer Json) :
    ParamInterface SstdParam Buffer Json where
  new := new
  clear := clear
  serialize self := archive.save self.runstats
  updateSerialized self parameters := do
    let runstats ← archive.load parameters
    self.updateMap runstats
  update := update
  deserializeJson _ json := do
    let runstats ← archive.loadJson json
    pure ⟨runstats⟩

/-- Every entry describes some data. -/
def Valid (self : SstdParam) : Prop := ∀ k s, self.runstats.lookup k = some s → s.Valid

/-- The power sums of the collected data for each model index, zero where there is no entry. -/
def powerSums (self : SstdParam) : ℕ → WithZero (PowerSums ℚ) :=
  tally (fun s => s.moments.powerSums) self.runstats

/-- A new model has no power sums. -/
@[simp] theorem powerSums_new : new.powerSums = 0 := tally_empty _

/-- A new model is valid. -/
theorem valid_new : new.Valid := by
  intro k s hs
  simp [new] at hs

/-- A model of one function with valid statistics is valid. -/
theorem valid_singleton (k : ℕ) {s : RunStats} (hs : s.Valid) :
    (SstdParam.mk (AList.singleton k s)).Valid := by
  intro k' s' hs'
  have hs' : (AList.lookup k' (AList.insert k s ∅ : ModelMap RunStats)) = some s' := by
    rw [AList.insert_empty]
    exact hs'
  by_cases hk : k' = k
  · rw [hk, AList.lookup_insert] at hs'
    exact Option.some.inj hs' ▸ hs
  · rw [AList.lookup_insert_ne hk, AList.lookup_empty] at hs'
    cases hs'

/-- The statistics that `addAt` starts from describe some data. -/
private theorem valid_getD {self : SstdParam} (hself : self.Valid) (k : ℕ) :
    ((self.runstats.lookup k).getD default).Valid := by
  cases hold : self.runstats.lookup k with
  | none => exact RunStats.valid_new false
  | some old => exact hself k old hold

/-- Updating cannot fail. -/
theorem update_returns (self other : SstdParam) : ∃ result, self.update other = .ok result := by
  obtain ⟨runstats, hrun, -⟩ := upsertAll_ok addAt self.runstats other.runstats fun _ _ _ => rfl
  refine ⟨⟨runstats⟩, ?_⟩
  rw [update, updateMap, hrun]
  rfl

/-- Updating keeps entries that describe data, and adds power sums index by index. -/
theorem updateMap_ok {self : SstdParam} {runstats : ModelMap RunStats} (hself : self.Valid)
    (hother : (SstdParam.mk runstats).Valid) :
    ∃ result, self.updateMap runstats = .ok result ∧ result.Valid ∧
      result.powerSums = self.powerSums + (SstdParam.mk runstats).powerSums := by
  obtain ⟨result, hrun, hlookup, htally⟩ := tally_upsertAll addAt
    (fun s : RunStats => s.moments.powerSums) (fun s : RunStats => s.moments.powerSums)
    self.runstats runstats (by
      intro k s hs
      refine ⟨_, rfl, ?_⟩
      rw [RunStats.moments_add, powerSums_combine (valid_getD hself k) (hother k s hs)]
      cases hold : self.runstats.lookup k with
      | none =>
        rw [tally_of_lookup_none hold, zero_add, Option.getD_none, RunStats.moments_default,
          powerSums_zero, zero_add]
      | some old => rw [tally_of_lookup hold, Option.getD_some, WithZero.coe_add])
  refine ⟨⟨result⟩, ?_, ?_, htally⟩
  · rw [updateMap, hrun]
    rfl
  · intro k s hs
    rw [hlookup] at hs
    cases hw : runstats.lookup k with
    | none =>
      rw [hw] at hs
      exact hself k s hs
    | some w =>
      rw [hw] at hs
      cases hs
      exact RunStats.valid_add (valid_getD hself k) (hother k w hw)

/-- The power sums of an archived model. -/
def archivedSums (archive : MapArchive RunStats Buffer Json) (parameters : Buffer) :
    ℕ → WithZero (PowerSums ℚ) :=
  match archive.load parameters with
  | .ok runstats => (SstdParam.mk runstats).powerSums
  | .error _ => 0

/-- The models hold power sums: entries describe some data, and updating adds them up. -/
def holding (archive : MapArchive RunStats Buffer Json) :
    (interface archive).Holding (ℕ → WithZero (PowerSums ℚ)) where
  Holds self sums := self.Valid ∧ self.powerSums = sums
  WellFormed parameters :=
    ∃ runstats, archive.load parameters = .ok runstats ∧ (SstdParam.mk runstats).Valid
  payload := archivedSums archive
  new := ⟨valid_new, powerSums_new⟩
  updateSerialized := by
    rintro p q _ param ⟨hp, rfl⟩ ⟨runstats, hload, hvalid⟩ hrun
    obtain ⟨result, hresult, hvalid', hsums⟩ := updateMap_ok hp hvalid
    change (archive.load param >>= p.updateMap) = _ at hrun
    rw [hload] at hrun
    obtain rfl := Except.ok.inj (hresult.symm.trans hrun)
    refine ⟨hvalid', ?_⟩
    unfold archivedSums
    rw [hsums, hload]
  update := by
    rintro p p' q _ _ ⟨hp, rfl⟩ ⟨hp', rfl⟩ hrun
    obtain ⟨result, hresult, hvalid', hsums⟩ := updateMap_ok hp hp'
    obtain rfl := Except.ok.inj (hresult.symm.trans hrun)
    exact ⟨hvalid', hsums⟩

/-- Updating a fresh model with several others adds up all their power sums. -/
theorem updateAll_ok (archive : MapArchive RunStats Buffer Json) (others : List SstdParam)
    {self : SstdParam} (hself : self.Valid) (hothers : ∀ p ∈ others, p.Valid) :
    ∃ result, (interface archive).updateAll self others = .ok result ∧ result.Valid ∧
      result.powerSums = self.powerSums + (others.map powerSums).sum := by
  induction others generalizing self with
  | nil => exact ⟨self, rfl, hself, by simp⟩
  | cons p rest ih =>
    obtain ⟨next, hnext, hvalid, hsums⟩ := updateMap_ok hself (hothers p List.mem_cons_self)
    obtain ⟨result, hrun, hresult, htotal⟩ := ih hvalid fun q hq =>
      hothers q (List.mem_cons_of_mem _ hq)
    refine ⟨result, ?_, hresult, ?_⟩
    · change (self.updateMap p.runstats >>= fun s => (interface archive).updateAll s rest) = _
      rw [hnext]
      exact hrun
    · rw [htotal, hsums, List.map_cons, List.sum_cons, add_assoc]

/-- What the statistics of one index are when the models holding it are merged once each. -/
def mergedStats (models : List SstdParam) (k : ℕ) : Option RunStats :=
  match models.filterMap fun p => p.runstats.lookup k with
  | [] => none
  | s :: rest => some (rest.foldl (· + ·) s)

/-- Adding valid statistics adds their power sums. -/
private theorem foldl_add_ok (rest : List RunStats) {s : RunStats} (hs : s.Valid)
    (hrest : ∀ r ∈ rest, r.Valid) :
    (rest.foldl (· + ·) s).Valid ∧
      ((rest.foldl (· + ·) s).moments.powerSums : WithZero (PowerSums ℚ)) =
        s.moments.powerSums +
          (rest.map fun r => (r.moments.powerSums : WithZero (PowerSums ℚ))).sum := by
  induction rest generalizing s with
  | nil => exact ⟨hs, by simp⟩
  | cons r rest ih =>
    have hr : r.Valid := hrest r List.mem_cons_self
    obtain ⟨hvalid, hsum⟩ := ih (RunStats.valid_add hs hr) fun q hq =>
      hrest q (List.mem_cons_of_mem _ hq)
    refine ⟨hvalid, ?_⟩
    rw [List.foldl_cons, hsum, RunStats.moments_add, powerSums_combine hs hr, WithZero.coe_add,
      List.map_cons, List.sum_cons, add_assoc]

/-- The total of the models' power sums at one index, over the models holding that index. -/
private theorem sum_powerSums_apply (models : List SstdParam) (k : ℕ) :
    (models.map powerSums).sum k =
      ((models.filterMap fun p => p.runstats.lookup k).map fun r =>
        (r.moments.powerSums : WithZero (PowerSums ℚ))).sum := by
  induction models with
  | nil => rfl
  | cons p rest ih =>
    rw [List.map_cons, List.sum_cons, Pi.add_apply, ih]
    cases hp : p.runstats.lookup k with
    | none =>
      rw [powerSums, tally_of_lookup_none hp, zero_add]
      simp [hp]
    | some s =>
      rw [powerSums, tally_of_lookup hp]
      simp [hp]

/-- A model whose power sums are the total of some models' holds, at every index, the moments
of the statistics merged once each, and has no entry where none of the models has one. -/
theorem moments_eq_mergedStats {result : SstdParam} {models : List SstdParam}
    (hresult : result.Valid) (hmodels : ∀ p ∈ models, p.Valid)
    (hsums : result.powerSums = (models.map powerSums).sum) (k : ℕ) :
    (result.runstats.lookup k).map RunStats.moments =
      (mergedStats models k).map RunStats.moments := by
  have hk := congrFun hsums k
  rw [sum_powerSums_apply] at hk
  have hvalid : ∀ r ∈ models.filterMap fun p => p.runstats.lookup k, r.Valid := by
    intro r hr
    obtain ⟨p, hp, hlookup⟩ := List.mem_filterMap.mp hr
    exact hmodels p hp k r hlookup
  rw [mergedStats]
  generalize models.filterMap (fun p => p.runstats.lookup k) = held at hk hvalid
  cases held with
  | nil =>
    cases hres : result.runstats.lookup k with
    | none => rfl
    | some s =>
      rw [powerSums, tally_of_lookup hres] at hk
      exact absurd hk WithZero.coe_ne_zero
  | cons s rest =>
    obtain ⟨hfold, hsum⟩ := foldl_add_ok rest (hvalid s List.mem_cons_self) fun r hr =>
      hvalid r (List.mem_cons_of_mem _ hr)
    rw [List.map_cons, List.sum_cons, ← hsum] at hk
    cases hres : result.runstats.lookup k with
    | none =>
      rw [powerSums, tally_of_lookup_none hres] at hk
      exact absurd hk.symm WithZero.coe_ne_zero
    | some t =>
      rw [powerSums, tally_of_lookup hres, WithZero.coe_inj] at hk
      exact congrArg some ((hresult k t hres).ext_powerSums hfold hk)

end SstdParam

end Chimbuko
