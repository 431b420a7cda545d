import Chimbuko.Library.TransitionSystem
import Chimbuko.Param.HbosParam

/-!
# Runs of histogram-based models

Any number of model instances, such as the ones local to the ranks, the ones of the parameter
server's workers and the aggregated one, on which operations are called in any order. Beside
every entry stand the values that were pushed into the histograms it was merged from.
-/

namespace Chimbuko

open TransitionSystem

/-- The instances, and the values behind each of their entries. -/
structure HbosSystem where
  instances : ℕ → HbosParam
  pushed : ℕ → ℕ → List ℚ

/-- An operation on the instances. -/
inductive HbosOp
  | generateHistogram (obj idx : ℕ) (values : List ℚ) (globalThresholdInit : ℚ)
  | update (obj other : ℕ)
  | updateAndReturn (obj toFrom : ℕ)
  | clear (obj : ℕ)

/-- Histograms are generated from some values, and no instance is updated with itself, which
would lock its mutex twice. -/
def HbosOp.Allowed : HbosOp → Prop
  | .generateHistogram _ _ values _ => values ≠ []
  | .update obj other => obj ≠ other
  | .updateAndReturn obj toFrom => obj ≠ toFrom
  | .clear _ => True

namespace HbosSystem

/-- Fresh instances with one setting of the largest number of bins. -/
def start (maxbins : ℤ) : HbosSystem where
  instances _ := HbosParam.new.setMaxBins maxbins
  pushed _ _ := []

/-- Replace one instance and the values behind its entries. -/
def set (s : HbosSystem) (obj : ℕ) (param : HbosParam) (pushed : ℕ → List ℚ) : HbosSystem where
  instances := Function.update s.instances obj param
  pushed := Function.update s.pushed obj pushed

/-- The values behind the entries of an instance that another one is merged into. -/
def joined (s : HbosSystem) (obj other : ℕ) (idx : ℕ) : List ℚ :=
  s.pushed obj idx ++ s.pushed other idx

variable [LibM]

/-- Call one operation. A generated histogram replaces what the entry held before. -/
def exec (s : HbosSystem) : HbosOp → Except String HbosSystem
  | .generateHistogram obj idx values globalThresholdInit => do
    let param ← (s.instances obj).generateHistogram idx values globalThresholdInit
    pure (s.set obj param (Function.update (s.pushed obj) idx values))
  | .update obj other => do
    let param ← (s.instances obj).update (s.instances other)
    pure (s.set obj param (s.joined obj other))
  | .updateAndReturn obj toFrom => do
    let (param, returned) ← (s.instances obj).updateAndReturn (s.instances toFrom)
    pure ((s.set obj param (s.joined obj toFrom)).set toFrom returned fun idx =>
      if ((s.instances toFrom).hbosstats.lookup idx).isSome then s.joined obj toFrom idx else [])
  | .clear obj => pure (s.set obj (s.instances obj).clear fun _ => [])

/-- Every instance holds the values that were pushed into it. -/
def Holds (n : ℤ) (s : HbosSystem) : Prop :=
  ∀ obj, (s.instances obj).Holds n (s.pushed obj)

omit [LibM] in
/-- At the start no object holds values. -/
theorem holds_start (n : ℤ) : (start n).Holds n := fun _ => HbosParam.holds_new n

omit [LibM] in
/-- An object that is set holds its values, and the others hold theirs. -/
theorem Holds.set {n : ℤ} {s : HbosSystem} (hs : s.Holds n) (obj : ℕ) {param : HbosParam}
    {pushed : ℕ → List ℚ} (hparam : param.Holds n pushed) : (s.set obj param pushed).Holds n := by
  intro k
  by_cases hk : k = obj
  · subst hk
    simpa only [HbosSystem.set, Function.update_self] using hparam
  · simpa only [HbosSystem.set, Function.update_of_ne hk] using hs k

/-- No operation fails, and each keeps the values behind every entry. -/
theorem Holds.exec {n : ℤ} (hn : 1 ≤ n) (hn' : n ≤ 50000) {s : HbosSystem} (hs : s.Holds n)
    {op : HbosOp} (hop : op.Allowed) : ∃ t, s.exec op = .ok t ∧ t.Holds n := by
  cases op with
  | generateHistogram obj idx values globalThresholdInit =>
    obtain ⟨param, hrun, hparam⟩ := (hs obj).generateHistogram hn hn' idx hop globalThresholdInit
    exact ⟨_, by rw [HbosSystem.exec, hrun]; rfl, hs.set obj hparam⟩
  | update obj other =>
    obtain ⟨param, hrun, hparam⟩ := (hs obj).update hn hn' (hs other)
    exact ⟨_, by rw [HbosSystem.exec, hrun]; rfl, hs.set obj hparam⟩
  | updateAndReturn obj toFrom =>
    obtain ⟨param, returned, hrun, hparam, hreturned⟩ :=
      (hs obj).updateAndReturn hn hn' (hs toFrom)
    exact ⟨_, by rw [HbosSystem.exec, hrun]; rfl, (hs.set obj hparam).set toFrom hreturned⟩
  | clear obj => exact ⟨_, rfl, hs.set obj (hs obj).clear⟩

/-- A histogram is exact for some values: it has no bins without values, one bin if all values
are equal and the given number of bins else, its total is their number and its extremes are
theirs. -/
structure Exact (n : ℤ) (h : Histogram) (values : List ℚ) : Prop where
  total : h.totalCount = values.length
  nbin_none : values = [] → h.nbin = 0
  nbin_equal : values ≠ [] → (∀ v ∈ values, ∀ w ∈ values, v = w) → h.nbin = 1
  nbin_else : ¬(∀ v ∈ values, ∀ w ∈ values, v = w) → (h.nbin : ℤ) = n
  min : values ≠ [] → ∃ lo ∈ values, (∀ v ∈ values, lo ≤ v) ∧ h.min = lo
  max : values ≠ [] → ∃ hi ∈ values, (∀ v ∈ values, v ≤ hi) ∧ h.max = hi

omit [LibM] in
/-- A histogram that stores values is exact. -/
theorem exact_of_stored {n : ℤ} {h : Histogram} {values : List ℚ}
    (hh : HbosParam.Stored n h values) : Exact n h values := by
  rcases hh with ⟨rfl, hnbin⟩ | hrep
  · have hcounts : h.counts = [] := List.length_eq_zero_iff.mp hnbin
    refine ⟨?_, fun _ => hnbin, fun hne => absurd rfl hne, fun hdiff => absurd ?_ hdiff,
      fun hne => absurd rfl hne, fun hne => absurd rfl hne⟩
    · rw [Histogram.totalCount, hcounts]
      rfl
    · simp
  · have hne : values ≠ [] := List.ne_nil_of_mem hrep.min_mem
    refine ⟨hrep.total, fun h => absurd h hne, fun _ hsame => ?_, fun hdiff => ?_,
      fun _ => ⟨_, hrep.min_mem, fun v hv => (hrep.bounds v hv).1, hrep.valid.min_eq⟩,
      fun _ => ⟨_, hrep.max_mem, fun v hv => (hrep.bounds v hv).2, hrep.valid.max_eq⟩⟩
    · rcases hrep.shape with ⟨-, hone⟩ | ⟨hlt, -⟩
      · exact hone
      · exact absurd (hsame _ hrep.min_mem _ hrep.max_mem) hlt.ne
    · rcases hrep.shape with ⟨hsame, -⟩ | ⟨-, hnbin, -⟩
      · refine absurd (fun v hv w hw => ?_) hdiff
        exact le_antisymm
          ((hrep.bounds v hv).2.trans (hsame.ge.trans (hrep.bounds w hw).1))
          ((hrep.bounds w hw).2.trans (hsame.ge.trans (hrep.bounds v hv).1))
      · exact hnbin

/-- The system moves by operations that return. -/
def Step (s : HbosSystem) (op : HbosOp) (t : HbosSystem) : Prop := s.exec op = .ok t

/-- Along every run of instances that use the same number of bins no operation fails, and the
histogram stored for every model index is exact for the values pushed into it. -/
theorem model_exact {n : ℤ} (hn : 1 ≤ n) (hn' : n ≤ 50000) {s : HbosSystem}
    (hrun : Runs Step (fun _ op => op.Allowed) (start n) s) :
    (∀ op : HbosOp, op.Allowed → ∃ t, s.exec op = .ok t) ∧
      ∀ obj idx, Exact n ((s.instances obj).histogramAt idx) (s.pushed obj idx) := by
  have hs : s.Holds n := by
    refine hrun.invariant (HbosSystem.Holds n) (holds_start n) fun s op t hs hop hstep => ?_
    obtain ⟨t', ht', hholds⟩ := hs.exec hn hn' hop
    obtain rfl := Except.ok.inj (ht'.symm.trans hstep)
    exact hholds
  refine ⟨fun op hop => ?_, fun obj idx => exact_of_stored ((hs obj).2 idx)⟩
  obtain ⟨t, ht, -⟩ := hs.exec hn hn' hop
  exact ⟨t, ht⟩

end HbosSystem

/-- The mathematics library at the one argument that a default threshold needs. -/
@[reducible] private def defaultLibM : LibM where
  sqrt _ := 0
  pow _ _ := 0
  log2 _ := 4258062901059057 / 295147905179352825856

namespace HbosSystem

/-- A model of two different values merged with one of a third value is exact for all three. -/
theorem model_exact_merged :
    letI := defaultLibM
    ∃ s t u, (start 200).exec (.generateHistogram 0 5 [1, 2] 0) = .ok s ∧
      s.exec (.generateHistogram 1 5 [3] 0) = .ok t ∧ t.exec (.update 0 1) = .ok u ∧
      Exact 200 ((u.instances 0).histogramAt 5) (u.pushed 0 5) := by
  let _ := defaultLibM
  have hn : (1 : ℤ) ≤ 200 ∧ (200 : ℤ) ≤ 50000 := by decide
  have hstart : Runs Step (fun _ op => op.Allowed) (start 200) (start 200) := .refl
  have hfirst : HbosOp.Allowed (.generateHistogram 0 5 [1, 2] 0) := List.cons_ne_nil _ _
  have hsecond : HbosOp.Allowed (.generateHistogram 1 5 [3] 0) := List.cons_ne_nil _ _
  have hthird : HbosOp.Allowed (.update 0 1) := Nat.zero_ne_one
  obtain ⟨s, hs⟩ := (model_exact hn.1 hn.2 hstart).1 _ hfirst
  have hs' := hstart.tail hfirst hs
  obtain ⟨t, ht⟩ := (model_exact hn.1 hn.2 hs').1 _ hsecond
  have ht' := hs'.tail hsecond ht
  obtain ⟨u, hu⟩ := (model_exact hn.1 hn.2 ht').1 _ hthird
  exact ⟨s, t, u, hs, ht, hu, (model_exact hn.1 hn.2 (ht'.tail hthird hu)).2 0 5⟩

end HbosSystem

end Chimbuko
