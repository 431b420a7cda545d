import Mathlib.Algebra.BigOperators.Group.List.Basic
import Mathlib.Algebra.Order.Field.Basic
import Mathlib.Tactic.Linarith
import Mathlib.Tactic.Ring

/-!
# Masses spread over unit cells

Masses that are spread uniformly over consecutive cells of length one. The mass up to a point rises
with the point, from zero before the first cell to the whole mass past the last one; within a cell
it is the mass of the cells before it and the share of its own.
-/

namespace UniformMass

variable {K : Type*} [Field K] [LinearOrder K] [IsStrictOrderedRing K]

/-- The length of the first cell that lies before a point. -/
def covered (x : K) : K := max 0 (min 1 x)

/-- The mass of the cells that lies before a point. -/
def upTo : List K → K → K
  | [], _ => 0
  | c :: rest, x => c * covered x + upTo rest (x - 1)

omit [IsStrictOrderedRing K] in
/-- More is covered by more. -/
theorem covered_mono {x y : K} (h : x ≤ y) : covered x ≤ covered y :=
  max_le_max le_rfl (min_le_min le_rfl h)

/-- Nothing is covered before zero. -/
theorem covered_of_nonpos {x : K} (h : x ≤ 0) : covered x = 0 := by
  unfold covered
  rw [min_eq_right (h.trans zero_le_one), max_eq_left h]

/-- Everything is covered from one on. -/
theorem covered_of_one_le {x : K} (h : 1 ≤ x) : covered x = 1 := by
  unfold covered
  rw [min_eq_left h, max_eq_right zero_le_one]

omit [IsStrictOrderedRing K] in
/-- In between the part covered is the length. -/
theorem covered_of_mem {x : K} (h0 : 0 ≤ x) (h1 : x ≤ 1) : covered x = x := by
  unfold covered
  rw [min_eq_right h1, max_eq_right h0]

/-- Nothing lies before the first cell. -/
theorem upTo_of_nonpos (masses : List K) {x : K} (h : x ≤ 0) : upTo masses x = 0 := by
  induction masses generalizing x with
  | nil => rfl
  | cons c rest ih => rw [upTo, covered_of_nonpos h, mul_zero, zero_add, ih (by linarith)]

/-- Everything lies before the end of the last cell. -/
theorem upTo_of_length_le {masses : List K} {x : K} (h : (masses.length : K) ≤ x) :
    upTo masses x = masses.sum := by
  induction masses generalizing x with
  | nil => rfl
  | cons c rest ih =>
    rw [List.length_cons] at h
    push_cast at h
    have hlength : (0 : K) ≤ rest.length := Nat.cast_nonneg _
    rw [upTo, covered_of_one_le (by linarith), mul_one, List.sum_cons, ih (by linarith)]

/-- Within a cell: what lies in the cells before it, and the share of the cell itself. -/
theorem upTo_of_mem {before : List K} {c : K} (after : List K) {x : K}
    (hlower : (before.length : K) ≤ x) (hupper : x ≤ before.length + 1) :
    upTo (before ++ c :: after) x = before.sum + c * (x - before.length) := by
  induction before generalizing x with
  | nil =>
    simp only [List.length_nil, Nat.cast_zero, zero_add] at hlower hupper
    rw [List.nil_append, upTo, covered_of_mem hlower hupper, upTo_of_nonpos after (by linarith),
      List.sum_nil, List.length_nil, Nat.cast_zero, sub_zero, zero_add, add_zero]
  | cons b before ih =>
    rw [List.length_cons] at hlower hupper
    push_cast at hlower hupper
    have hlength : (0 : K) ≤ before.length := Nat.cast_nonneg _
    rw [List.cons_append, upTo, covered_of_one_le (by linarith), mul_one, List.sum_cons,
      ih (by linarith) (by linarith), List.length_cons]
    push_cast
    ring

section Nonneg

variable {masses : List K} (hmasses : ∀ c ∈ masses, 0 ≤ c)
include hmasses

/-- The mass up to a point rises with the point. -/
theorem upTo_mono {x y : K} (h : x ≤ y) : upTo masses x ≤ upTo masses y := by
  induction masses generalizing x y with
  | nil => exact le_rfl
  | cons c rest ih =>
    unfold upTo
    apply add_le_add
    · exact mul_le_mul_of_nonneg_left (covered_mono h) (hmasses c List.mem_cons_self)
    · apply ih
      · exact fun d hd => hmasses d (List.mem_cons_of_mem _ hd)
      · linarith

end Nonneg

end UniformMass
