import Mathlib.Algebra.Order.Field.Basic
import Mathlib.Algebra.Ring.Prod
import Mathlib.Tactic.FieldSimp
import Mathlib.Tactic.Linarith
import Mathlib.Tactic.Ring

/-!
# Pairwise combination of central moments

A finite family of numbers is summarised by its count, its mean and the sums of the second,
third and fourth powers of the deviations from the mean. Two summaries can be combined
without the data. The combination is an awkward rational function of the summaries, but in
the coordinates given by the plain power sums it is addition, so associativity and
commutativity need no expansion of the formula.

The coordinate change is injective only on summaries that describe some family: those with a
positive count, and the zero summary.
-/

namespace CentralMoments

variable {K : Type*} [Field K]

/-- Count, mean, and the second to fourth central moment sums of a finite family. -/
@[ext]
structure Moments (K : Type*) where
  count : K
  mean : K
  second : K
  third : K
  fourth : K
deriving DecidableEq

/-- The sums of the powers zero to four of the family's members. -/
abbrev PowerSums (K : Type*) := K × K × K × K × K

instance : Zero (Moments K) := ⟨⟨0, 0, 0, 0, 0⟩⟩

/-- No values are counted in the empty family. -/
@[simp] theorem zero_count : (0 : Moments K).count = 0 := rfl

/-- The mean of the empty family. -/
@[simp] theorem zero_mean : (0 : Moments K).mean = 0 := rfl

/-- The second moment of the empty family. -/
@[simp] theorem zero_second : (0 : Moments K).second = 0 := rfl

/-- The third moment of the empty family. -/
@[simp] theorem zero_third : (0 : Moments K).third = 0 := rfl

/-- The fourth moment of the empty family. -/
@[simp] theorem zero_fourth : (0 : Moments K).fourth = 0 := rfl

/-- The power sums of a family, read off from its central moments. -/
def Moments.powerSums (a : Moments K) : PowerSums K :=
  (a.count, a.count * a.mean, a.second + a.count * a.mean ^ 2,
    a.third + 3 * a.mean * a.second + a.count * a.mean ^ 3,
    a.fourth + 4 * a.mean * a.third + 6 * a.mean ^ 2 * a.second + a.count * a.mean ^ 4)

/-- The summary of the union of two families; two empty families give the zero summary. -/
def Moments.combine [DecidableEq K] (a b : Moments K) : Moments K :=
  let n := a.count + b.count
  let d := b.mean - a.mean
  if n = 0 then 0
  else
    { count := n
      mean := (a.count * a.mean + b.count * b.mean) / n
      second := a.second + b.second + d ^ 2 * a.count * b.count / n
      third := a.third + b.third + d ^ 3 * a.count * b.count * (a.count - b.count) / n ^ 2 +
        3 * d * (a.count * b.second - b.count * a.second) / n
      fourth := a.fourth + b.fourth +
        d ^ 4 * a.count * b.count * (a.count ^ 2 - a.count * b.count + b.count ^ 2) / n ^ 3 +
        6 * d ^ 2 * (a.count ^ 2 * b.second + b.count ^ 2 * a.second) / n ^ 2 +
        4 * d * (a.count * b.third - b.count * a.third) / n }

/-- The zero summary has vanishing power sums. -/
@[simp] theorem powerSums_zero : (0 : Moments K).powerSums = 0 := by
  simp [Moments.powerSums]

/-- The count is the power sum of order zero. -/
@[simp] theorem powerSums_fst (a : Moments K) : a.powerSums.1 = a.count := rfl

/-- Away from the empty union, combination adds power sums. -/
theorem powerSums_combine_of_ne [DecidableEq K] (a b : Moments K) (h : a.count + b.count ≠ 0) :
    (a.combine b).powerSums = a.powerSums + b.powerSums := by
  simp only [Moments.combine, if_neg h, Moments.powerSums, Prod.mk_add_mk, Prod.mk.injEq]
  refine ⟨trivial, ?_, ?_, ?_, ?_⟩
  · field_simp
  · field_simp
    ring
  · field_simp
    ring
  · field_simp
    ring

section Ordered

variable [LinearOrder K]

/-- Summaries of an actual family: a positive count, or nothing at all. -/
def Moments.Valid (a : Moments K) : Prop := 0 < a.count ∨ a = 0

/-- The empty family is valid. -/
theorem valid_zero : (0 : Moments K).Valid := Or.inr rfl

/-- Counts are not negative. -/
theorem Moments.Valid.count_nonneg {a : Moments K} (ha : a.Valid) : 0 ≤ a.count := by
  rcases ha with ha | rfl
  · exact ha.le
  · exact le_rfl

/-- A valid summary with count zero is the zero summary. -/
theorem Moments.Valid.eq_zero {a : Moments K} (ha : a.Valid) (h : a.count = 0) : a = 0 := by
  rcases ha with ha | rfl
  · exact absurd h ha.ne'
  · rfl

/-- Valid summaries are determined by their power sums. -/
theorem Moments.Valid.ext_powerSums {a b : Moments K} (ha : a.Valid) (hb : b.Valid)
    (h : a.powerSums = b.powerSums) : a = b := by
  have hcount : a.count = b.count := congrArg Prod.fst h
  by_cases hzero : a.count = 0
  · rw [ha.eq_zero hzero, hb.eq_zero (hcount ▸ hzero)]
  simp only [Moments.powerSums, Prod.mk.injEq] at h
  obtain ⟨-, h1, h2, h3, h4⟩ := h
  have hmean : a.mean = b.mean := by
    rw [← hcount] at h1
    exact mul_left_cancel₀ hzero h1
  have hsecond : a.second = b.second := by
    rw [hcount, hmean] at h2
    exact add_right_cancel h2
  have hthird : a.third = b.third := by
    rw [hcount, hmean, hsecond] at h3
    exact add_right_cancel (add_right_cancel h3)
  have hfourth : a.fourth = b.fourth := by
    rw [hcount, hmean, hsecond, hthird] at h4
    exact add_right_cancel (add_right_cancel (add_right_cancel h4))
  exact Moments.ext hcount hmean hsecond hthird hfourth

variable [IsStrictOrderedRing K]

/-- The union of two families is a family. -/
theorem valid_combine {a b : Moments K} (ha : a.Valid) (hb : b.Valid) : (a.combine b).Valid := by
  by_cases h : a.count + b.count = 0
  · right
    simp [Moments.combine, h]
  · left
    simp only [Moments.combine, if_neg h]
    exact lt_of_le_of_ne (add_nonneg ha.count_nonneg hb.count_nonneg) (Ne.symm h)

/-- On valid summaries combination is addition of power sums. -/
theorem powerSums_combine {a b : Moments K} (ha : a.Valid) (hb : b.Valid) :
    (a.combine b).powerSums = a.powerSums + b.powerSums := by
  by_cases h : a.count + b.count = 0
  · have hza : a.count = 0 := by linarith [ha.count_nonneg, hb.count_nonneg]
    have hzb : b.count = 0 := by linarith [ha.count_nonneg, hb.count_nonneg]
    rw [ha.eq_zero hza, hb.eq_zero hzb]
    simp [Moments.combine]
  · exact powerSums_combine_of_ne a b h

/-- Combination of families does not depend on their order. -/
theorem combine_comm {a b : Moments K} (ha : a.Valid) (hb : b.Valid) :
    a.combine b = b.combine a := by
  refine (valid_combine ha hb).ext_powerSums (valid_combine hb ha) ?_
  rw [powerSums_combine ha hb, powerSums_combine hb ha, add_comm]

/-- Combination of families does not depend on how they are grouped. -/
theorem combine_assoc {a b c : Moments K} (ha : a.Valid) (hb : b.Valid) (hc : c.Valid) :
    (a.combine b).combine c = a.combine (b.combine c) := by
  refine (valid_combine (valid_combine ha hb) hc).ext_powerSums
    (valid_combine ha (valid_combine hb hc)) ?_
  rw [powerSums_combine (valid_combine ha hb) hc, powerSums_combine ha hb,
    powerSums_combine ha (valid_combine hb hc), powerSums_combine hb hc, add_assoc]

end Ordered

section Family

/-- The sum of the powers of the deviations of some numbers from a centre. -/
def deviations (k : ℕ) (centre : K) (xs : List K) : K := (xs.map fun x => (x - centre) ^ k).sum

/-- The central moments of some numbers by their definition. The mean of no numbers is zero. -/
def Moments.ofList (xs : List K) : Moments K :=
  let mean := xs.sum / xs.length
  { count := xs.length
    mean := mean
    second := deviations 2 mean xs
    third := deviations 3 mean xs
    fourth := deviations 4 mean xs }

/-- Deviations from a centre expand into power sums. -/
private theorem deviations_expand (centre : K) (xs : List K) :
    deviations 2 centre xs = deviations 2 0 xs - 2 * centre * xs.sum +
        xs.length * centre ^ 2 ∧
      deviations 3 centre xs = deviations 3 0 xs - 3 * centre * deviations 2 0 xs +
        3 * centre ^ 2 * xs.sum - xs.length * centre ^ 3 ∧
      deviations 4 centre xs = deviations 4 0 xs - 4 * centre * deviations 3 0 xs +
        6 * centre ^ 2 * deviations 2 0 xs - 4 * centre ^ 3 * xs.sum +
          xs.length * centre ^ 4 := by
  induction xs with
  | nil => simp [deviations]
  | cons x rest ih =>
    obtain ⟨h2, h3, h4⟩ := ih
    have hcons : ∀ k c, deviations k c (x :: rest) = (x - c) ^ k + deviations k c rest :=
      fun _ _ => rfl
    simp only [hcons, h2, h3, h4, List.sum_cons, List.length_cons, Nat.cast_succ, sub_zero]
    refine ⟨?_, ?_, ?_⟩ <;> ring

/-- The moments of one value. -/
theorem ofList_singleton (x : K) : Moments.ofList [x] = ⟨1, x, 0, 0, 0⟩ := by
  simp [Moments.ofList, deviations]

variable [LinearOrder K] [IsStrictOrderedRing K]

/-- The moments of some numbers are those of a family. -/
theorem valid_ofList (xs : List K) : (Moments.ofList xs).Valid := by
  cases xs with
  | nil =>
    refine Or.inr ?_
    simp [Moments.ofList, deviations]
    rfl
  | cons x rest =>
    refine Or.inl ?_
    change (0 : K) < ((rest.length + 1 : ℕ) : K)
    exact_mod_cast Nat.succ_pos rest.length

/-- The power sums of some numbers. -/
theorem powerSums_ofList (xs : List K) : (Moments.ofList xs).powerSums =
    ((xs.length : K), xs.sum, deviations 2 0 xs, deviations 3 0 xs, deviations 4 0 xs) := by
  by_cases hxs : (xs.length : K) = 0
  · have hnil : xs = [] := List.eq_nil_of_length_eq_zero (by exact_mod_cast hxs)
    subst hnil
    simp [Moments.powerSums, Moments.ofList, deviations]
  · have hsum : xs.sum = xs.length * (xs.sum / xs.length) := by
      rw [mul_div_cancel₀ _ hxs]
    obtain ⟨h2, h3, h4⟩ := deviations_expand (xs.sum / xs.length) xs
    simp only [Moments.powerSums, Moments.ofList, h2, h3, h4, Prod.mk.injEq]
    generalize xs.sum / (xs.length : K) = mean at hsum
    rw [hsum]
    refine ⟨trivial, rfl, ?_, ?_, ?_⟩ <;> ring

/-- The moments of two families together are those of the families combined. -/
theorem ofList_append (xs ys : List K) :
    Moments.ofList (xs ++ ys) = (Moments.ofList xs).combine (Moments.ofList ys) := by
  refine (valid_ofList _).ext_powerSums (valid_combine (valid_ofList xs) (valid_ofList ys)) ?_
  rw [powerSums_combine (valid_ofList xs) (valid_ofList ys)]
  simp only [powerSums_ofList, deviations, List.map_append, List.sum_append, List.length_append,
    Nat.cast_add, Prod.mk_add_mk]

end Family

end CentralMoments
