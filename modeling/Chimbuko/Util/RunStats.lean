import Chimbuko.Library.CentralMoments
import Mathlib.Data.Rat.Defs
import Mathlib.Algebra.Order.Ring.Rat
import Mathlib.Tactic.FieldSimp
import Mathlib.Tactic.Linarith
import Mathlib.Tactic.Ring

/-!
# Single-pass statistics

The statistics collector of `core/util/RunStats`, over the rationals. The collected central
moments are a `CentralMoments.Moments`, adding two collectors is the pairwise combination of
these, and pushing a value is adding the collector of that one value.
-/

namespace Chimbuko

open CentralMoments

/-- `std::numeric_limits<double>::max()`. -/
def doubleMax : ℚ := (2 ^ 53 - 1) * 2 ^ 971

/-- `std::numeric_limits<double>::min()`, the least positive normal number. -/
def doubleMin : ℚ := 1 / 2 ^ 1022

/-- Count, mean, central moment sums, extremes and optionally the sum of the values seen. -/
structure RunStats where
  count : ℚ
  eta : ℚ
  rho : ℚ
  tau : ℚ
  phi : ℚ
  min : ℚ
  max : ℚ
  acc : ℚ
  doAccumulate : Bool
deriving DecidableEq

namespace RunStats

/-- The constructor, which clears all statistics. -/
def new (doAccumulate : Bool) : RunStats :=
  { count := 0, eta := 0, rho := 0, tau := 0, phi := 0, min := doubleMax, max := doubleMin,
    acc := 0, doAccumulate := doAccumulate }

/-- The default constructor does not keep the sum. -/
instance : Inhabited RunStats := ⟨new false⟩

/-- Include one value in the statistics. -/
def push (s : RunStats) (x : ℚ) : RunStats :=
  let delta := x - s.eta
  let delta_n := delta / (s.count + 1)
  let delta_n2 := delta_n * delta_n
  let term := delta * delta_n * s.count
  let count := s.count + 1
  { count := count
    eta := s.eta + delta_n
    phi := s.phi + (term * delta_n2 * (count * count - 3 * count + 3) +
      6 * delta_n2 * s.rho - 4 * delta_n * s.tau)
    tau := s.tau + (term * delta_n * (count - 2) - 3 * delta_n * s.rho)
    rho := s.rho + term
    min := if s.count = 0 then x else Min.min s.min x
    max := if s.count = 0 then x else Max.max s.max x
    acc := if s.doAccumulate then s.acc + x else s.acc
    doAccumulate := s.doAccumulate }

/-- The collector of the union of two data sets. -/
def add (a b : RunStats) : RunStats :=
  let sum_count := a.count + b.count
  if sum_count = 0 then new false
  else
    let delta := b.eta - a.eta
    let delta2 := delta * delta
    let delta3 := delta * delta2
    let delta4 := delta2 * delta2
    let doAccumulate := a.doAccumulate || b.doAccumulate
    let a_acc := if a.doAccumulate then a.acc else a.eta * a.count
    let b_acc := if b.doAccumulate then b.acc else b.eta * b.count
    { count := sum_count
      eta := (a.count * a.eta + b.count * b.eta) / sum_count
      rho := a.rho + b.rho + delta2 * a.count * b.count / sum_count
      tau := a.tau + b.tau +
        delta3 * a.count * b.count * (a.count - b.count) / (sum_count * sum_count) +
        3 * delta * (a.count * b.rho - b.count * a.rho) / sum_count
      phi := a.phi + b.phi +
        delta4 * a.count * b.count *
          (a.count * a.count - a.count * b.count + b.count * b.count) /
          (sum_count * sum_count * sum_count) +
        6 * delta2 * (a.count * a.count * b.rho + b.count * b.count * a.rho) /
          (sum_count * sum_count) +
        4 * delta * (a.count * b.tau - b.count * a.tau) / sum_count
      min := Min.min a.min b.min
      max := Max.max a.max b.max
      acc := if doAccumulate then a_acc + b_acc else 0
      doAccumulate := doAccumulate }

instance : Add RunStats := ⟨add⟩

/-- The collected central moments. -/
def moments (s : RunStats) : Moments ℚ := ⟨s.count, s.eta, s.rho, s.tau, s.phi⟩

/-- The statistics describe some data: values were pushed, or none and all moments are zero. -/
def Valid (s : RunStats) : Prop := s.moments.Valid

/-- New statistics have no moments. -/
@[simp] theorem moments_new (doAccumulate : Bool) : (new doAccumulate).moments = 0 := rfl

/-- New statistics have no moments. -/
@[simp] theorem moments_default : (default : RunStats).moments = 0 := rfl

/-- New statistics are valid. -/
theorem valid_new (doAccumulate : Bool) : (new doAccumulate).Valid := valid_zero

/-- Adding collectors combines their moments. -/
theorem moments_add (a b : RunStats) : (a + b).moments = a.moments.combine b.moments := by
  change (add a b).moments = _
  by_cases h : a.count + b.count = 0
  · simp only [add, h, if_true, moments_new]
    simp [Moments.combine, moments, h]
  · simp only [add, Moments.combine, moments, h, if_false, Moments.mk.injEq]
    refine ⟨trivial, trivial, ?_, ?_, ?_⟩ <;> ring

/-- Adding collectors of data sets gives a collector of a data set. -/
theorem valid_add {a b : RunStats} (ha : a.Valid) (hb : b.Valid) : (a + b).Valid := by
  rw [Valid, moments_add]
  exact valid_combine ha hb

/-- Pushing a value combines the moments with those of that value alone. -/
theorem moments_push {s : RunStats} (hs : s.Valid) (x : ℚ) :
    (s.push x).moments = s.moments.combine ⟨1, x, 0, 0, 0⟩ := by
  have hcount : s.count + 1 ≠ 0 := by
    have hnonneg : 0 ≤ s.count := hs.count_nonneg
    linarith
  simp only [push, Moments.combine, moments, hcount, if_false, Moments.mk.injEq]
  refine ⟨trivial, ?_, ?_, ?_, ?_⟩ <;> field_simp <;> ring

/-- Every collector built from the constructor by pushing values describes some data. -/
theorem valid_push {s : RunStats} (hs : s.Valid) (x : ℚ) : (s.push x).Valid := by
  rw [Valid, moments_push hs]
  exact valid_combine hs (Or.inl one_pos)

end RunStats

end Chimbuko
