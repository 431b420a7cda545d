import Chimbuko.Util.RunStatsMerge
import Mathlib.Algebra.BigOperators.Group.Multiset.Basic
import Mathlib.Algebra.Order.BigOperators.Group.Multiset
import Mathlib.Data.Multiset.Fold

/-!
# Statistics collected from other statistics

The server adds collectors with data to a fresh one, and adds the results to each other. A fresh
collector holds the greatest double as its minimum and the least positive one as its maximum, and
both take part in the extremes. Apart from that nothing depends on the order in which parts are
added, or on how they are grouped, so a collector is determined by the parts it was made from.
-/

namespace Chimbuko

open CentralMoments

attribute [ext] RunStats

/-- Folding two families from a start that is neutral to itself. -/
theorem fold_add_of_idem {A : Type*} {op : A → A → A} [Std.Commutative op]
    [Std.Associative op] {b : A} (hb : op b b = b) (s t : Multiset A) :
    (s + t).fold op b = op (s.fold op b) (t.fold op b) := by
  have hfold := Multiset.fold_add op b b s t
  rwa [hb] at hfold

namespace RunStats

/-- A collector of some values. -/
structure Sampled (s : RunStats) : Prop where
  valid : s.Valid
  count_ne_zero : s.count ≠ 0

/-- A collector to which one value was pushed. -/
theorem sampled_push (doAccumulate : Bool) (x : ℚ) : ((new doAccumulate).push x).Sampled := by
  refine ⟨valid_push (valid_new doAccumulate) x, ?_⟩
  change (0 : ℚ) + 1 ≠ 0
  norm_num

/-- The sum of the values, reconstructed if it is not kept. -/
def valueSum (s : RunStats) : ℚ := if s.doAccumulate then s.acc else s.eta * s.count

/-- The collector is a fresh one to which some others were added. -/
structure Collects (doAccumulate : Bool) (s : RunStats) (parts : Multiset RunStats) : Prop where
  valid : s.Valid
  powerSums_eq : s.moments.powerSums = (parts.map fun p => p.moments.powerSums).sum
  min_eq : s.min = (parts.map RunStats.min).fold Min.min doubleMax
  max_eq : s.max = (parts.map RunStats.max).fold Max.max doubleMin
  doAccumulate_eq : s.doAccumulate = (parts.map RunStats.doAccumulate).fold or doAccumulate
  valueSum_eq : s.valueSum = (parts.map valueSum).sum
  acc_eq_zero : s.doAccumulate = false → s.acc = 0
  sampled : ∀ p ∈ parts, p.Sampled

/-- Statistics that describe values have samples. -/
theorem Describes.sampled {s : RunStats} {xs : List ℚ} (h : s.Describes xs) : s.Sampled :=
  ⟨h.valid, h.count_ne_zero⟩

/-- New statistics collect nothing. -/
theorem collects_new (doAccumulate : Bool) : (new doAccumulate).Collects doAccumulate 0 := by
  constructor
  · exact valid_new doAccumulate
  · simp
  · simp [new]
  · simp [new]
  · simp [new]
  · simp [new, valueSum]
  · simp [new]
  · simp

/-- With samples the joint count is not zero. -/
theorem Sampled.count_add_ne_zero {s t : RunStats} (ht : t.Sampled) (hs : s.Valid) :
    s.count + t.count ≠ 0 := by
  have hpos : 0 ≤ s.count := hs.count_nonneg
  have hpos' : 0 ≤ t.count := ht.valid.count_nonneg
  have hne := ht.count_ne_zero
  intro hzero
  apply hne
  linarith

/-- Adding two collectors that are not both empty. -/
private theorem add_of_count_ne_zero {s t : RunStats} (h : s.count + t.count ≠ 0) :
    (s + t).min = Min.min s.min t.min ∧ (s + t).max = Max.max s.max t.max ∧
      (s + t).doAccumulate = (s.doAccumulate || t.doAccumulate) ∧
      (s + t).acc = if s.doAccumulate || t.doAccumulate then s.valueSum + t.valueSum else 0 := by
  have hadd : s + t = RunStats.add s t := rfl
  rw [hadd, RunStats.add]
  simp only [if_neg h]
  exact ⟨trivial, trivial, trivial, rfl⟩

/-- The sums of the values add up. -/
private theorem valueSum_add {s t : RunStats} (hs : s.Valid) (ht : t.Valid)
    (h : s.count + t.count ≠ 0) : (s + t).valueSum = s.valueSum + t.valueSum := by
  obtain ⟨-, -, hflag, hacc⟩ := add_of_count_ne_zero h
  by_cases hacc' : (s.doAccumulate || t.doAccumulate) = true
  · rw [if_pos hacc'] at hacc
    rw [valueSum, hflag, if_pos hacc', hacc]
  · have hsums := congrArg (fun p => p.2.1) (powerSums_combine hs ht)
    rw [← moments_add] at hsums
    have hmean : (s + t).count * (s + t).eta = s.count * s.eta + t.count * t.eta := hsums
    rw [Bool.not_eq_true, Bool.or_eq_false_iff] at hacc'
    rw [valueSum, valueSum, valueSum, hflag, hacc'.1, hacc'.2]
    simp only [Bool.or_self, Bool.false_eq_true, if_false]
    linarith

/-- Adding a collector with data adds a part. -/
theorem Collects.add_part {b : Bool} {s p : RunStats} {parts : Multiset RunStats}
    (h : s.Collects b parts) (hp : p.Sampled) : (s + p).Collects b (p ::ₘ parts) := by
  have hcount := hp.count_add_ne_zero h.valid
  obtain ⟨hmin, hmax, hflag, hacc⟩ := add_of_count_ne_zero hcount
  constructor
  · exact valid_add h.valid hp.valid
  · rw [moments_add, powerSums_combine h.valid hp.valid, h.powerSums_eq, Multiset.map_cons,
      Multiset.sum_cons, add_comm]
  · rw [hmin, h.min_eq, Multiset.map_cons, Multiset.fold_cons_left, min_comm]
  · rw [hmax, h.max_eq, Multiset.map_cons, Multiset.fold_cons_left, max_comm]
  · rw [hflag, h.doAccumulate_eq, Multiset.map_cons, Multiset.fold_cons_left, Bool.or_comm]
  · rw [valueSum_add h.valid hp.valid hcount, h.valueSum_eq, Multiset.map_cons,
      Multiset.sum_cons, add_comm]
  · intro hfalse
    rw [hflag] at hfalse
    simp [hacc, hfalse]
  · intro q hq
    rcases Multiset.mem_cons.mp hq with rfl | hmem
    · exact hp
    · exact h.sampled q hmem

/-- Adding two results adds their parts. -/
theorem Collects.add {b : Bool} {s t : RunStats} {parts parts' : Multiset RunStats}
    (h : s.Collects b parts) (h' : t.Collects b parts') (hcount : s.count + t.count ≠ 0) :
    (s + t).Collects b (parts + parts') := by
  obtain ⟨hmin, hmax, hflag, hacc⟩ := add_of_count_ne_zero hcount
  constructor
  · exact valid_add h.valid h'.valid
  · rw [moments_add, powerSums_combine h.valid h'.valid, h.powerSums_eq, h'.powerSums_eq,
      Multiset.map_add, Multiset.sum_add]
  · rw [hmin, h.min_eq, h'.min_eq, Multiset.map_add, fold_add_of_idem (min_self doubleMax)]
  · rw [hmax, h.max_eq, h'.max_eq, Multiset.map_add, fold_add_of_idem (max_self doubleMin)]
  · rw [hflag, h.doAccumulate_eq, h'.doAccumulate_eq, Multiset.map_add,
      fold_add_of_idem (Bool.or_self b)]
  · rw [valueSum_add h.valid h'.valid hcount, h.valueSum_eq, h'.valueSum_eq, Multiset.map_add,
      Multiset.sum_add]
  · intro hfalse
    rw [hflag] at hfalse
    simp [hacc, hfalse]
  · intro q hq
    rcases Multiset.mem_add.mp hq with hmem | hmem
    · exact h.sampled q hmem
    · exact h'.sampled q hmem

/-- A collector is determined by its parts. -/
theorem Collects.unique {b : Bool} {s t : RunStats} {parts : Multiset RunStats}
    (h : s.Collects b parts) (h' : t.Collects b parts) : s = t := by
  have hmoments : s.moments = t.moments :=
    h.valid.ext_powerSums h'.valid (h.powerSums_eq.trans h'.powerSums_eq.symm)
  have hflag : s.doAccumulate = t.doAccumulate := h.doAccumulate_eq.trans h'.doAccumulate_eq.symm
  have hsum : s.valueSum = t.valueSum := h.valueSum_eq.trans h'.valueSum_eq.symm
  simp only [moments, Moments.mk.injEq] at hmoments
  obtain ⟨hcount, heta, hrho, htau, hphi⟩ := hmoments
  apply RunStats.ext hcount heta hrho htau hphi
  · rw [h.min_eq, h'.min_eq]
  · rw [h.max_eq, h'.max_eq]
  · cases hacc : s.doAccumulate with
    | false => rw [h.acc_eq_zero hacc, h'.acc_eq_zero (hflag ▸ hacc)]
    | true =>
      rw [valueSum, valueSum, if_pos hacc, if_pos (hflag ▸ hacc)] at hsum
      exact hsum
  · exact hflag

/-- A collector counts the values of its parts. -/
theorem Collects.count_eq {b : Bool} {s : RunStats} {parts : Multiset RunStats}
    (h : s.Collects b parts) : s.count = (parts.map RunStats.count).sum := by
  have hfst : ∀ ps : Multiset RunStats,
      (ps.map fun p : RunStats => p.moments.powerSums).sum.1 = (ps.map RunStats.count).sum := by
    intro ps
    induction ps using Multiset.induction_on with
    | empty => simp
    | cons p rest ih =>
      rw [Multiset.map_cons, Multiset.map_cons, Multiset.sum_cons, Multiset.sum_cons, ← ih]
      rfl
  have hcount : s.count = (parts.map fun p : RunStats => p.moments.powerSums).sum.1 :=
    congrArg Prod.fst h.powerSums_eq
  rw [hcount, hfst]

/-- A collector with at least one part has data. -/
theorem Collects.sampled_of_ne_zero {b : Bool} {s : RunStats} {parts : Multiset RunStats}
    (h : s.Collects b parts) (hne : parts ≠ 0) : s.Sampled := by
  refine ⟨h.valid, ?_⟩
  rw [h.count_eq]
  obtain ⟨p, hp⟩ := Multiset.exists_mem_of_ne_zero hne
  obtain ⟨rest, rfl⟩ := Multiset.exists_cons_of_mem hp
  have hpart : 0 < p.count :=
    lt_of_le_of_ne (h.sampled p hp).valid.count_nonneg (h.sampled p hp).count_ne_zero.symm
  have hrest : 0 ≤ (rest.map RunStats.count).sum := by
    apply Multiset.sum_nonneg
    intro x hx
    obtain ⟨q, hq, rfl⟩ := Multiset.mem_map.mp hx
    exact (h.sampled q (Multiset.mem_cons_of_mem hq)).valid.count_nonneg
  rw [Multiset.map_cons, Multiset.sum_cons]
  exact (add_pos_of_pos_of_nonneg hpart hrest).ne'

/-- The statistics do not depend on the order of the values. -/
theorem Describes.unique {s t : RunStats} {xs ys : List ℚ} (h : s.Describes xs)
    (h' : t.Describes ys) (hperm : xs.Perm ys) : s = t := by
  have hdeviations : ∀ k, deviations k 0 xs = deviations k 0 ys := by
    intro k
    exact (hperm.map _).sum_eq
  have hmoments : s.moments = t.moments := by
    rw [h.moments_eq, h'.moments_eq]
    apply (valid_ofList xs).ext_powerSums (valid_ofList ys)
    rw [powerSums_ofList, powerSums_ofList, hperm.length_eq, hperm.sum_eq, hdeviations,
      hdeviations, hdeviations]
  have hset : {x | x ∈ xs} = {x | x ∈ ys} := by
    ext x
    exact hperm.mem_iff
  simp only [moments, Moments.mk.injEq] at hmoments
  obtain ⟨hcount, heta, hrho, htau, hphi⟩ := hmoments
  apply RunStats.ext hcount heta hrho htau hphi
  · exact h.min_eq.unique (hset ▸ h'.min_eq)
  · exact h.max_eq.unique (hset ▸ h'.max_eq)
  · rw [h.acc_eq, h'.acc_eq, hperm.sum_eq]
  · rw [h.doAccumulate, h'.doAccumulate]

/-- The collector keeps the sum, and the given values were pushed, on it or on others that were
added to it. -/
def Pushed (s : RunStats) (xs : Multiset ℚ) : Prop :=
  (xs = 0 ∧ s = new true) ∨ ∃ l : List ℚ, (l : Multiset ℚ) = xs ∧ s.Describes l

/-- Nothing was pushed to new statistics. -/
theorem pushed_new : (new true).Pushed 0 := Or.inl ⟨rfl, rfl⟩

/-- A value that is pushed was pushed. -/
theorem Pushed.push {s : RunStats} {xs : Multiset ℚ} (h : s.Pushed xs) (x : ℚ) :
    (s.push x).Pushed (x ::ₘ xs) := by
  right
  rcases h with ⟨rfl, rfl⟩ | ⟨l, rfl, hl⟩
  · exact ⟨[x], rfl, describes_push_new x⟩
  · refine ⟨l ++ [x], ?_, hl.push x⟩
    rw [← Multiset.coe_add, Multiset.coe_singleton, ← Multiset.singleton_add, add_comm]

/-- Adding statistics adds what was pushed. -/
theorem Pushed.add {s t : RunStats} {xs ys : Multiset ℚ} (h : s.Pushed xs) (h' : t.Pushed ys)
    (hxs : xs ≠ 0) (hys : ys ≠ 0) : (s + t).Pushed (xs + ys) := by
  right
  rcases h with ⟨rfl, -⟩ | ⟨l, rfl, hl⟩
  · exact absurd rfl hxs
  rcases h' with ⟨rfl, -⟩ | ⟨l', rfl, hl'⟩
  · exact absurd rfl hys
  · exact ⟨l ++ l', (Multiset.coe_add l l').symm, hl.add hl'⟩

/-- A collector is determined by the values pushed. -/
theorem Pushed.unique {s t : RunStats} {xs : Multiset ℚ} (h : s.Pushed xs) (h' : t.Pushed xs) :
    s = t := by
  have hempty : ∀ {u : RunStats} {l : List ℚ}, (l : Multiset ℚ) = 0 → ¬u.Describes l := by
    intro u l hl hdescribes
    have hmem : u.min ∈ l := hdescribes.min_eq.1
    rw [(Multiset.coe_eq_zero l).mp hl] at hmem
    exact List.not_mem_nil hmem
  rcases h with ⟨hxs, rfl⟩ | ⟨l, hl, hdescribes⟩
  · rcases h' with ⟨-, rfl⟩ | ⟨l', hl', hdescribes'⟩
    · rfl
    · exact absurd hdescribes' (hempty (hl'.trans hxs))
  · rcases h' with ⟨hxs, -⟩ | ⟨l', hl', hdescribes'⟩
    · exact absurd hdescribes (hempty (hl.trans hxs))
    · exact hdescribes.unique hdescribes' (Multiset.coe_eq_coe.mp (hl.trans hl'.symm))

end RunStats

end Chimbuko
