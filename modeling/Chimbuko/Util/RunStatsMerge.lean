import Chimbuko.Util.RunStats
import Mathlib.Order.Bounds.Basic

/-!
# Statistics merged from parts

Collectors are built from the constructor by pushing values and adding collectors in any tree.
The moments are those of all values in any case. The extremes and the sum are not: an empty
collector holds the least positive double as its maximum, which survives when it is added to one
with data, and adding two empty collectors forgets whether they were to keep the sum.
-/

namespace Chimbuko

open CentralMoments

/-- How a collector came about. -/
inductive StatsTree
  | new (doAccumulate : Bool)
  | push (t : StatsTree) (x : ℚ)
  | add (a b : StatsTree)

namespace RunStats

/-- Include some values in the statistics. -/
def pushAll (s : RunStats) (xs : List ℚ) : RunStats := xs.foldl push s

end RunStats

namespace StatsTree

open RunStats

/-- The collector. -/
def eval : StatsTree → RunStats
  | new doAccumulate => RunStats.new doAccumulate
  | push t x => t.eval.push x
  | add a b => a.eval + b.eval

/-- The values that were pushed. -/
def values : StatsTree → List ℚ
  | new _ => []
  | push t x => t.values ++ [x]
  | add a b => a.values ++ b.values

/-- The tree of pushing some values. -/
def ofList (doAccumulate : Bool) (xs : List ℚ) : StatsTree := xs.foldl push (new doAccumulate)

/-- Pushing some values is a tree. -/
theorem eval_foldl_push (xs : List ℚ) (t : StatsTree) :
    (xs.foldl push t).eval = t.eval.pushAll xs := by
  induction xs generalizing t with
  | nil => rfl
  | cons x rest ih => exact ih (t.push x)

/-- Values that are pushed come last. -/
theorem values_foldl_push (xs : List ℚ) (t : StatsTree) :
    (xs.foldl push t).values = t.values ++ xs := by
  induction xs generalizing t with
  | nil => exact (List.append_nil _).symm
  | cons x rest ih =>
    rw [List.foldl_cons, ih, values, List.append_assoc]
    rfl

/-- Pushing values one after another. -/
theorem eval_ofList (doAccumulate : Bool) (xs : List ℚ) :
    (ofList doAccumulate xs).eval = (RunStats.new doAccumulate).pushAll xs :=
  eval_foldl_push xs _

/-- The values of a list are the list. -/
theorem values_ofList (doAccumulate : Bool) (xs : List ℚ) :
    (ofList doAccumulate xs).values = xs :=
  values_foldl_push xs _

/-- The moments of a collector are those of all its values. -/
theorem moments_eval (t : StatsTree) : t.eval.moments = Moments.ofList t.values := by
  induction t with
  | new doAccumulate =>
    rw [eval, moments_new, values]
    exact ((valid_ofList []).eq_zero (by simp [Moments.ofList])).symm
  | push t x ih =>
    have hvalid : t.eval.Valid := by
      rw [RunStats.Valid, ih]
      exact valid_ofList _
    rw [eval, moments_push hvalid, ih, values, ofList_append, ofList_singleton]
  | add a b iha ihb => rw [eval, moments_add, iha, ihb, values, ofList_append]

/-- Every tree evaluates to valid statistics. -/
theorem valid_eval (t : StatsTree) : t.eval.Valid := by
  rw [RunStats.Valid, moments_eval]
  exact valid_ofList _

/-- Adding the collectors of two lists has the moments of pushing both lists into one collector,
which are those of the definition; and adding collectors is commutative and associative in the
moments, whichever way they were built. -/
theorem moments_merge :
    (∀ (a b c : Bool) (xs ys : List ℚ),
      ((RunStats.new a).pushAll xs + (RunStats.new b).pushAll ys).moments =
          ((RunStats.new c).pushAll (xs ++ ys)).moments ∧
        ((RunStats.new c).pushAll (xs ++ ys)).moments = Moments.ofList (xs ++ ys)) ∧
      (∀ s t : StatsTree, (s.eval + t.eval).moments = (t.eval + s.eval).moments) ∧
      ∀ s t u : StatsTree, (s.eval + t.eval + u.eval).moments =
        (s.eval + (t.eval + u.eval)).moments := by
  refine ⟨fun a b c xs ys => ?_, fun s t => ?_, fun s t u => ?_⟩
  · have hmerge := moments_eval (add (ofList a xs) (ofList b ys))
    have hpush := moments_eval (ofList c (xs ++ ys))
    rw [eval, eval_ofList, eval_ofList, values, values_ofList, values_ofList] at hmerge
    rw [eval_ofList, values_ofList] at hpush
    exact ⟨hmerge.trans hpush.symm, hpush⟩
  · rw [moments_add, moments_add, combine_comm (valid_eval s) (valid_eval t)]
  · rw [moments_add, moments_add, moments_add, moments_add,
      combine_assoc (valid_eval s) (valid_eval t) (valid_eval u)]

/-- Whether some collector of the tree was to keep the sum. -/
def anyAccumulate : StatsTree → Bool
  | new doAccumulate => doAccumulate
  | push t _ => t.anyAccumulate
  | add a b => a.anyAccumulate || b.anyAccumulate

/-- Whether a collector that was to keep the sum reaches the result through collectors that are
not both empty. -/
def keepsAccumulate : StatsTree → Bool
  | new doAccumulate => doAccumulate
  | push t _ => t.keepsAccumulate
  | add a b => (a.values ++ b.values ≠ []) && (a.keepsAccumulate || b.keepsAccumulate)

/-- Whether an empty collector was added to one with data. -/
def mixesEmpty : StatsTree → Bool
  | new _ => false
  | push t _ => (t.values ≠ []) && t.mixesEmpty
  | add a b =>
    if a.values = [] then b.values ≠ []
    else if b.values = [] then true
    else a.mixesEmpty || b.mixesEmpty

/-- The extremes and the sum are those of all values. -/
structure Exact (t : StatsTree) : Prop where
  min_eq : IsLeast {x | x ∈ t.values} t.eval.min
  max_eq : IsGreatest {x | x ∈ t.values} t.eval.max
  acc_eq : t.anyAccumulate = true → t.eval.doAccumulate = true ∧ t.eval.acc = t.values.sum

/-- The count is the number of values. -/
theorem count_eval (t : StatsTree) : t.eval.count = t.values.length :=
  congrArg Moments.count (moments_eval t)

/-- The count is zero exactly if there are no values. -/
theorem count_eq_zero_iff (t : StatsTree) : t.eval.count = 0 ↔ t.values = [] := by
  rw [count_eval, Nat.cast_eq_zero, List.length_eq_zero_iff]

/-- Adding two collectors yields an empty one if and only if both are empty. -/
theorem count_add_eq_zero_iff (a b : StatsTree) :
    a.eval.count + b.eval.count = 0 ↔ a.values = [] ∧ b.values = [] := by
  rw [count_eval, count_eval, ← Nat.cast_add, Nat.cast_eq_zero, Nat.add_eq_zero_iff,
    List.length_eq_zero_iff, List.length_eq_zero_iff]

/-- The mean times the count is the sum. -/
theorem eta_mul_count (t : StatsTree) : t.eval.eta * t.eval.count = t.values.sum := by
  have hmean : t.eval.eta = t.values.sum / t.values.length :=
    congrArg Moments.mean (moments_eval t)
  rw [hmean, count_eval]
  by_cases hzero : (t.values.length : ℚ) = 0
  · have hnil : t.values = [] := List.length_eq_zero_iff.mp (by exact_mod_cast hzero)
    simp [hnil]
  · exact div_mul_cancel₀ _ hzero

/-- Adding statistics without values gives new statistics. -/
theorem eval_add_of_empty {a b : StatsTree} (ha : a.values = []) (hb : b.values = []) :
    (add a b).eval = RunStats.new false := by
  change RunStats.add a.eval b.eval = _
  rw [RunStats.add]
  exact if_pos ((count_add_eq_zero_iff a b).mpr ⟨ha, hb⟩)

/-- What adding two collectors that are not both empty leaves apart from the moments. -/
theorem eval_add_of_nonempty {a b : StatsTree} (h : ¬(a.values = [] ∧ b.values = [])) :
    (add a b).eval.min = Min.min a.eval.min b.eval.min ∧
      (add a b).eval.max = Max.max a.eval.max b.eval.max ∧
      (add a b).eval.doAccumulate = (a.eval.doAccumulate || b.eval.doAccumulate) ∧
      (add a b).eval.acc = if a.eval.doAccumulate || b.eval.doAccumulate then
        (if a.eval.doAccumulate then a.eval.acc else a.eval.eta * a.eval.count) +
          (if b.eval.doAccumulate then b.eval.acc else b.eval.eta * b.eval.count) else 0 := by
  have hcount := (count_add_eq_zero_iff a b).not.mpr h
  have heval : (add a b).eval = RunStats.add a.eval b.eval := rfl
  rw [heval, RunStats.add]
  simp only [if_neg hcount]
  exact ⟨trivial, trivial, trivial, trivial⟩

/-- Whether the result keeps the sum, and that it is the sum if it does. -/
theorem doAccumulate_eval (t : StatsTree) : t.eval.doAccumulate = t.keepsAccumulate ∧
    (t.eval.doAccumulate = true → t.eval.acc = t.values.sum) := by
  induction t with
  | new doAccumulate => exact ⟨rfl, fun _ => rfl⟩
  | push t x ih =>
    refine ⟨ih.1, fun hacc => ?_⟩
    have hacc' : t.eval.doAccumulate = true := hacc
    change (if t.eval.doAccumulate then t.eval.acc + x else t.eval.acc) = (t.values ++ [x]).sum
    rw [if_pos hacc', ih.2 hacc', List.sum_append, List.sum_singleton]
  | add a b iha ihb =>
    by_cases h : a.values = [] ∧ b.values = []
    · rw [eval_add_of_empty h.1 h.2, keepsAccumulate, h.1, h.2]
      exact ⟨rfl, fun hacc => by cases hacc⟩
    · obtain ⟨-, -, hflag, hacc⟩ := eval_add_of_nonempty h
      have hne : decide (a.values ++ b.values ≠ []) = true := by
        rw [decide_eq_true_eq, Ne, List.append_eq_nil_iff]
        exact h
      refine ⟨?_, fun htrue => ?_⟩
      · rw [hflag, iha.1, ihb.1, keepsAccumulate, hne, Bool.true_and]
      · have hpart : ∀ {t : StatsTree},
            (t.eval.doAccumulate = true → t.eval.acc = t.values.sum) →
            (if t.eval.doAccumulate then t.eval.acc else t.eval.eta * t.eval.count) =
              t.values.sum := by
          intro t ht
          split
          · rename_i hacc
            exact ht hacc
          · exact eta_mul_count t
        rw [hacc, if_pos (hflag ▸ htrue), hpart iha.2, hpart ihb.2, values, List.sum_append]

/-- The minimum of a collector of doubles is that of its values, or the largest double. -/
theorem min_eval {t : StatsTree} (hdouble : ∀ x ∈ t.values, x ≤ doubleMax) :
    (t.values = [] → t.eval.min = doubleMax) ∧
      (t.values ≠ [] → IsLeast {x | x ∈ t.values} t.eval.min) := by
  induction t with
  | new doAccumulate => exact ⟨fun _ => rfl, fun h => absurd rfl h⟩
  | push t x ih =>
    refine ⟨fun h => absurd h (by simp [values]), fun _ => ?_⟩
    obtain ⟨-, ih⟩ := ih fun y hy => hdouble y (List.mem_append_left _ hy)
    have hset : {y | y ∈ (t.push x).values} = insert x {y | y ∈ t.values} := by
      ext y
      simp [values, or_comm]
    change IsLeast _ (if t.eval.count = 0 then x else Min.min t.eval.min x)
    rw [hset]
    split
    · rename_i hzero
      rw [(count_eq_zero_iff t).mp hzero]
      simp
    · rename_i hne
      rw [min_comm]
      exact (ih ((count_eq_zero_iff t).not.mp hne)).insert x
  | add a b iha ihb =>
    obtain ⟨ha, iha⟩ := iha fun y hy => hdouble y (List.mem_append_left _ hy)
    obtain ⟨hb, ihb⟩ := ihb fun y hy => hdouble y (List.mem_append_right _ hy)
    have hset : {y | y ∈ (add a b).values} = {y | y ∈ a.values} ∪ {y | y ∈ b.values} := by
      ext y
      simp [values]
    by_cases h : a.values = [] ∧ b.values = []
    · refine ⟨fun _ => by rw [eval_add_of_empty h.1 h.2]; rfl, fun hne => absurd ?_ hne⟩
      rw [values, h.1, h.2, List.append_nil]
    · refine ⟨fun hnil => absurd (List.append_eq_nil_iff.mp hnil) h, fun _ => ?_⟩
      have hle : ∀ {t : StatsTree}, (t.values ≠ [] → IsLeast {x | x ∈ t.values} t.eval.min) →
          t.values ≠ [] → (∀ x ∈ t.values, x ≤ doubleMax) → t.eval.min ≤ doubleMax :=
        fun ht hne hle => hle _ (ht hne).1
      rw [(eval_add_of_nonempty h).1, hset]
      by_cases hanil : a.values = []
      · have hbne : b.values ≠ [] := fun hbnil => h ⟨hanil, hbnil⟩
        rw [ha hanil, min_eq_right
          (hle ihb hbne fun y hy => hdouble y (List.mem_append_right _ hy)), hanil]
        simpa using ihb hbne
      · by_cases hbnil : b.values = []
        · rw [hb hbnil, min_eq_left
            (hle iha hanil fun y hy => hdouble y (List.mem_append_left _ hy)), hbnil]
          simpa using iha hanil
        · exact (iha hanil).union (ihb hbnil)

/-- The maximum of a collector is that of its values, together with the least positive double if
an empty collector was added to one with data. -/
theorem max_eval (t : StatsTree) :
    (t.values = [] → t.eval.max = doubleMin) ∧
      (t.values ≠ [] → IsGreatest
        {x | x ∈ t.values ∨ t.mixesEmpty = true ∧ x = doubleMin} t.eval.max) := by
  induction t with
  | new doAccumulate => exact ⟨fun _ => rfl, fun h => absurd rfl h⟩
  | push t x ih =>
    refine ⟨fun h => absurd h (by simp [values]), fun _ => ?_⟩
    change IsGreatest _ (if t.eval.count = 0 then x else Max.max t.eval.max x)
    by_cases hnil : t.values = []
    · rw [if_pos ((count_eq_zero_iff t).mpr hnil), values, mixesEmpty, hnil]
      simp [isGreatest_singleton]
    · have hset : {y | y ∈ (t.push x).values ∨ (t.push x).mixesEmpty = true ∧ y = doubleMin} =
          insert x {y | y ∈ t.values ∨ t.mixesEmpty = true ∧ y = doubleMin} := by
        ext y
        simp [values, mixesEmpty, hnil, or_comm, or_left_comm]
      rw [if_neg ((count_eq_zero_iff t).not.mpr hnil), hset, max_comm]
      exact (ih.2 hnil).insert x
  | add a b iha ihb =>
    by_cases h : a.values = [] ∧ b.values = []
    · refine ⟨fun _ => by rw [eval_add_of_empty h.1 h.2]; rfl, fun hne => absurd ?_ hne⟩
      rw [values, h.1, h.2, List.append_nil]
    · refine ⟨fun hnil => absurd (List.append_eq_nil_iff.mp hnil) h, fun _ => ?_⟩
      rw [(eval_add_of_nonempty h).2.1]
      by_cases hanil : a.values = []
      · have hbne : b.values ≠ [] := fun hbnil => h ⟨hanil, hbnil⟩
        have hmax := (ihb.2 hbne).insert doubleMin
        rw [iha.1 hanil]
        refine ⟨?_, fun y hy => hmax.2 ?_⟩
        · rcases hmax.1 with hmin | hmem | ⟨-, hmin⟩
          · exact Or.inr ⟨by simp [mixesEmpty, hanil, hbne], hmin⟩
          · exact Or.inl (List.mem_append_right _ hmem)
          · exact Or.inr ⟨by simp [mixesEmpty, hanil, hbne], hmin⟩
        · rcases hy with hy | ⟨-, rfl⟩
          · rw [values, hanil, List.nil_append] at hy
            exact Or.inr (Or.inl hy)
          · exact Or.inl rfl
      · by_cases hbnil : b.values = []
        · have hmax := (iha.2 hanil).insert doubleMin
          rw [ihb.1 hbnil, max_comm]
          refine ⟨?_, fun y hy => hmax.2 ?_⟩
          · rcases hmax.1 with hmin | hmem | ⟨-, hmin⟩
            · exact Or.inr ⟨by simp [mixesEmpty, hanil, hbnil], hmin⟩
            · exact Or.inl (List.mem_append_left _ hmem)
            · exact Or.inr ⟨by simp [mixesEmpty, hanil, hbnil], hmin⟩
          · rcases hy with hy | ⟨-, rfl⟩
            · rw [values, hbnil, List.append_nil] at hy
              exact Or.inr (Or.inl hy)
            · exact Or.inl rfl
        · have hset : {y | y ∈ (add a b).values ∨ (add a b).mixesEmpty = true ∧
                y = doubleMin} =
              {y | y ∈ a.values ∨ a.mixesEmpty = true ∧ y = doubleMin} ∪
                {y | y ∈ b.values ∨ b.mixesEmpty = true ∧ y = doubleMin} := by
            ext y
            simp only [values, mixesEmpty, hanil, hbnil, if_false, List.mem_append,
              Bool.or_eq_true, Set.mem_ofPred_eq, Set.mem_union]
            tauto
          rw [hset]
          exact (iha.2 hanil).union (ihb.2 hbnil)

end StatsTree

namespace RunStats

/-- The statistics of some values, with their sum. -/
structure Describes (s : RunStats) (xs : List ℚ) : Prop where
  moments_eq : s.moments = Moments.ofList xs
  min_eq : IsLeast {x | x ∈ xs} s.min
  max_eq : IsGreatest {x | x ∈ xs} s.max
  doAccumulate : s.doAccumulate = true
  acc_eq : s.acc = xs.sum

/-- What describes values counts them. -/
theorem Describes.count_ne_zero {s : RunStats} {xs : List ℚ} (h : s.Describes xs) :
    s.count ≠ 0 := by
  have hcount : s.count = xs.length := congrArg Moments.count h.moments_eq
  have hmem : s.min ∈ xs := h.min_eq.1
  rw [hcount, Nat.cast_ne_zero]
  exact (List.length_pos_of_mem hmem).ne'

/-- What describes values is valid. -/
theorem Describes.valid {s : RunStats} {xs : List ℚ} (h : s.Describes xs) : s.Valid := by
  rw [Valid, h.moments_eq]
  exact valid_ofList xs

/-- The first value of a collector that keeps the sum. -/
theorem describes_push_new (x : ℚ) : ((new true).push x).Describes [x] := by
  refine ⟨?_, ?_, ?_, rfl, ?_⟩
  · rw [moments_push (valid_new true), moments_new, ofList_singleton]
    simp [Moments.combine]
  · change IsLeast _ x
    simp [isLeast_singleton]
  · change IsGreatest _ x
    simp [isGreatest_singleton]
  · change (0 : ℚ) + x = [x].sum
    simp

/-- A further value. -/
theorem Describes.push {s : RunStats} {xs : List ℚ} (h : s.Describes xs) (x : ℚ) :
    (s.push x).Describes (xs ++ [x]) := by
  have hset : {y | y ∈ xs ++ [x]} = insert x {y | y ∈ xs} := by
    ext y
    simp [or_comm]
  refine ⟨?_, ?_, ?_, h.doAccumulate, ?_⟩
  · rw [moments_push h.valid, h.moments_eq, ofList_append, ofList_singleton]
  · change IsLeast _ (if s.count = 0 then x else Min.min s.min x)
    rw [if_neg h.count_ne_zero, hset, min_comm]
    exact h.min_eq.insert x
  · change IsGreatest _ (if s.count = 0 then x else Max.max s.max x)
    rw [if_neg h.count_ne_zero, hset, max_comm]
    exact h.max_eq.insert x
  · change (if s.doAccumulate then s.acc + x else s.acc) = _
    rw [if_pos h.doAccumulate, h.acc_eq, List.sum_append, List.sum_singleton]

/-- The values of two collectors. -/
theorem Describes.add {s t : RunStats} {xs ys : List ℚ} (hs : s.Describes xs)
    (ht : t.Describes ys) : (s + t).Describes (xs ++ ys) := by
  have hset : {y | y ∈ xs ++ ys} = {y | y ∈ xs} ∪ {y | y ∈ ys} := by
    ext y
    simp
  have hcount : s.count + t.count ≠ 0 := by
    have hpos : 0 < s.count := lt_of_le_of_ne hs.valid.count_nonneg hs.count_ne_zero.symm
    have hpos' : 0 < t.count := lt_of_le_of_ne ht.valid.count_nonneg ht.count_ne_zero.symm
    exact (add_pos hpos hpos').ne'
  have hadd : s + t = RunStats.add s t := rfl
  refine ⟨?_, ?_, ?_, ?_, ?_⟩
  · rw [moments_add, hs.moments_eq, ht.moments_eq, ofList_append]
  · rw [hadd, RunStats.add]
    simp only [if_neg hcount]
    rw [hset]
    exact hs.min_eq.union ht.min_eq
  · rw [hadd, RunStats.add]
    simp only [if_neg hcount]
    rw [hset]
    exact hs.max_eq.union ht.max_eq
  · rw [hadd, RunStats.add]
    simp only [if_neg hcount, hs.doAccumulate, Bool.true_or]
  · rw [hadd, RunStats.add]
    simp only [if_neg hcount, hs.doAccumulate, ht.doAccumulate, Bool.true_or, if_true]
    rw [hs.acc_eq, ht.acc_eq, List.sum_append]

end RunStats

end Chimbuko
