import Chimbuko.Library.IntervalExtract
import Chimbuko.Util.HistogramVBW
import Mathlib.Tactic.FieldSimp
import Mathlib.Tactic.Linarith
import Mathlib.Tactic.Ring

/-!
# What extraction from a variable bin width histogram does

The loop over the ranges, with its bin searches and splits, allots the content of the chain to
the ranges: it cuts the chain at the first lower edge, allots what lies above to the ranges and
leaves what lies below in place.
-/

namespace Chimbuko

namespace HistogramVBW

open IntervalChain

/-- Splitting a bin conserves its count. -/
theorem splitCounts_conserves : Conserves splitCounts := by
  intro b v
  rw [splitCounts]
  split <;> ring

/-- The fraction of a bin that lies below a point inside it. -/
def fractionBelow (b : Bin) (v : ℚ) : ℚ := (v - b.l) / (b.u - b.l)

/-- Part of a bin lies below a point inside. -/
theorem fractionBelow_pos {b : Bin} {v : ℚ} (hl : b.l < v) (hu : v < b.u) :
    0 < fractionBelow b v :=
  div_pos (sub_pos.mpr hl) (sub_pos.mpr (hl.trans hu))

/-- Not all of a bin lies below a point inside. -/
theorem fractionBelow_lt_one {b : Bin} {v : ℚ} (hl : b.l < v) (hu : v < b.u) :
    fractionBelow b v < 1 := by
  rw [fractionBelow, div_lt_one (sub_pos.mpr (hl.trans hu))]
  linarith

/-- Both sides of a split have a nonnegative count. -/
theorem splitCounts_nonneg {b : Bin} {v : ℚ} (hc : 0 ≤ b.c) (hl : b.l < v) (hu : v < b.u) :
    0 ≤ (splitCounts b v).1 ∧ 0 ≤ (splitCounts b v).2 := by
  have hpos : 0 < (v - b.l) / (b.u - b.l) := fractionBelow_pos hl hu
  have hone : (v - b.l) / (b.u - b.l) < 1 := fractionBelow_lt_one hl hu
  have hcount : (0 : ℚ) ≤ b.c := Int.cast_nonneg hc
  have h0 : 0 ≤ ⌊(v - b.l) / (b.u - b.l) * b.c + 1 / 2⌋ :=
    Int.floor_nonneg.mpr (by positivity)
  have h1 : 0 ≤ ⌊(1 - (v - b.l) / (b.u - b.l)) * b.c + 1 / 2⌋ := by
    refine Int.floor_nonneg.mpr ?_
    have := mul_nonneg (sub_nonneg.mpr hone.le) hcount
    linarith
  -- the smaller side rounds to at most the count, so the larger side stays nonnegative
  have hle : ∀ f : ℚ, f ≤ 1 / 2 → ⌊f * b.c + 1 / 2⌋ ≤ b.c := by
    intro f hf
    rcases hc.eq_or_lt with hzero | hpos
    · rw [← hzero]
      norm_num
    · have hone' : (1 : ℚ) ≤ b.c := by exact_mod_cast hpos
      refine Int.floor_le_iff.mpr ?_
      nlinarith
  rw [splitCounts]
  split
  · rename_i hlt
    refine ⟨h0, ?_⟩
    have := hle ((v - b.l) / (b.u - b.l)) (by linarith)
    change 0 ≤ _ + (b.c - _ - _)
    linarith
  · rename_i hlt
    refine ⟨?_, h1⟩
    have := hle (1 - (v - b.l) / (b.u - b.l)) (by linarith)
    change 0 ≤ _ + (b.c - _ - _)
    linarith

/-- The count below a split point is zero exactly when its share is less than one half, or is
one half of a single count. -/
theorem splitCounts_fst_eq_zero_iff {b : Bin} {v : ℚ} (hc : 0 ≤ b.c) (hl : b.l < v)
    (hu : v < b.u) :
    (splitCounts b v).1 = 0 ↔
      fractionBelow b v * b.c < 1 / 2 ∨ b.c = 1 ∧ fractionBelow b v = 1 / 2 := by
  have hpos := fractionBelow_pos hl hu
  have hone := fractionBelow_lt_one hl hu
  have hcount : (0 : ℚ) ≤ b.c := Int.cast_nonneg hc
  have hsplit : (splitCounts b v).1 =
      if fractionBelow b v < 1 - fractionBelow b v then ⌊fractionBelow b v * b.c + 1 / 2⌋
      else b.c - ⌊(1 - fractionBelow b v) * b.c + 1 / 2⌋ := by
    by_cases hlt : fractionBelow b v < 1 - fractionBelow b v
    · rw [if_pos hlt]
      exact congrArg Prod.fst (if_pos hlt)
    · rw [if_neg hlt]
      have hdebt : ∀ o0 o1 : ℤ, o0 + (b.c - o0 - o1) = b.c - o1 := fun o0 o1 => by ring
      exact (congrArg Prod.fst (if_neg hlt)).trans (hdebt _ _)
  rw [hsplit]
  generalize fractionBelow b v = f at hpos hone ⊢
  split
  · rename_i hlt
    rw [Int.floor_eq_zero_iff, Set.mem_Ico]
    constructor
    · rintro ⟨-, h⟩
      left
      linarith
    · rintro (h | ⟨hb, hf⟩)
      · exact ⟨by positivity, by linarith⟩
      · exact absurd hlt (by rw [hf]; norm_num)
  · rename_i hlt
    rw [sub_eq_zero, eq_comm, Int.floor_eq_iff]
    constructor
    · rintro ⟨h, -⟩
      have hle : f * b.c ≤ 1 / 2 := by linarith
      rcases hle.lt_or_eq with h | h
      · exact Or.inl h
      · right
        have hc1 : (b.c : ℚ) ≤ 1 := by nlinarith
        have hc0 : (b.c : ℚ) ≠ 0 := by
          intro h0
          rw [h0] at h
          norm_num at h
        have hb : b.c = 1 := by
          have h1 : b.c ≤ 1 := by exact_mod_cast hc1
          have h0 : b.c ≠ 0 := by exact_mod_cast hc0
          omega
        rw [hb] at h
        exact ⟨hb, by simpa using h⟩
    · rintro (h | ⟨hb, hf⟩)
      · constructor
        · linarith
        · nlinarith
      · rw [hb, hf]
        norm_num

/-- The bin search finds the bin that holds a value past the start of the chain, if any. -/
theorem searchBin_spec {a v : ℚ} {bins : List Bin} (h : Linked a bins) (hv : a < v) (cur : ℕ) :
    (endpoint a bins < v ∧ searchBin bins cur v = .ok none) ∨
      ∃ pre b post, bins = pre ++ b :: post ∧ endpoint a pre < v ∧ v ≤ b.u ∧
        searchBin bins cur v = .ok (some (cur + pre.length)) := by
  induction bins generalizing a cur with
  | nil => exact Or.inl ⟨hv, rfl⟩
  | cons b rest ih =>
    obtain ⟨rfl, -, hrest⟩ := h
    by_cases hu : v ≤ b.u
    · refine Or.inr ⟨[], b, rest, rfl, hv, hu, ?_⟩
      rw [searchBin, if_pos hu, if_neg (not_le_of_gt hv)]
      rfl
    · have hstep : searchBin (b :: rest) cur v = searchBin rest (cur + 1) v := by
        rw [searchBin, if_neg hu]
      rcases ih hrest (lt_of_not_ge hu) (cur + 1) with
        ⟨hend, hnone⟩ | ⟨pre, d, post, rfl, hpre, hdu, hsome⟩
      · exact Or.inl ⟨hend, hstep.trans hnone⟩
      · refine Or.inr ⟨b :: pre, d, post, rfl, hpre, hdu, ?_⟩
        rw [hstep, hsome, List.length_cons, Nat.add_right_comm, Nat.add_assoc]

/-- Cutting a chain at a value held by a given bin. -/
private theorem cut_append {a v : ℚ} (pre : List Bin) {b : Bin} {post : List Bin}
    (h : Linked a (pre ++ b :: post)) (hpre : endpoint a pre < v) (hu : v ≤ b.u) :
    cut splitCounts v (pre ++ b :: post) =
      if v = b.u then (pre ++ [b], post)
      else (pre ++ [lowerPart splitCounts b v], upperPart splitCounts b v :: post) := by
  induction pre generalizing a with
  | nil =>
    obtain ⟨rfl, -, hpost⟩ := h
    change cut splitCounts v (b :: post) = _
    rw [cut]
    split
    · rename_i hle
      have hv : v = b.u := le_antisymm hu hle
      rw [cut_of_le splitCounts v hpost hu, if_pos hv]
      rfl
    · rename_i hle
      rw [if_pos (show b.l < v from hpre), if_neg fun hv => hle hv.ge]
      rfl
  | cons d pre ih =>
    obtain ⟨-, -, hrest⟩ := h
    have hd : d.u ≤ v := by
      have hle : d.u ≤ endpoint d.u pre := ((linked_append pre _).mp hrest).1.le_endpoint
      exact hle.trans hpre.le
    change cut splitCounts v (d :: (pre ++ b :: post)) = _
    rw [cut, if_pos hd, ih hrest hpre]
    split <;> rfl

/-- Inserting behind the first part of a list. -/
private theorem insertIdx_append {α : Type*} (xs ys : List α) (x : α) :
    (xs ++ ys).insertIdx xs.length x = xs ++ x :: ys := by
  induction xs with
  | nil => rfl
  | cons y rest ih => exact congrArg (y :: ·) ih

/-- Splitting a bin at its upper edge leaves the bins as they are. -/
theorem split_edge (pre : List Bin) {b : Bin} (post : List Bin) (hl : b.l < b.u) :
    split (pre ++ b :: post) pre.length b.u =
      .ok (pre ++ b :: post, pre.length, pre.length + 1) := by
  have hget : (pre ++ b :: post)[pre.length]? = some b := by simp
  have hinside : ¬(b.u ≤ b.l ∨ b.u < b.u) := by simpa using hl
  rw [split, hget]
  simp only [if_neg hinside]
  rfl

/-- Splitting a bin at a point inside it replaces it by its parts. -/
theorem split_inside (pre : List Bin) {b : Bin} (post : List Bin) {v : ℚ} (hl : b.l < v)
    (hu : v < b.u) :
    split (pre ++ b :: post) pre.length v =
      .ok (pre ++ lowerPart splitCounts b v :: upperPart splitCounts b v :: post, pre.length,
        pre.length + 1) := by
  have hget : (pre ++ b :: post)[pre.length]? = some b := by simp
  have hinside : ¬(v ≤ b.l ∨ b.u < v) := by
    rintro (hle | hlt)
    · exact absurd hl (not_lt_of_ge hle)
    · exact absurd hu (not_lt_of_gt hlt)
  have hset : (pre ++ b :: post).set pre.length (lowerPart splitCounts b v) =
      pre ++ lowerPart splitCounts b v :: post := by
    simp
  have hget' : (pre ++ lowerPart splitCounts b v :: post)[pre.length]? =
      some (lowerPart splitCounts b v) := by
    simp
  have hinsert : insertRight (pre ++ lowerPart splitCounts b v :: post) pre.length
      (upperPart splitCounts b v) =
      .ok (pre ++ lowerPart splitCounts b v :: upperPart splitCounts b v :: post) := by
    rw [insertRight, hget']
    simp only [lowerPart, upperPart, lt_irrefl, false_or, not_lt_of_gt hu, if_false]
    refine congrArg Except.ok ?_
    have hlen : pre.length + 1 = (pre ++ [(⟨b.l, v, (splitCounts b v).1⟩ : Bin)]).length := by
      simp
    rw [List.append_cons, hlen, insertIdx_append, List.append_assoc]
    rfl
  rw [split, hget]
  simp only [if_neg hinside, if_neg hu.ne]
  rw [show ({ b with u := v, c := (splitCounts b v).1 } : Bin) = lowerPart splitCounts b v
    from rfl, hset]
  change (insertRight _ _ (upperPart splitCounts b v) >>= _) = _
  rw [hinsert]
  rfl

/-- Splitting the bin that holds a value cuts the chain there. -/
theorem split_spec {a v : ℚ} (done pre : List Bin) {b : Bin} {post : List Bin}
    (h : Linked a (pre ++ b :: post)) (hpre : endpoint a pre < v) (hu : v ≤ b.u) :
    ∃ lower upper, cut splitCounts v (pre ++ b :: post) = (lower, upper) ∧
      lower.length = pre.length + 1 ∧
      split (done ++ (pre ++ b :: post)) (done.length + pre.length) v =
        .ok (done ++ (lower ++ upper), done.length + pre.length,
          done.length + pre.length + 1) := by
  have hlink := ((linked_append pre _).mp h).2
  have hl : b.l < v := hlink.1 ▸ hpre
  rw [cut_append pre h hpre hu, ← List.append_assoc, ← List.length_append]
  by_cases hv : v = b.u
  · subst hv
    refine ⟨pre ++ [b], post, if_pos rfl, by simp, ?_⟩
    rw [split_edge _ _ hl, List.append_assoc, List.append_assoc]
    rfl
  · refine ⟨pre ++ [lowerPart splitCounts b v], upperPart splitCounts b v :: post, if_neg hv,
      by simp, ?_⟩
    rw [split_inside _ _ hl (lt_of_le_of_ne hu hv), List.append_assoc, List.append_assoc]
    rfl

/-- The last bin ends where the chain ends. -/
private theorem getLast?_upper (a : ℚ) {bins : List Bin} (h : bins ≠ []) :
    ∃ d, bins.getLast? = some d ∧ d.u = endpoint a bins := by
  induction bins generalizing a with
  | nil => exact absurd rfl h
  | cons b rest ih =>
    cases rest with
    | nil => exact ⟨b, rfl, rfl⟩
    | cons d rest =>
      obtain ⟨e, he, hu⟩ := ih b.u (List.cons_ne_nil _ _)
      exact ⟨e, (List.getLast?_cons_cons).trans he, hu⟩

/-- The first bin starts where the chain starts. -/
private theorem head?_lower {a : ℚ} {bins : List Bin} (hlink : Linked a bins) (h : bins ≠ []) :
    ∃ b, bins.head? = some b ∧ b.l = a := by
  cases bins with
  | nil => exact absurd rfl h
  | cons b rest => exact ⟨b, rfl, hlink.1⟩

/-- The first range starts above what is cut off at its lower edge. -/
theorem lowerBin_first {a : ℚ} {bins : List Bin} (h : Linked a bins) (hne : bins ≠ []) (v : ℚ) :
    lowerBin bins 0 v = .ok ((cut splitCounts v bins).1 ++ (cut splitCounts v bins).2,
      if (cut splitCounts v bins).2 = [] then none
      else some (cut splitCounts v bins).1.length) := by
  obtain ⟨first, hhead, hfirst⟩ := head?_lower h hne
  obtain ⟨last, hlast, hend⟩ := getLast?_upper a hne
  have hzero : bins[0]? = some first := by rw [← List.head?_eq_getElem?, hhead]
  have hget : getBin bins 0 v = if v ≤ a then .ok none else searchBin bins 0 v := by
    rw [getBin, hzero, ← hfirst]
    rfl
  rw [lowerBin, hget]
  by_cases hv : v ≤ a
  · rw [if_pos hv, cut_of_le splitCounts v h hv]
    simp only [bind, Except.bind, hhead, hlast, hfirst, hv, if_true, if_neg hne]
    rfl
  · rw [if_neg hv]
    rcases searchBin_spec h (lt_of_not_ge hv) 0 with
      ⟨hlt, hnone⟩ | ⟨pre, b, post, rfl, hpre, hu, hsome⟩
    · rw [hnone, cut_of_ge splitCounts v fun b hb => (h.upper_le_endpoint hb).trans hlt.le]
      simp only [bind, Except.bind, hhead, hlast, hfirst, hv, if_false, hend, hlt, if_true,
        List.append_nil]
      rfl
    · obtain ⟨lower, upper, hcut, hlength, hsplit⟩ := split_spec [] pre h hpre hu
      rw [hsome, hcut]
      change (split (pre ++ b :: post) (0 + pre.length) v >>= _) = _
      simp only [List.nil_append, List.length_nil] at hsplit
      rw [hsplit]
      change Except.ok _ = _
      congr 2
      rw [List.length_append, hlength, Nat.zero_add]
      by_cases hupper : upper = []
      · simp [hupper]
      · have hpos : 0 < upper.length := List.length_pos_iff.mpr hupper
        rw [if_neg (by omega), if_neg hupper]

/-- A range that ends where the chain starts, or before, has no last bin. -/
theorem upperBin_left {a u : ℚ} {bins : List Bin} (h : Linked a bins) (hne : bins ≠ [])
    (hu : u ≤ a) : upperBin bins 0 u = .ok (bins, none) := by
  obtain ⟨first, hhead, hfirst⟩ := head?_lower h hne
  obtain ⟨last, hlast, -⟩ := getLast?_upper a hne
  have hzero : bins[0]? = some first := by rw [← List.head?_eq_getElem?, hhead]
  have hget : getBin bins 0 u = .ok none := by
    rw [getBin, hzero]
    simp only [hfirst, hu, if_true]
    rfl
  rw [upperBin, hget]
  simp only [bind, Except.bind, hhead, hlast, hfirst, hu, if_true]
  rfl

/-- A range ends with the last bin that is cut off at its upper edge. -/
theorem upperBin_spec {a u : ℚ} {done rest : List Bin} (h : Linked a (done ++ rest))
    (hrest : rest ≠ []) (hu : endpoint a done < u) :
    upperBin (done ++ rest) done.length u =
      .ok (done ++ ((cut splitCounts u rest).1 ++ (cut splitCounts u rest).2),
        some (done.length + (cut splitCounts u rest).1.length - 1)) := by
  obtain ⟨hdone, hlink⟩ := (linked_append done rest).mp h
  obtain ⟨b, hb, hbl⟩ := head?_lower hlink hrest
  have hget : (done ++ rest)[done.length]? = some b := by
    rw [List.getElem?_append_right le_rfl, Nat.sub_self, ← List.head?_eq_getElem?, hb]
  have hbin : getBin (done ++ rest) done.length u = searchBin rest done.length u := by
    rw [getBin, hget, List.drop_left]
    simp only [hbl, not_le_of_gt hu, if_false]
  rw [upperBin, hbin]
  rcases searchBin_spec hlink hu done.length with
    ⟨hlt, hnone⟩ | ⟨pre, d, post, rfl, hpre, hdu, hsome⟩
  · obtain ⟨first, hhead, hfirst⟩ := head?_lower h (by simp [hrest])
    obtain ⟨last, hlast, hend⟩ := getLast?_upper a (show done ++ rest ≠ [] by simp [hrest])
    have hau : a < u := hdone.le_endpoint.trans_lt hu
    rw [endpoint_append] at hend
    rw [hnone, cut_of_ge splitCounts u fun c hc => (hlink.upper_le_endpoint hc).trans hlt.le]
    simp only [bind, Except.bind, hhead, hlast, hfirst, not_le_of_gt hau, if_false, hend, hlt,
      if_true, List.append_nil, List.length_append]
    rfl
  · obtain ⟨lower, upper, hcut, hlength, hsplit⟩ := split_spec done pre hlink hpre hdu
    rw [hsome, hcut]
    change (split (done ++ (pre ++ d :: post)) (done.length + pre.length) u >>= _) = _
    rw [hsplit, hlength]
    rfl

/-- A bin of the same extent without content. -/
def emptied (b : Bin) : Bin := ⟨b.l, b.u, 0⟩

/-- Draining takes the content of the bins between the two ends. -/
theorem drain_spec (done : List Bin) {lower : List Bin} (upper : List Bin) (h : lower ≠ []) :
    drain (done ++ (lower ++ upper)) done.length (done.length + lower.length - 1) =
      (content lower, done ++ lower.map emptied ++ upper) := by
  have hpos : 0 < lower.length := List.length_pos_iff.mpr h
  have hcount : done.length + lower.length - 1 + 1 - done.length = lower.length := by omega
  have hend : done.length + lower.length - 1 + 1 = (done ++ lower).length := by
    rw [List.length_append]
    omega
  have hdrop : (done ++ (lower ++ upper)).drop (done ++ lower).length = upper := by
    rw [← List.append_assoc, List.drop_left]
  rw [drain, hcount, hend, hdrop, List.drop_left, List.take_left, List.take_left]
  rfl

/-- A search for values past `edge` may start at this bin. -/
def Resumes (a : ℚ) (bins : List Bin) (start : ℕ) (edge : ℚ) : Prop :=
  ∃ pre rest, bins = pre ++ rest ∧ rest ≠ [] ∧ pre.length = start ∧
    (pre = [] ∨ endpoint a pre < edge)

/-- A search may resume for any later edge. -/
theorem Resumes.mono {a edge edge' : ℚ} {bins : List Bin} {start : ℕ}
    (h : Resumes a bins start edge) (hle : edge ≤ edge') : Resumes a bins start edge' := by
  obtain ⟨pre, rest, hbins, hrest, hlength, hpre⟩ := h
  exact ⟨pre, rest, hbins, hrest, hlength, hpre.imp_right fun hlt => hlt.trans_le hle⟩

/-- The bins before a value are passed over by the search. -/
theorem searchBin_append {a v : ℚ} {pre rest : List Bin} (h : Linked a pre)
    (hpre : endpoint a pre < v) (cur : ℕ) :
    searchBin (pre ++ rest) cur v = searchBin rest (cur + pre.length) v := by
  induction pre generalizing a cur with
  | nil => rfl
  | cons b pre ih =>
    have hb : b.u ≤ endpoint b.u pre := h.2.2.le_endpoint
    have hstep : searchBin (b :: pre ++ rest) cur v = searchBin (pre ++ rest) (cur + 1) v := by
      rw [List.cons_append, searchBin, if_neg (not_le_of_gt (hb.trans_lt hpre))]
    rw [hstep, ih h.2.2 hpre, List.length_cons, Nat.add_right_comm, Nat.add_assoc]

/-- A search that resumes finds what a search from the start finds. -/
theorem getBin_resumes {a v : ℚ} {bins : List Bin} {start : ℕ} (h : Linked a bins)
    (hresume : Resumes a bins start v) : getBin bins start v = getBin bins 0 v := by
  obtain ⟨pre, rest, rfl, hrest, rfl, hpre⟩ := hresume
  rcases hpre with rfl | hpre
  · rfl
  obtain ⟨hlinked, hlinkedRest⟩ := (linked_append pre rest).mp h
  cases hcases : pre with
  | nil => rfl
  | cons first pre' =>
    rw [← hcases]
    obtain ⟨b, rest', rfl⟩ := List.exists_cons_of_ne_nil hrest
    have hget : (pre ++ b :: rest')[pre.length]? = some b := by simp
    have hb : b.l < v := hlinkedRest.1.symm ▸ hpre
    have hfirst : (pre ++ b :: rest')[0]? = some first := by rw [hcases]; rfl
    have hlt : first.l < v := by
      have hle : a ≤ endpoint a pre := hlinked.le_endpoint
      have hl : first.l = a := by
        rw [hcases] at hlinked
        exact hlinked.1
      exact hl ▸ hle.trans_lt hpre
    rw [getBin, hget, getBin, hfirst]
    simp only [not_le_of_gt hb, not_le_of_gt hlt, if_false, List.drop_left, List.drop_zero]
    rw [searchBin_append hlinked hpre, Nat.zero_add]

/-- The first bin of a range, found by a search that resumes. -/
theorem lowerBin_resumes {a l : ℚ} {bins : List Bin} {start : ℕ} (h : Linked a bins)
    (hne : bins ≠ []) (hresume : Resumes a bins start l) :
    lowerBin bins start l = .ok ((cut splitCounts l bins).1 ++ (cut splitCounts l bins).2,
      if (cut splitCounts l bins).2 = [] then none
      else some (cut splitCounts l bins).1.length) := by
  rw [← lowerBin_first h hne l, lowerBin, lowerBin, getBin_resumes h hresume]

/-- Where the last bin of a range is found, and what is drained then; a range before the chain
has no last bin. -/
theorem upperBin_cases {a l u : ℚ} {bins : List Bin} (h : Linked a bins) (hlu : l < u)
    (hne : (cut splitCounts l bins).2 ≠ []) :
    (u ≤ a ∧ cut splitCounts l bins = ([], bins) ∧ upperBin bins 0 u = .ok (bins, none)) ∨
      ∃ lower upper, cut splitCounts u (cut splitCounts l bins).2 = (lower, upper) ∧
        lower ≠ [] ∧ endpoint a (cut splitCounts l bins).1 < u ∧
        upperBin ((cut splitCounts l bins).1 ++ (cut splitCounts l bins).2)
            (cut splitCounts l bins).1.length u =
          .ok ((cut splitCounts l bins).1 ++ (lower ++ upper),
            some ((cut splitCounts l bins).1.length + lower.length - 1)) := by
  have hlinked := cut_linked splitCounts l h
  have hrest := ((linked_append _ _).mp hlinked).2
  by_cases hua : u ≤ a
  · have hcut := cut_of_le splitCounts l h (hlu.le.trans hua)
    refine Or.inl ⟨hua, hcut, upperBin_left h ?_ hua⟩
    rw [hcut] at hne
    exact hne
  · have hend : endpoint a (cut splitCounts l bins).1 < u := by
      by_cases hal : a ≤ l
      · exact (endpoint_cut splitCounts l h hal).1.trans_lt hlu
      · rw [cut_of_le splitCounts l h (le_of_not_ge hal)]
        exact lt_of_not_ge hua
    refine Or.inr ⟨_, _, rfl, ?_, hend, upperBin_spec hlinked hne hend⟩
    obtain ⟨b, tail, hb⟩ := List.exists_cons_of_ne_nil hne
    rw [hb] at hrest ⊢
    exact cut_fst_ne_nil splitCounts u (hrest.1.symm ▸ hend)

/-- Draining the bins of a range extracts it. -/
theorem drain_extract {l u : ℚ} {bins lower upper : List Bin}
    (hcut : cut splitCounts u (cut splitCounts l bins).2 = (lower, upper)) (hne : lower ≠ []) :
    drain ((cut splitCounts l bins).1 ++ (lower ++ upper)) (cut splitCounts l bins).1.length
        ((cut splitCounts l bins).1.length + lower.length - 1) =
      extract splitCounts l u bins := by
  rw [drain_spec _ upper hne, extract, hcut, List.append_assoc]
  rfl

/-- A range with nothing above its lower end extracts nothing. -/
theorem extract_of_cut_nil {l : ℚ} (u : ℚ) {bins : List Bin}
    (h : (cut splitCounts l bins).2 = []) :
    extract splitCounts l u bins =
      (0, (cut splitCounts l bins).1 ++ (cut splitCounts l bins).2) := by
  rw [extract, h]
  rfl

/-- For data with extent, extraction over one range cuts the chain at its ends and clears what
lies between. -/
theorem extractUniformCountInRangeInt_eq {h : HistogramVBW} {a l u : ℚ} (hlink : Linked a h.bins)
    (hne : h.bins ≠ []) (hextent : h.max ≠ h.min) (hlu : l < u) :
    extractUniformCountInRangeInt h l u = .ok ((extract splitCounts l u h.bins).1,
      { h with bins := (extract splitCounts l u h.bins).2 }) := by
  have hlower := lowerBin_first hlink hne l
  rw [extractUniformCountInRangeInt, if_neg (not_le_of_gt hlu),
    if_neg (mt List.length_eq_zero_iff.mp hne), if_neg hextent, hlower]
  by_cases hrest : (cut splitCounts l h.bins).2 = []
  · rw [if_pos hrest, extract_of_cut_nil u hrest]
    rfl
  rw [if_neg hrest]
  rcases upperBin_cases hlink hlu hrest with
    ⟨hua, hcut, hupper⟩ | ⟨lower, upper, hcut, hlowerNe, -, hupper⟩
  · rw [extract_of_le hlink hlu hua, hcut]
    change (upperBin h.bins 0 u >>= _) = _
    rw [hupper]
    rfl
  · change (upperBin _ (cut splitCounts l h.bins).1.length u >>= _) = _
    rw [hupper]
    simp only [bind, Except.bind, drain_extract hcut hlowerNe]
    rfl

/-- After a range with a last bin, the search for the next range may start there. -/
theorem resumes_next {a l u : ℚ} {bins lower upper : List Bin} (h : Linked a bins)
    (hcut : cut splitCounts u (cut splitCounts l bins).2 = (lower, upper)) (hne : lower ≠ []) :
    Resumes a (extract splitCounts l u bins).2
      ((cut splitCounts l bins).1.length + lower.length - 1) u := by
  obtain ⟨init, d, rfl⟩ : ∃ init d, lower = init ++ [d] :=
    ⟨lower.dropLast, lower.getLast hne, (List.dropLast_append_getLast hne).symm⟩
  have hrest := ((linked_append _ _).mp (cut_linked splitCounts l h)).2
  have hinside := cut_linked splitCounts u hrest
  have hupper : ∀ b ∈ (cut splitCounts u (cut splitCounts l bins).2).1, b.u ≤ u := cut_fst_upper
  rw [hcut] at hinside hupper
  obtain ⟨-, hl, hlt, -⟩ := (linked_append init [d]).mp ((linked_append _ _).mp hinside).1
  refine ⟨(cut splitCounts l bins).1 ++ init.map cleared, cleared d :: upper, ?_,
    List.cons_ne_nil _ _, ?_, Or.inr ?_⟩
  · rw [extract, hcut, List.map_append, List.append_assoc, List.append_assoc]
    rfl
  · rw [List.length_append, List.length_map, List.length_append, List.length_singleton]
    omega
  · rw [endpoint_append, endpoint_cleared, ← hl]
    exact hlt.trans_le (hupper d (List.mem_append_right _ (List.mem_singleton.mpr rfl)))

/-- The loop over the ranges extracts one after another. -/
theorem extractRanges_eq {a : ℚ} {ranges : List (ℚ × ℚ)} {bins : List Bin} {start : ℕ}
    {prevEdge : Option ℚ} (h : Linked a bins) (hne : bins ≠ []) (hranges : InOrder ranges)
    (hprev : ∀ r ∈ ranges.head?, prevEdge.any (r.1 < ·) = false ∧ Resumes a bins start r.1) :
    extractRanges bins start prevEdge ranges = .ok (extractAll splitCounts ranges bins) := by
  induction ranges generalizing bins start prevEdge with
  | nil => rfl
  | cons r rest ih =>
    obtain ⟨l, u⟩ := r
    obtain ⟨hlu, hnext, hrest⟩ := hranges
    obtain ⟨hedge, hresume⟩ := hprev (l, u) rfl
    have hedge' : ∀ next ∈ rest.head?, (some u).any (next.1 < ·) = false := fun next hmem => by
      simpa using hnext next hmem
    obtain ⟨hlinked, -⟩ := extract_linked splitCounts l u h
    have hlower := lowerBin_resumes h hne hresume
    rw [extractRanges, if_neg (not_le_of_gt hlu), hedge, if_neg Bool.false_ne_true, hlower]
    by_cases habove : (cut splitCounts l bins).2 = []
    · -- nothing is left for this range and the ones after it
      have hextract := extract_of_cut_nil u habove
      have hend : ∀ b ∈ (extract splitCounts l u bins).2, b.u ≤ l := by
        rw [hextract, habove, List.append_nil]
        exact cut_fst_upper
      rw [if_pos habove, extractAll, extractAll_of_ge hrest fun next hmem b hb =>
        ((hend b hb).trans hlu.le).trans (hnext next hmem), hextract]
      rfl
    rw [if_neg habove, extractAll]
    rcases upperBin_cases h hlu habove with
      ⟨hua, hcut, hupper⟩ | ⟨lower, upper, hcut, hlowerNe, -, hupper⟩
    · have hextract : extract splitCounts l u bins = (0, bins) := extract_of_le h hlu hua
      rw [hextract, hcut]
      change (upperBin bins 0 u >>= _) = _
      rw [hupper]
      change (extractRanges bins start (some u) rest >>= _) = _
      rw [ih h hne hrest fun next hmem =>
        ⟨hedge' next hmem, hresume.mono (hlu.le.trans (hnext next hmem))⟩]
      rfl
    · change (upperBin _ (cut splitCounts l bins).1.length u >>= _) = _
      rw [hupper]
      have hresume' := resumes_next h hcut hlowerNe
      simp only [bind, Except.bind, drain_extract hcut hlowerNe]
      rw [ih hlinked (extract_ne_nil hne l u) hrest fun next hmem =>
        ⟨hedge' next hmem, hresume'.mono (hnext next hmem)⟩]
      rfl

/-- Extraction over adjacent ranges leaves behind what lies below the first edge and what lies
above the last; the rest goes to the ranges. -/
theorem extractRanges_chain {a e : ℚ} {bins : List Bin} (hlink : Linked a bins) (hne : bins ≠ [])
    {points : List ℚ} (hasc : Ascending e points) :
    ∃ bins', extractRanges bins 0 none (ranges e points) =
        .ok ((allot splitCounts points (cut splitCounts e bins).2).1, bins') ∧
      content bins' = content (cut splitCounts e bins).1 +
        content (allot splitCounts points (cut splitCounts e bins).2).2 := by
  have hrun : extractRanges bins 0 none (ranges e points) = _ :=
    extractRanges_eq hlink hne hasc.inOrder fun r _ =>
      ⟨rfl, [], bins, rfl, hne, rfl, Or.inl rfl⟩
  obtain ⟨hcounts, hleft⟩ := extractAll_ranges splitCounts_conserves hlink hasc
  exact ⟨_, hcounts ▸ hrun, hleft⟩

end HistogramVBW

end Chimbuko
