import Mathlib.Algebra.BigOperators.Group.List.Basic
import Mathlib.Order.Lattice

/-!
# Chains of half-open intervals

A chain is a list of intervals `(l, u]`, each starting where the one before it ends, with a
content for each interval. Cutting a chain at a point divides the interval that holds the point
and its content by a sharing rule; cutting it at successive points allots its content to the
ranges between them. If the rule conserves content then so do cutting and allotting, and what
the ranges miss is what lies before the first point or after the last.
-/

namespace IntervalChain

/-- An interval with lower and upper edge, and its content. -/
structure Bin (K M : Type*) where
  l : K
  u : K
  c : M
deriving DecidableEq

variable {K M : Type*} [LinearOrder K]

/-- The bins are nonempty and each starts where the one before it ends, the first one at `a`. -/
def Linked (a : K) : List (Bin K M) → Prop
  | [] => True
  | b :: rest => b.l = a ∧ b.l < b.u ∧ Linked b.u rest

/-- Where a chain that starts at `a` ends. -/
def endpoint (a : K) : List (Bin K M) → K
  | [] => a
  | b :: rest => endpoint b.u rest

/-- A rule that divides the content of a bin between its parts below and above a point. -/
abbrev Share (K M : Type*) := Bin K M → K → M × M

/-- The part of a bin below a point. -/
def lowerPart (share : Share K M) (b : Bin K M) (v : K) : Bin K M := ⟨b.l, v, (share b v).1⟩

/-- The part of a bin above a point. -/
def upperPart (share : Share K M) (b : Bin K M) (v : K) : Bin K M := ⟨v, b.u, (share b v).2⟩

/-- The parts of a chain below and above a point. -/
def cut (share : Share K M) (v : K) : List (Bin K M) → List (Bin K M) × List (Bin K M)
  | [] => ([], [])
  | b :: rest =>
    if b.u ≤ v then (b :: (cut share v rest).1, (cut share v rest).2)
    else if b.l < v then ([lowerPart share b v], upperPart share b v :: rest)
    else ([], b :: rest)

/-- The ranges between successive points. -/
def ranges (a : K) : List K → List (K × K)
  | [] => []
  | v :: rest => (a, v) :: ranges v rest

/-- Each point is past the one before it, the first one past `a`. -/
def Ascending (a : K) : List K → Prop
  | [] => True
  | v :: rest => a < v ∧ Ascending v rest

omit [LinearOrder K] in
/-- There is one range for each point. -/
@[simp] theorem ranges_length (a : K) (points : List K) :
    (ranges a points).length = points.length := by
  induction points generalizing a with
  | nil => rfl
  | cons v rest ih => exact congrArg Nat.succ (ih v)

/-- No bins are linked. -/
@[simp] theorem linked_nil (a : K) : Linked a ([] : List (Bin K M)) := trivial

/-- Bins and others are linked if the others start where these end. -/
theorem linked_append {a : K} (xs ys : List (Bin K M)) :
    Linked a (xs ++ ys) ↔ Linked a xs ∧ Linked (endpoint a xs) ys := by
  induction xs generalizing a with
  | nil => simp [endpoint]
  | cons b rest ih => simp only [List.cons_append, Linked, endpoint, ih, and_assoc]

omit [LinearOrder K] in
/-- Bins and others end where the others end. -/
theorem endpoint_append (a : K) (xs ys : List (Bin K M)) :
    endpoint a (xs ++ ys) = endpoint (endpoint a xs) ys := by
  induction xs generalizing a with
  | nil => rfl
  | cons b rest ih => exact ih b.u

/-- A chain ends no earlier than it starts. -/
theorem Linked.le_endpoint {a : K} {bins : List (Bin K M)} (h : Linked a bins) :
    a ≤ endpoint a bins := by
  induction bins generalizing a with
  | nil => exact le_rfl
  | cons b rest ih => exact (h.1 ▸ h.2.1.le).trans (ih h.2.2)

/-- Every bin ends no later than the chain. -/
theorem Linked.upper_le_endpoint {a : K} {bins : List (Bin K M)} (h : Linked a bins)
    {b : Bin K M} (hb : b ∈ bins) : b.u ≤ endpoint a bins := by
  induction bins generalizing a with
  | nil => exact absurd hb List.not_mem_nil
  | cons d rest ih =>
    rcases List.mem_cons.mp hb with rfl | hb
    · exact h.2.2.le_endpoint
    · exact ih h.2.2 hb

/-- The upper edges of a chain ascend. -/
theorem Linked.ascending {a : K} {bins : List (Bin K M)} (h : Linked a bins) :
    Ascending a (bins.map Bin.u) := by
  induction bins generalizing a with
  | nil => exact trivial
  | cons b rest ih => exact ⟨h.1 ▸ h.2.1, ih h.2.2⟩

/-- The ranges between the upper edges of a chain are its bins. -/
theorem Linked.ranges_eq {a : K} {bins : List (Bin K M)} (h : Linked a bins) :
    ranges a (bins.map Bin.u) = bins.map fun b => (b.l, b.u) := by
  induction bins generalizing a with
  | nil => rfl
  | cons b rest ih =>
    rw [List.map_cons, ranges, ih h.2.2, List.map_cons, h.1]

omit [LinearOrder K] in
/-- The upper edges of a chain with bins end with the end of the chain. -/
theorem map_upper_eq_concat (a : K) {bins : List (Bin K M)} (h : bins ≠ []) :
    ∃ points, bins.map Bin.u = points ++ [endpoint a bins] := by
  induction bins generalizing a with
  | nil => exact absurd rfl h
  | cons b rest ih =>
    cases rest with
    | nil => exact ⟨[], rfl⟩
    | cons d rest =>
      obtain ⟨points, hpoints⟩ := ih b.u (List.cons_ne_nil _ _)
      exact ⟨b.u :: points, congrArg (b.u :: ·) hpoints⟩

section Cut

variable (share : Share K M) (v : K)

/-- Cutting a chain where it starts or before leaves it whole. -/
theorem cut_of_le {a : K} {bins : List (Bin K M)} (h : Linked a bins) (hv : v ≤ a) :
    cut share v bins = ([], bins) := by
  cases bins with
  | nil => rfl
  | cons b rest =>
    obtain ⟨rfl, hlt, -⟩ := h
    rw [cut, if_neg (not_le_of_gt (hv.trans_lt hlt)), if_neg (not_lt_of_ge hv)]

/-- The parts of a chain form a chain of the same extent. -/
theorem cut_linked {a : K} {bins : List (Bin K M)} (h : Linked a bins) :
    Linked a ((cut share v bins).1 ++ (cut share v bins).2) := by
  induction bins generalizing a with
  | nil => exact trivial
  | cons b rest ih =>
    obtain ⟨hl, hlt, hrest⟩ := h
    rw [cut]
    split
    · exact ⟨hl, hlt, ih hrest⟩
    · rename_i hu
      split
      · rename_i hlv
        exact ⟨hl, hlv, rfl, lt_of_not_ge hu, hrest⟩
      · exact ⟨hl, hlt, hrest⟩

/-- The lower part of a chain ends at or before the point, and at it if anything remains. -/
theorem endpoint_cut {a : K} {bins : List (Bin K M)} (h : Linked a bins) (hv : a ≤ v) :
    endpoint a (cut share v bins).1 ≤ v ∧
      ((cut share v bins).2 ≠ [] → endpoint a (cut share v bins).1 = v) := by
  induction bins generalizing a with
  | nil => exact ⟨hv, fun hne => absurd rfl hne⟩
  | cons b rest ih =>
    obtain ⟨rfl, hlt, hrest⟩ := h
    rw [cut]
    split
    · rename_i hu
      exact ih hrest hu
    · split
      · exact ⟨le_rfl, fun _ => rfl⟩
      · rename_i hlv
        exact ⟨hv, fun _ => le_antisymm hv (le_of_not_gt hlv)⟩

/-- Cutting at a point past the start takes something off. -/
theorem cut_fst_ne_nil {b : Bin K M} {rest : List (Bin K M)} (h : b.l < v) :
    (cut share v (b :: rest)).1 ≠ [] := by
  rw [cut, if_pos h]
  split <;> exact List.cons_ne_nil _ _

/-- Cutting at or past the end takes everything off. -/
theorem cut_of_ge {bins : List (Bin K M)} (h : ∀ b ∈ bins, b.u ≤ v) :
    cut share v bins = (bins, []) := by
  induction bins with
  | nil => rfl
  | cons b rest ih =>
    rw [cut, if_pos (h b List.mem_cons_self), ih fun d hd => h d (List.mem_cons_of_mem _ hd)]

/-- The upper part of a chain ends where the chain did. -/
theorem cut_snd_upper {bound : K} {bins : List (Bin K M)} (h : ∀ b ∈ bins, b.u ≤ bound) :
    ∀ b ∈ (cut share v bins).2, b.u ≤ bound := by
  induction bins with
  | nil => exact fun b hb => absurd hb List.not_mem_nil
  | cons d rest ih =>
    rw [cut]
    split
    · exact ih fun b hb => h b (List.mem_cons_of_mem _ hb)
    · split
      · intro b hb
        rcases List.mem_cons.mp hb with rfl | hb
        · exact h d List.mem_cons_self
        · exact h b (List.mem_cons_of_mem _ hb)
      · exact h

end Cut

section Content

variable [AddCommMonoid M]

/-- The total content of some bins. -/
def content (bins : List (Bin K M)) : M := (bins.map Bin.c).sum

omit [LinearOrder K] in
/-- No bins have no content. -/
@[simp] theorem content_nil : content ([] : List (Bin K M)) = 0 := rfl

omit [LinearOrder K] in
/-- The content of the first bin is added. -/
@[simp] theorem content_cons (b : Bin K M) (rest : List (Bin K M)) :
    content (b :: rest) = b.c + content rest := rfl

omit [LinearOrder K] in
/-- The content of bins and others is that of all of them. -/
@[simp] theorem content_append (xs ys : List (Bin K M)) :
    content (xs ++ ys) = content xs + content ys := by
  rw [content, List.map_append, List.sum_append]
  rfl

/-- The rule neither creates nor destroys content. -/
def Conserves (share : Share K M) : Prop := ∀ b v, (share b v).1 + (share b v).2 = b.c

variable {share : Share K M}

/-- Cutting conserves content. -/
theorem content_cut (hshare : Conserves share) (v : K) (bins : List (Bin K M)) :
    content (cut share v bins).1 + content (cut share v bins).2 = content bins := by
  induction bins with
  | nil => exact add_zero 0
  | cons b rest ih =>
    rw [cut]
    split
    · rw [content_cons, content_cons, add_assoc, ih]
    · split
      · rw [content_cons, content_nil, add_zero, content_cons, content_cons, ← add_assoc,
          lowerPart, upperPart, hshare]
      · rw [content_nil, zero_add]

/-- Allot the content of a chain to the ranges that end at successive points. -/
def allot (share : Share K M) : List K → List (Bin K M) → List M × List (Bin K M)
  | [], bins => ([], bins)
  | v :: rest, bins =>
    (content (cut share v bins).1 :: (allot share rest (cut share v bins).2).1,
      (allot share rest (cut share v bins).2).2)

/-- There is one share for each point. -/
@[simp] theorem allot_length (points : List K) (bins : List (Bin K M)) :
    (allot share points bins).1.length = points.length := by
  induction points generalizing bins with
  | nil => rfl
  | cons v rest ih => exact congrArg Nat.succ (ih _)

/-- What is allotted and what remains make up the chain's content. -/
theorem allot_sum (hshare : Conserves share) (points : List K) (bins : List (Bin K M)) :
    (allot share points bins).1.sum + content (allot share points bins).2 = content bins := by
  induction points generalizing bins with
  | nil => exact zero_add _
  | cons v rest ih =>
    rw [allot, List.sum_cons, add_assoc, ih, content_cut hshare]

/-- Nothing remains when the last range ends at or past the end of the chain. -/
theorem allot_remaining (share : Share K M) (points : List K) {last : K} {bins : List (Bin K M)}
    (h : ∀ b ∈ bins, b.u ≤ last) : (allot share (points ++ [last]) bins).2 = [] := by
  induction points generalizing bins with
  | nil =>
    change (cut share last bins).2 = []
    rw [cut_of_ge share last h]
  | cons v rest ih => exact ih (cut_snd_upper share v h)

section Good

variable {good : M → Prop} (hpart : ∀ b v, good b.c → b.l < v → v < b.u →
  good (share b v).1 ∧ good (share b v).2)
include hpart

omit [AddCommMonoid M] in
/-- A property of contents that the rule keeps holds of the parts of a chain. -/
theorem cut_forall (v : K) {bins : List (Bin K M)} (h : ∀ b ∈ bins, good b.c) :
    (∀ b ∈ (cut share v bins).1, good b.c) ∧ ∀ b ∈ (cut share v bins).2, good b.c := by
  induction bins with
  | nil => exact ⟨h, h⟩
  | cons b rest ih =>
    have hb := h b List.mem_cons_self
    obtain ⟨hlower, hupper⟩ := ih fun d hd => h d (List.mem_cons_of_mem _ hd)
    rw [cut]
    split
    · exact ⟨List.forall_mem_cons.mpr ⟨hb, hlower⟩, hupper⟩
    · rename_i hu
      split
      · rename_i hl
        obtain ⟨hl', hu'⟩ := hpart b v hb hl (lt_of_not_ge hu)
        exact ⟨List.forall_mem_cons.mpr ⟨hl', fun d hd => absurd hd List.not_mem_nil⟩,
          List.forall_mem_cons.mpr ⟨hu', fun d hd => h d (List.mem_cons_of_mem _ hd)⟩⟩
      · exact ⟨fun d hd => absurd hd List.not_mem_nil, h⟩

/-- A property of contents that the rule and addition keep holds of everything allotted. -/
theorem allot_forall (hzero : good 0) (hadd : ∀ x y, good x → good y → good (x + y))
    (points : List K) {bins : List (Bin K M)} (h : ∀ b ∈ bins, good b.c) :
    ∀ x ∈ (allot share points bins).1, good x := by
  have hcontent : ∀ bins : List (Bin K M), (∀ b ∈ bins, good b.c) → good (content bins) := by
    intro bins hbins
    induction bins with
    | nil => exact hzero
    | cons b rest ih =>
      exact hadd _ _ (hbins b List.mem_cons_self)
        (ih fun d hd => hbins d (List.mem_cons_of_mem _ hd))
  induction points generalizing bins with
  | nil => exact fun x hx => absurd hx List.not_mem_nil
  | cons v rest ih =>
    obtain ⟨hlower, hupper⟩ := cut_forall hpart v h
    intro x hx
    rcases List.mem_cons.mp hx with rfl | hx
    · exact hcontent _ hlower
    · exact ih hupper x hx

end Good

end Content

end IntervalChain
