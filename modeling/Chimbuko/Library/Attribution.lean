import Mathlib.Data.List.Nodup
import Mathlib.Data.List.TakeWhile
import Mathlib.Logic.Function.Basic
import Mathlib.Order.Lattice

/-!
# Attribution of arrivals to intervals

Items arrive one after another at some places, and intervals finish there. An item belongs to the
first interval to finish after its arrival that had started by the item's time. The items that
wait are kept on a stack, and an interval that finishes takes its own off the top of the stack.
As long as times do not decrease this finds the items that belong to the interval. In any order
no item is lost or taken twice.
-/

namespace Attribution

/-- An item arrives or an interval finishes. -/
inductive Happening (α ρ : Type*)
  | arrive (a : α)
  | finish (x : ρ)

variable {α ρ τ : Type*}

/-- The items that arrived. -/
def arrivals : List (Happening α ρ) → List α
  | [] => []
  | .arrive a :: later => a :: arrivals later
  | .finish _ :: later => arrivals later

/-- The intervals that finished. -/
def finished : List (Happening α ρ) → List ρ
  | [] => []
  | .arrive _ :: later => finished later
  | .finish x :: later => x :: finished later

/-- What arrives first and then is what arrives. -/
@[simp] theorem arrivals_append (hist hist' : List (Happening α ρ)) :
    arrivals (hist ++ hist') = arrivals hist ++ arrivals hist' := by
  induction hist with
  | nil => rfl
  | cons e later ih => cases e <;> simp [arrivals, ih]

/-- What finishes first and then is what finishes. -/
@[simp] theorem finished_append (hist hist' : List (Happening α ρ)) :
    finished (hist ++ hist') = finished hist ++ finished hist' := by
  induction hist with
  | nil => rfl
  | cons e later ih => cases e <;> simp [finished, ih]

section Owners

variable [LinearOrder τ]

/-- The first interval to finish of those that had started by a time. -/
def firstFinish (start : ρ → τ) (time : τ) : List (Happening α ρ) → Option ρ
  | [] => none
  | .arrive _ :: later => firstFinish start time later
  | .finish x :: later => if start x ≤ time then some x else firstFinish start time later

/-- The items in order of their arrival, each with the interval that it belongs to. -/
def owned (ts : α → τ) (start : ρ → τ) : List (Happening α ρ) → List (α × Option ρ)
  | [] => []
  | .arrive a :: later => (a, firstFinish start (ts a) later) :: owned ts start later
  | .finish _ :: later => owned ts start later

/-- The items that belong to an interval. -/
def attached [DecidableEq ρ] (ts : α → τ) (start : ρ → τ) (hist : List (Happening α ρ)) (x : ρ) :
    List α :=
  ((owned ts start hist).filter fun p => p.2 = some x).map Prod.fst

/-- The items that belong to no interval yet. -/
def waiting (ts : α → τ) (start : ρ → τ) (hist : List (Happening α ρ)) : List α :=
  ((owned ts start hist).filter fun p => p.2.isNone).map Prod.fst

variable {ts : α → τ} {start start' : ρ → τ} {hist : List (Happening α ρ)}

/-- Arrivals finish nothing. -/
theorem firstFinish_arrive (time : τ) (hist : List (Happening α ρ)) (a : α) :
    firstFinish start time (hist ++ [.arrive a]) = firstFinish start time hist := by
  induction hist with
  | nil => rfl
  | cons e later ih => cases e <;> simp [firstFinish, ih]

/-- An interval that finishes is the first one unless there was one before. -/
theorem firstFinish_finish (time : τ) (hist : List (Happening α ρ)) (x : ρ) :
    firstFinish start time (hist ++ [.finish x]) =
      (firstFinish start time hist).or (if start x ≤ time then some x else none) := by
  induction hist with
  | nil => simp [firstFinish]
  | cons e later ih =>
    cases e with
    | arrive a => simpa [firstFinish] using ih
    | finish y =>
      simp only [List.cons_append, firstFinish, ih]
      split <;> simp

/-- The first interval that finishes is one of those that finished. -/
theorem firstFinish_mem {time : τ} {x : ρ} (h : firstFinish start time hist = some x) :
    x ∈ finished hist := by
  induction hist with
  | nil => cases h
  | cons e later ih =>
    cases e with
    | arrive a => exact ih h
    | finish y =>
      rw [firstFinish] at h
      split at h
      · cases h
        exact List.mem_cons_self
      · exact List.mem_cons_of_mem _ (ih h)

/-- An item that arrives belongs to no interval yet. -/
theorem owned_arrive (hist : List (Happening α ρ)) (a : α) :
    owned ts start (hist ++ [.arrive a]) = owned ts start hist ++ [(a, none)] := by
  induction hist with
  | nil => rfl
  | cons e later ih => cases e <;> simp [owned, ih, firstFinish_arrive]

/-- An interval that finishes owns the waiting items from its start on. -/
theorem owned_finish (hist : List (Happening α ρ)) (x : ρ) :
    owned ts start (hist ++ [.finish x]) = (owned ts start hist).map fun p =>
      (p.1, p.2.or (if start x ≤ ts p.1 then some x else none)) := by
  induction hist with
  | nil => rfl
  | cons e later ih => cases e <;> simp [owned, ih, firstFinish_finish]

/-- The items with their owners are those that arrived. -/
theorem owned_fst (hist : List (Happening α ρ)) :
    (owned ts start hist).map Prod.fst = arrivals hist := by
  induction hist with
  | nil => rfl
  | cons e later ih => cases e <;> simp [owned, arrivals, ih]

/-- The owners are intervals that finished. -/
theorem owned_snd {p : α × Option ρ} (hp : p ∈ owned ts start hist) {x : ρ} (hx : p.2 = some x) :
    x ∈ finished hist := by
  induction hist with
  | nil => cases hp
  | cons e later ih =>
    cases e with
    | arrive a =>
      rcases List.mem_cons.mp hp with rfl | hp
      · exact firstFinish_mem hx
      · exact ih hp
    | finish y => exact List.mem_cons_of_mem _ (ih hp)

/-- Owners depend on the starts of the intervals that finished. -/
theorem owned_congr (h : ∀ x ∈ finished hist, start x = start' x) :
    owned ts start hist = owned ts start' hist := by
  have hfirst : ∀ (time : τ) (hist : List (Happening α ρ)),
      (∀ x ∈ finished hist, start x = start' x) →
      firstFinish start time hist = firstFinish start' time hist := by
    intro time hist h
    induction hist with
    | nil => rfl
    | cons e later ih =>
      cases e with
      | arrive a => exact ih h
      | finish y =>
        have hy := h y List.mem_cons_self
        have hlater := ih fun x hx => h x (List.mem_cons_of_mem _ hx)
        simp only [firstFinish, hy, hlater]
  induction hist with
  | nil => rfl
  | cons e later ih =>
    cases e with
    | arrive a => simp only [owned, hfirst (ts a) later h, ih h]
    | finish y => exact ih fun x hx => h x (List.mem_cons_of_mem _ hx)

/-- An item that arrives waits. -/
@[simp] theorem waiting_arrive (hist : List (Happening α ρ)) (a : α) :
    waiting ts start (hist ++ [.arrive a]) = waiting ts start hist ++ [a] := by
  simp [waiting, owned_arrive]

/-- The items before an interval keep waiting when it finishes. -/
@[simp] theorem waiting_finish (hist : List (Happening α ρ)) (x : ρ) :
    waiting ts start (hist ++ [.finish x]) =
      (waiting ts start hist).filter fun a => ts a < start x := by
  unfold waiting
  rw [owned_finish, List.filter_map, List.map_map, List.filter_map, List.filter_filter]
  apply congrArg (List.map Prod.fst)
  apply List.filter_congr
  intro p _
  by_cases hle : start x ≤ ts p.1
  · simp [hle, not_lt.mpr hle]
  · simp [hle, not_le.mp hle]

/-- The items that wait are some of those that arrived. -/
theorem waiting_sublist (hist : List (Happening α ρ)) :
    (waiting ts start hist).Sublist (arrivals hist) := by
  have hall : (owned ts start hist).map Prod.fst = arrivals hist := owned_fst hist
  rw [← hall]
  exact List.filter_sublist.map Prod.fst

section Attached

variable [DecidableEq ρ]

/-- An item that arrives is not attached yet. -/
@[simp] theorem attached_arrive (hist : List (Happening α ρ)) (a : α) (x : ρ) :
    attached ts start (hist ++ [.arrive a]) x = attached ts start hist x := by
  simp [attached, owned_arrive]

/-- An interval that finishes leaves what is attached to others. -/
theorem attached_finish_of_ne (hist : List (Happening α ρ)) {x y : ρ} (hne : y ≠ x) :
    attached ts start (hist ++ [.finish x]) y = attached ts start hist y := by
  unfold attached
  rw [owned_finish, List.filter_map, List.map_map]
  apply congrArg (List.map Prod.fst)
  apply List.filter_congr
  intro p _
  cases hp : p.2 <;> simp [hp, hne.symm]

/-- An interval that finishes takes the waiting items from its start on. -/
theorem attached_finish_self {x : ρ} (hx : x ∉ finished hist) :
    attached ts start (hist ++ [.finish x]) x =
      (waiting ts start hist).filter fun a => start x ≤ ts a := by
  unfold attached waiting
  rw [owned_finish, List.filter_map, List.map_map, List.filter_map, List.filter_filter]
  apply congrArg (List.map Prod.fst)
  apply List.filter_congr
  intro p hp
  cases howner : p.2 with
  | none => simp [howner]
  | some z =>
    have hz : z ≠ x := fun h => hx (owned_snd hp (h ▸ howner))
    simp [howner, hz]

end Attached

end Owners

section Stack

variable [LinearOrder τ]

/-- The items on top of a stack, down to the first one before the start, that are within an
interval. -/
def taken (ts : α → τ) (start finish : τ) (stack : List α) : List α :=
  (stack.takeWhile fun a => start ≤ ts a).filter fun a => ts a ≤ finish

/-- What is left of the stack. -/
def kept (ts : α → τ) (start finish : τ) (stack : List α) : List α :=
  ((stack.takeWhile fun a => start ≤ ts a).filter fun a => finish < ts a) ++
    stack.dropWhile fun a => start ≤ ts a

variable {ts : α → τ} {start finish : τ} {stack : List α}

/-- What an interval takes lies in it. -/
theorem mem_taken {a : α} (h : a ∈ taken ts start finish stack) :
    start ≤ ts a ∧ ts a ≤ finish := by
  obtain ⟨hmem, hle⟩ := List.mem_filter.mp h
  have hstart := List.mem_takeWhile_imp hmem
  exact ⟨by simpa using hstart, by simpa using hle⟩

/-- Nothing is lost or duplicated. -/
theorem kept_append_taken_perm (ts : α → τ) (start finish : τ) (stack : List α) :
    (kept ts start finish stack ++ taken ts start finish stack).Perm stack := by
  have hsplit : (((stack.takeWhile fun a => start ≤ ts a).filter fun a => finish < ts a) ++
      taken ts start finish stack).Perm (stack.takeWhile fun a => start ≤ ts a) := by
    have hnot : taken ts start finish stack =
        (stack.takeWhile fun a => start ≤ ts a).filter fun a => !decide (finish < ts a) := by
      simp [taken, ← decide_not]
    rw [hnot]
    exact List.filter_append_perm _ _
  have hrest := (hsplit.append_right (stack.dropWhile fun a => start ≤ ts a)).trans
    (List.Perm.of_eq List.takeWhile_append_dropWhile)
  refine List.Perm.trans ?_ hrest
  unfold kept
  rw [List.append_assoc, List.append_assoc]
  exact List.perm_append_comm.append_left _

/-- On a stack whose times do not increase from the top, the items from a time on are on top. -/
theorem takeWhile_eq_filter (hsorted : stack.Pairwise fun a b => ts b ≤ ts a) (start : τ) :
    (stack.takeWhile fun a => start ≤ ts a) = (stack.filter fun a => start ≤ ts a) ∧
      (stack.dropWhile fun a => start ≤ ts a) = stack.filter fun a => ts a < start := by
  induction stack with
  | nil => simp
  | cons a rest ih =>
    obtain ⟨ha, hrest⟩ := List.pairwise_cons.mp hsorted
    by_cases hle : start ≤ ts a
    · simp [hle, not_lt.mpr hle, ih hrest]
    · have hlt := not_le.mp hle
      have hbelow : ∀ b ∈ rest, ts b < start := fun b hb => (ha b hb).trans_lt hlt
      have hnone : (rest.filter fun b => start ≤ ts b) = [] := by
        simpa using hbelow
      have hall : (rest.filter fun b => ts b < start) = rest := by
        simpa using hbelow
      simp [hle, hlt, hnone, hall]

/-- If no item is later than the finish either, the interval takes those from its start on. -/
theorem taken_of_sorted (hsorted : stack.Pairwise fun a b => ts b ≤ ts a)
    (hle : ∀ a ∈ stack, ts a ≤ finish) :
    taken ts start finish stack = (stack.filter fun a => start ≤ ts a) ∧
      kept ts start finish stack = stack.filter fun a => ts a < start := by
  obtain ⟨htake, hdrop⟩ := takeWhile_eq_filter hsorted start
  unfold taken kept
  rw [htake, hdrop]
  constructor
  · apply List.filter_eq_self.mpr
    intro a ha
    simpa using hle a (List.mem_of_mem_filter ha)
  · rw [List.filter_eq_nil_iff.mpr, List.nil_append]
    intro a ha
    simpa using hle a (List.mem_of_mem_filter ha)

end Stack

section Places

variable {κ : Type*}

/-- At each place the items that arrived are those on the stack and those that the intervals that
finished there hold. An interval finishes once. -/
structure Conserves (hist : κ → List (Happening α ρ)) (stack : κ → List α) (held : ρ → List α) :
    Prop where
  perm : ∀ k, (arrivals (hist k)).Perm (stack k ++ (finished (hist k)).flatMap held)
  nodup : ∀ k, (finished (hist k)).Nodup
  disjoint : ∀ k k' x, x ∈ finished (hist k) → x ∈ finished (hist k') → k = k'
  held_nil : ∀ x, (∀ k, x ∉ finished (hist k)) → held x = []

variable {hist : κ → List (Happening α ρ)} {stack : κ → List α} {held : ρ → List α}

/-- Nothing is conserved at first. -/
theorem conserves_nil : Conserves (fun _ : κ => ([] : List (Happening α ρ))) (fun _ => [])
    fun _ => [] :=
  ⟨fun _ => List.Perm.refl _, fun _ => List.nodup_nil,
    fun _ _ _ h => absurd h List.not_mem_nil, fun _ _ => rfl⟩

/-- An item that arrives is put on the stack. -/
theorem Conserves.arrive [DecidableEq κ] (h : Conserves hist stack held) (k : κ) (a : α) :
    Conserves (Function.update hist k (hist k ++ [.arrive a]))
      (Function.update stack k (a :: stack k)) held := by
  have hfinished : ∀ k', finished (Function.update hist k (hist k ++ [.arrive a]) k') =
      finished (hist k') := by
    intro k'
    by_cases hk : k' = k
    · subst hk
      simp [finished]
    · rw [Function.update_of_ne hk]
  refine ⟨fun k' => ?_, ?_, ?_, ?_⟩
  · rw [hfinished]
    by_cases hk : k' = k
    · subst hk
      simpa [arrivals] using (List.perm_append_comm.trans (List.Perm.cons a (h.perm k')))
    · rw [Function.update_of_ne hk, Function.update_of_ne hk]
      exact h.perm k'
  · simpa only [hfinished] using h.nodup
  · simpa only [hfinished] using h.disjoint
  · simpa only [hfinished] using h.held_nil

/-- An interval that finishes holds what it takes off the stack. -/
theorem Conserves.finish [DecidableEq κ] [DecidableEq ρ] [LinearOrder τ]
    (h : Conserves hist stack held) (k : κ) {x : ρ} (hx : ∀ k, x ∉ finished (hist k)) (ts : α → τ)
    (start finish : τ) :
    Conserves (Function.update hist k (hist k ++ [.finish x]))
      (Function.update stack k (kept ts start finish (stack k)))
      (Function.update held x (taken ts start finish (stack k)).reverse) := by
  have hfinished : ∀ k', finished (Function.update hist k (hist k ++ [.finish x]) k') =
      if k' = k then finished (hist k') ++ [x] else finished (hist k') := by
    intro k'
    by_cases hk : k' = k
    · subst hk
      simp [finished]
    · simp [hk]
  have hheld : ∀ k', (finished (hist k')).flatMap
      (Function.update held x (taken ts start finish (stack k)).reverse) =
      (finished (hist k')).flatMap held := by
    intro k'
    apply List.flatMap_congr
    intro y hy
    rw [Function.update_of_ne]
    rintro rfl
    exact hx k' hy
  refine ⟨fun k' => ?_, fun k' => ?_, fun k₁ k₂ y hy₁ hy₂ => ?_, fun y hy => ?_⟩
  · rw [hfinished]
    by_cases hk : k' = k
    · subst hk
      have hstack := (kept_append_taken_perm ts start finish (stack k')).symm
      simp only [Function.update_self, arrivals_append, arrivals, List.append_nil, if_true,
        List.flatMap_append, List.flatMap_singleton, hheld]
      calc (arrivals (hist k')).Perm (stack k' ++ (finished (hist k')).flatMap held) := h.perm k'
        List.Perm _ ((kept ts start finish (stack k') ++ taken ts start finish (stack k')) ++
            (finished (hist k')).flatMap held) := hstack.append_right _
        _ = kept ts start finish (stack k') ++ (taken ts start finish (stack k') ++
            (finished (hist k')).flatMap held) := List.append_assoc _ _ _
        List.Perm _ (kept ts start finish (stack k') ++ ((finished (hist k')).flatMap held ++
            taken ts start finish (stack k'))) := List.perm_append_comm.append_left _
        List.Perm _ _ := ((List.reverse_perm _).symm.append_left _).append_left _
    · rw [if_neg hk, Function.update_of_ne hk, Function.update_of_ne hk, hheld]
      exact h.perm k'
  · rw [hfinished]
    split
    · exact List.nodup_append'.mpr ⟨h.nodup k', List.nodup_singleton x, by simpa using hx k'⟩
    · exact h.nodup k'
  · have hold : ∀ k', y ∈ finished (Function.update hist k (hist k ++ [.finish x]) k') →
        y ∈ finished (hist k') ∨ y = x ∧ k' = k := by
      intro k' hy
      rw [hfinished] at hy
      split at hy
      · rename_i hk
        rcases List.mem_append.mp hy with hy | hy
        · exact Or.inl hy
        · exact Or.inr ⟨List.mem_singleton.mp hy, hk⟩
      · exact Or.inl hy
    rcases hold k₁ hy₁ with hold₁ | ⟨rfl, rfl⟩
    · rcases hold k₂ hy₂ with hold₂ | ⟨rfl, rfl⟩
      · exact h.disjoint k₁ k₂ y hold₁ hold₂
      · exact absurd hold₁ (hx k₁)
    · rcases hold k₂ hy₂ with hold₂ | ⟨-, hk⟩
      · exact absurd hold₂ (hx k₂)
      · exact hk.symm
  · have hne : y ≠ x := by
      rintro rfl
      have hk := hy k
      rw [hfinished, if_pos rfl] at hk
      exact hk (List.mem_append_right _ List.mem_cons_self)
    rw [Function.update_of_ne hne]
    apply h.held_nil
    intro k' hmem
    apply hy k'
    rw [hfinished]
    split
    · exact List.mem_append_left _ hmem
    · exact hmem

/-- The items that wait are on the stack, the latest on top, and each interval holds the items
that belong to it, in the order of their arrival. -/
structure InOrder [DecidableEq ρ] [LinearOrder τ] (ts : α → τ) (start : ρ → τ) (now : κ → τ)
    (hist : κ → List (Happening α ρ)) (stack : κ → List α) (held : ρ → List α) : Prop where
  stack_eq : ∀ k, stack k = (waiting ts start (hist k)).reverse
  held_eq : ∀ k, ∀ x ∈ finished (hist k), held x = attached ts start (hist k) x
  sorted : ∀ k, (arrivals (hist k)).Pairwise fun a b => ts a ≤ ts b
  le_now : ∀ k, ∀ a ∈ arrivals (hist k), ts a ≤ now k

variable [DecidableEq ρ] [LinearOrder τ] {ts : α → τ} {start : ρ → τ} {now : κ → τ}

/-- Nothing is out of order at first. -/
theorem inOrder_nil : InOrder ts start now (fun _ : κ => ([] : List (Happening α ρ)))
    (fun _ => []) fun _ => [] :=
  ⟨fun _ => rfl, fun _ _ h => absurd h List.not_mem_nil, fun _ => List.Pairwise.nil,
    fun _ _ h => absurd h List.not_mem_nil⟩

/-- Time goes on, and intervals that have not finished may start at any time. -/
theorem InOrder.mono (h : InOrder ts start now hist stack held) {now' : κ → τ}
    (hnow : ∀ k, now k ≤ now' k) {start' : ρ → τ}
    (hstart : ∀ k, ∀ x ∈ finished (hist k), start x = start' x) :
    InOrder ts start' now' hist stack held := by
  have howned : ∀ k, owned ts start (hist k) = owned ts start' (hist k) := fun k =>
    owned_congr (hstart k)
  refine ⟨fun k => ?_, fun k x hx => ?_, h.sorted, fun k a ha => (h.le_now k a ha).trans (hnow k)⟩
  · rw [waiting, ← howned k]
    exact h.stack_eq k
  · rw [attached, ← howned k]
    exact h.held_eq k x hx

/-- An item of the present arrives. -/
theorem InOrder.arrive [DecidableEq κ] (h : InOrder ts start now hist stack held) (k : κ) {a : α}
    (ha : ts a = now k) :
    InOrder ts start now (Function.update hist k (hist k ++ [.arrive a]))
      (Function.update stack k (a :: stack k)) held := by
  refine ⟨fun k' => ?_, fun k' x => ?_, fun k' => ?_, fun k' b => ?_⟩ <;>
    by_cases hk : k' = k
  · subst hk
    simp [h.stack_eq k']
  · rw [Function.update_of_ne hk, Function.update_of_ne hk]
    exact h.stack_eq k'
  · subst hk
    simpa [finished] using h.held_eq k' x
  · rw [Function.update_of_ne hk]
    exact h.held_eq k' x
  · subst hk
    have hle : ∀ b ∈ arrivals (hist k'), ts b ≤ ts a := fun b hb => ha ▸ h.le_now k' b hb
    simpa [arrivals, List.pairwise_append, h.sorted k'] using hle
  · rw [Function.update_of_ne hk]
    exact h.sorted k'
  · subst hk
    intro hb
    simp only [Function.update_self, arrivals_append, arrivals, List.mem_append,
      List.mem_singleton] at hb
    rcases hb with hb | rfl
    · exact h.le_now k' b hb
    · exact ha.le
  · rw [Function.update_of_ne hk]
    exact h.le_now k' b

/-- An interval finishes at present. -/
theorem InOrder.finish [DecidableEq κ] (h : InOrder ts start now hist stack held) (k : κ) {x : ρ}
    (hx : ∀ k, x ∉ finished (hist k)) :
    InOrder ts start now (Function.update hist k (hist k ++ [.finish x]))
      (Function.update stack k (kept ts (start x) (now k) (stack k)))
      (Function.update held x (taken ts (start x) (now k) (stack k)).reverse) := by
  have hsublist : ∀ k, (waiting ts start (hist k)).Sublist (arrivals (hist k)) := fun k =>
    waiting_sublist (hist k)
  have hsorted : (stack k).Pairwise fun a b => ts b ≤ ts a := by
    rw [h.stack_eq k, List.pairwise_reverse]
    exact (h.sorted k).sublist (hsublist k)
  have hle : ∀ a ∈ stack k, ts a ≤ now k := by
    intro a ha
    rw [h.stack_eq k, List.mem_reverse] at ha
    exact h.le_now k a ((hsublist k).subset ha)
  have hsplit : taken ts (start x) (now k) (stack k) =
        ((stack k).filter fun a => start x ≤ ts a) ∧
      kept ts (start x) (now k) (stack k) = (stack k).filter fun a => ts a < start x :=
    taken_of_sorted hsorted hle
  obtain ⟨htaken, hkept⟩ := hsplit
  rw [htaken, hkept, h.stack_eq k, List.filter_reverse, List.filter_reverse, List.reverse_reverse]
  refine ⟨fun k' => ?_, fun k' y => ?_, fun k' => ?_, fun k' b => ?_⟩ <;>
    by_cases hk : k' = k
  · subst hk
    simp
  · rw [Function.update_of_ne hk, Function.update_of_ne hk]
    exact h.stack_eq k'
  · subst hk
    intro hy
    by_cases hyx : y = x
    · subst hyx
      rw [Function.update_self, Function.update_self, attached_finish_self (hx k')]
    · rw [Function.update_of_ne hyx, Function.update_self, attached_finish_of_ne _ hyx]
      simp only [Function.update_self, finished_append, finished, List.mem_append,
        List.mem_singleton, hyx, or_false] at hy
      exact h.held_eq k' y hy
  · rw [Function.update_of_ne hk]
    intro hy
    rw [Function.update_of_ne]
    · exact h.held_eq k' y hy
    · rintro rfl
      exact hx k' hy
  · subst hk
    simpa [arrivals] using h.sorted k'
  · rw [Function.update_of_ne hk]
    exact h.sorted k'
  · subst hk
    simpa [arrivals] using h.le_now k' b
  · rw [Function.update_of_ne hk]
    exact h.le_now k' b

end Places

end Attribution
