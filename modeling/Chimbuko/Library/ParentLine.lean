import Mathlib.Data.List.Basic
import Mathlib.Data.List.Nodup
import Mathlib.Logic.Function.Basic
import Mathlib.Order.Nat

/-!
# Lines of ancestors

Records name their parent by a key, and a directory finds records by key. Following parents from
a key gives the line of ancestors, which ends at the root or at a key that is not found. Where
parents have a lower rank than their children the walk ends, and a line depends on nothing but
the entries of the directory that it meets.
-/

namespace ParentLine

variable {κ ρ : Type*}

/-- The records met from a key on until the root or a key that is not found. -/
def IsLine (root : κ) (find : κ → Option ρ) (parent : ρ → κ) : κ → List ρ → Prop
  | key, [] => key = root ∨ find key = none
  | key, x :: rest => key ≠ root ∧ find key = some x ∧ IsLine root find parent (parent x) rest

/-- The records met from a key on, which end at the root. -/
def IsStack (root : κ) (find : κ → Option ρ) (parent : ρ → κ) : κ → List ρ → Prop
  | key, [] => key = root
  | key, x :: rest => key ≠ root ∧ find key = some x ∧ IsStack root find parent (parent x) rest

/-- Follow parents for at most a number of steps. -/
def walk [DecidableEq κ] (root : κ) (find : κ → Option ρ) (parent : ρ → κ) : ℕ → κ → List ρ
  | 0, _ => []
  | n + 1, key =>
    if key = root then []
    else
      match find key with
      | none => []
      | some x => x :: walk root find parent n (parent x)

variable {root : κ} {find : κ → Option ρ} {parent : ρ → κ}

/-- There is one line from each key. -/
theorem IsLine.unique {key : κ} {xs ys : List ρ} (hx : IsLine root find parent key xs)
    (hy : IsLine root find parent key ys) : xs = ys := by
  induction xs generalizing key ys with
  | nil =>
    cases ys with
    | nil => rfl
    | cons y rest =>
      rcases hx with hroot | hnone
      · exact absurd hroot hy.1
      · exact absurd (hnone.symm.trans hy.2.1) (Option.some_ne_none y).symm
  | cons x xs ih =>
    cases ys with
    | nil =>
      rcases hy with hroot | hnone
      · exact absurd hroot hx.1
      · exact absurd (hnone.symm.trans hx.2.1) (Option.some_ne_none x).symm
    | cons y ys =>
      obtain rfl := Option.some.inj (hx.2.1.symm.trans hy.2.1)
      rw [ih hx.2.2 hy.2.2]

/-- A line that ends at the root is a line. -/
theorem IsStack.isLine {key : κ} {xs : List ρ} (h : IsStack root find parent key xs) :
    IsLine root find parent key xs := by
  induction xs generalizing key with
  | nil => exact Or.inl h
  | cons x xs ih => exact ⟨h.1, h.2.1, ih h.2.2⟩

/-- A line depends only on the entries and parents that it meets. -/
theorem IsLine.congr {find' : κ → Option ρ} {parent' : ρ → κ} {key : κ} {xs : List ρ}
    (h : IsLine root find parent key xs) (hparent : ∀ x ∈ xs, parent' x = parent x)
    (hfind : ∀ k, k = key ∨ (∃ x ∈ xs, parent x = k) → find' k = find k) :
    IsLine root find' parent' key xs := by
  induction xs generalizing key with
  | nil =>
    rw [IsLine, hfind key (Or.inl rfl)]
    exact h
  | cons x xs ih =>
    refine ⟨h.1, (hfind key (Or.inl rfl)).trans h.2.1, ?_⟩
    rw [hparent x List.mem_cons_self]
    refine ih h.2.2 (fun y hy => hparent y (List.mem_cons_of_mem _ hy)) fun k hk => hfind k ?_
    rcases hk with rfl | ⟨y, hy, rfl⟩
    · exact Or.inr ⟨x, List.mem_cons_self, rfl⟩
    · exact Or.inr ⟨y, List.mem_cons_of_mem _ hy, rfl⟩

/-- The same holds of a line that ends at the root. -/
theorem IsStack.congr {find' : κ → Option ρ} {parent' : ρ → κ} {key : κ} {xs : List ρ}
    (h : IsStack root find parent key xs) (hparent : ∀ x ∈ xs, parent' x = parent x)
    (hfind : ∀ k x, x ∈ xs → find k = some x → find' k = some x) :
    IsStack root find' parent' key xs := by
  induction xs generalizing key with
  | nil => exact h
  | cons x xs ih =>
    refine ⟨h.1, hfind key x List.mem_cons_self h.2.1, ?_⟩
    rw [hparent x List.mem_cons_self]
    exact ih h.2.2 (fun y hy => hparent y (List.mem_cons_of_mem _ hy)) fun k y hy =>
      hfind k y (List.mem_cons_of_mem _ hy)

/-- Every record of a line is found. -/
theorem IsLine.exists_find {key : κ} {xs : List ρ} (h : IsLine root find parent key xs) {x : ρ}
    (hx : x ∈ xs) : ∃ k, find k = some x := by
  induction xs generalizing key with
  | nil => cases hx
  | cons y ys ih =>
    rcases List.mem_cons.mp hx with rfl | hmem
    · exact ⟨key, h.2.1⟩
    · exact ih h.2.2 hmem

section Update

variable [DecidableEq κ]

/-- A line does not change when a record is added that it does not refer to. -/
theorem IsLine.insert {parent' : ρ → κ} {key e : κ} {z : ρ} {xs : List ρ}
    (h : IsLine root find parent key xs) (hparent : ∀ x ∈ xs, parent' x = parent x)
    (hkey : key ≠ e) (hxs : ∀ x ∈ xs, parent x ≠ e) :
    IsLine root (Function.update find e (some z)) parent' key xs := by
  refine h.congr hparent fun k hk => Function.update_of_ne ?_ _ _
  rcases hk with rfl | ⟨x, hx, rfl⟩
  · exact hkey
  · exact hxs x hx

/-- A line does not change when a record is removed that is not on it. -/
theorem IsLine.erase {key e : κ} {z : ρ} {xs : List ρ} (h : IsLine root find parent key xs)
    (hz : find e = some z) (hroot : e ≠ root) (hxs : z ∉ xs) :
    IsLine root (Function.update find e none) parent key xs := by
  induction xs generalizing key with
  | nil =>
    by_cases hkey : key = e
    · rcases h with hkeyroot | hnone
      · exact Or.inl hkeyroot
      · rw [hkey, hz] at hnone
        cases hnone
    · rw [IsLine, Function.update_of_ne hkey]
      exact h
  | cons x xs ih =>
    rw [List.mem_cons, not_or] at hxs
    refine ⟨h.1, ?_, ih h.2.2 hxs.2⟩
    rw [Function.update_of_ne]
    · exact h.2.1
    · rintro rfl
      exact hxs.1 (Option.some.inj (hz.symm.trans h.2.1))

/-- A line that ends at the root does so after a record is removed that is not on it. -/
theorem IsStack.erase {key e : κ} {z : ρ} {xs : List ρ} (h : IsStack root find parent key xs)
    (hz : find e = some z) (hxs : z ∉ xs) :
    IsStack root (Function.update find e none) parent key xs := by
  apply h.congr fun _ _ => rfl
  intro k x hx hk
  rw [Function.update_of_ne]
  · exact hk
  · rintro rfl
    exact hxs (Option.some.inj (hz.symm.trans hk) ▸ hx)

end Update

section Rank

variable {rank : ρ → ℕ} (hrank : ∀ x y, find (parent x) = some y → rank y < rank x)
include hrank

/-- Following parents for as many steps as the first record's rank allows finds the line. -/
theorem walk_isLine [DecidableEq κ] (n : ℕ) {key : κ}
    (hkey : ∀ x, find key = some x → rank x < n) :
    IsLine root find parent key (walk root find parent n key) := by
  induction n generalizing key with
  | zero =>
    cases hfind : find key with
    | none => exact Or.inr hfind
    | some x => exact absurd (hkey x hfind) (Nat.not_lt_zero _)
  | succ n ih =>
    rw [walk]
    split
    · rename_i hroot
      exact Or.inl hroot
    · rename_i hroot
      cases hfind : find key with
      | none => exact Or.inr hfind
      | some x =>
        refine ⟨hroot, hfind, ih fun y hy => ?_⟩
        exact (hrank x y hy).trans_le (Nat.le_of_lt_succ (hkey x hfind))

end Rank

end ParentLine
