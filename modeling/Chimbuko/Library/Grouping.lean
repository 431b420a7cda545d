import Mathlib.Data.List.Basic
import Mathlib.Data.List.Perm.Basic

/-!
# Lists grouped by a key

Concatenating one list for each of several distinct keys and picking the elements of one key
gives that key's list back. Two lists agree up to order if their elements of each key do.
-/

namespace Grouping

variable {α κ : Type*} [DecidableEq κ] (key : α → κ)

/-- The elements of one key. -/
def group (xs : List α) (k : κ) : List α := xs.filter fun x => key x = k

/-- A group has the members with its key. -/
theorem mem_group {xs : List α} {k : κ} {x : α} : x ∈ group key xs k ↔ x ∈ xs ∧ key x = k := by
  rw [group, List.mem_filter, decide_eq_true_eq]

/-- The group of members and others is that of all of them. -/
theorem group_append (xs ys : List α) (k : κ) :
    group key (xs ++ ys) k = group key xs k ++ group key ys k :=
  List.filter_append ..

/-- If all members have a key then they are its group. -/
theorem group_eq_self {xs : List α} {k : κ} (h : ∀ x ∈ xs, key x = k) : group key xs k = xs :=
  List.filter_eq_self.mpr fun x hx => decide_eq_true (h x hx)

/-- If no member has a key then its group is empty. -/
theorem group_eq_nil {xs : List α} {k : κ} (h : ∀ x ∈ xs, key x ≠ k) : group key xs k = [] :=
  List.filter_eq_nil_iff.mpr fun x hx => by simpa using h x hx

/-- Picking one key from the concatenation of the lists of several keys. -/
theorem group_flatMap {keys : List κ} (hnodup : keys.Nodup) (lists : κ → List α)
    (hlists : ∀ k ∈ keys, ∀ x ∈ lists k, key x = k) (k : κ) :
    group key (keys.flatMap lists) k = if k ∈ keys then lists k else [] := by
  induction keys with
  | nil => rfl
  | cons first rest ih =>
    rw [List.nodup_cons] at hnodup
    rw [List.flatMap_cons, group_append,
      ih hnodup.2 fun k' hk' => hlists k' (List.mem_cons_of_mem _ hk')]
    by_cases hk : k = first
    · subst hk
      rw [if_neg hnodup.1, if_pos List.mem_cons_self, List.append_nil]
      exact group_eq_self key (hlists k List.mem_cons_self)
    · rw [group_eq_nil key fun x hx heq =>
          hk (heq.symm.trans (hlists first List.mem_cons_self x hx)),
        List.nil_append]
      simp only [List.mem_cons, hk, false_or]

omit [DecidableEq κ] in
/-- Concatenating lists of ascending keys keeps the keys in order. -/
theorem pairwise_flatMap {keys : List κ} {le : κ → κ → Prop} (hrefl : ∀ k, le k k)
    (hkeys : keys.Pairwise le) (lists : κ → List α)
    (hlists : ∀ k ∈ keys, ∀ x ∈ lists k, key x = k) :
    (keys.flatMap lists).Pairwise fun x y => le (key x) (key y) := by
  refine List.pairwise_flatMap.mpr
    ⟨fun k hk => ?_, hkeys.imp_of_mem fun {a b} ha hb hab x hx y hy => ?_⟩
  · refine List.Pairwise.imp_of_mem (R := fun _ _ => True) (fun {x y} hx hy _ => ?_)
      (List.pairwise_of_forall fun _ _ => trivial)
    rw [hlists k hk x hx, hlists k hk y hy]
    exact hrefl k
  · rw [hlists a ha x hx, hlists b hb y hy]
    exact hab

/-- Lists whose elements agree key by key agree up to order. -/
theorem perm_of_group [DecidableEq α] {xs ys : List α}
    (h : ∀ k, (group key xs k).Perm (group key ys k)) : xs.Perm ys := by
  refine List.perm_iff_count.mpr fun x => ?_
  have hcount : ∀ zs : List α, (group key zs (key x)).count x = zs.count x := fun zs =>
    List.count_filter (decide_eq_true rfl)
  rw [← hcount xs, ← hcount ys]
  exact (h (key x)).count_eq x

end Grouping
