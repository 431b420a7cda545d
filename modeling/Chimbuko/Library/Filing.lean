import Chimbuko.Library.Grouping
import Mathlib.Data.List.AList
import Mathlib.Logic.Function.Basic
import Mathlib.Order.Lattice
import Mathlib.Tactic.Linarith

/-!
# Items filed under keys

A list of items is filed under their keys if each key has its items, in the order of the list. An
index of the items is kept in step with the list when an item that is added to the list is also put
behind the others of its key.

A map whose values are lists of items is such a file. When the map is ordered, the items of a range
of keys are found between two positions, the first key that is not below the range and the first
one above it, and reading the map from one to the other gives the items of the range sorted by
their keys.
-/

namespace Filing

open Grouping

variable {α κ : Type}

section Filed

variable [DecidableEq κ] {key key' : α → κ} {xs : List α} {file : κ → List α}

/-- Each key has its items, in the order of the list. -/
def Filed (key : α → κ) (xs : List α) (file : κ → List α) : Prop := ∀ k, file k = group key xs k

/-- A new item is put behind the others of its key. -/
theorem Filed.push (h : Filed key xs file) (x : α) :
    Filed key (xs ++ [x]) (Function.update file (key x) (file (key x) ++ [x])) := by
  intro k
  rw [group_append]
  by_cases hk : k = key x
  · rw [hk, Function.update_self, h (key x)]
    congr 1
    exact (group_eq_self key (by simp)).symm
  · have hother : group key [x] k = [] := group_eq_nil key (by simpa using Ne.symm hk)
    rw [Function.update_of_ne hk, h k, hother, List.append_nil]

/-- Only the keys of the items matter. -/
theorem Filed.congr (h : Filed key xs file) (hkey : ∀ x ∈ xs, key' x = key x) :
    Filed key' xs file := by
  intro k
  rw [h k]
  apply List.filter_congr
  intro x hx
  rw [hkey x hx]

/-- The file at a key has items of that key. -/
theorem Filed.key_eq (h : Filed key xs file) {k : κ} {x : α} (hx : x ∈ file k) : key x = k := by
  rw [h k] at hx
  exact ((mem_group key).mp hx).2

/-- Of a file with keys of two parts, what one first part has is filed under the second parts. -/
theorem Filed.inner {κ' : Type} [DecidableEq κ'] {inner : α → κ'} {file : κ × κ' → List α}
    (h : Filed (fun x => (key x, inner x)) xs file) (k : κ) :
    Filed inner (group key xs k) fun k' => file (k, k') := by
  intro k'
  apply (h (k, k')).trans
  unfold group
  rw [List.filter_filter]
  apply List.filter_congr
  intro x _
  simp only [Prod.mk.injEq, Bool.decide_and]
  exact Bool.and_comm _ _

/-- Going through all keys that have items, one finds the items, each as often as it is listed. -/
theorem perm_flatMap [DecidableEq α] {keys : List κ} (hnodup : keys.Nodup) {lists : κ → List α}
    (hlists : ∀ k ∈ keys, (lists k).Perm (group key xs k))
    (hother : ∀ k, k ∉ keys → group key xs k = []) : (keys.flatMap lists).Perm xs := by
  apply perm_of_group key
  intro k
  have hkeys : ∀ k ∈ keys, ∀ x ∈ lists k, key x = k := by
    intro k hk x hx
    exact ((mem_group key).mp ((hlists k hk).mem_iff.mp hx)).2
  rw [group_flatMap key hnodup lists hkeys k]
  by_cases hk : k ∈ keys
  · rw [if_pos hk]
    exact hlists k hk
  · rw [if_neg hk, hother k hk]

end Filed

section Maps

variable [DecidableEq κ] {β : Type} [EmptyCollection β]

/-- The value at a key of a map, as an access that creates it if there is none. -/
def valueAt (m : AList fun _ : κ => β) (k : κ) : β := (m.lookup k).getD ∅

/-- Change the value at a key, which is created if there is none. -/
def modifyAt (k : κ) (f : β → β) (m : AList fun _ : κ => β) : AList fun _ : κ => β :=
  m.insert k (f (valueAt m k))

/-- An empty map has no values. -/
@[simp] theorem valueAt_empty (k : κ) : valueAt (∅ : AList fun _ : κ => β) k = ∅ := by
  unfold valueAt
  rw [AList.lookup_empty, Option.getD_none]

/-- Only the value at the key is changed. -/
@[simp] theorem valueAt_modifyAt (k : κ) (f : β → β) (m : AList fun _ : κ => β) :
    valueAt (modifyAt k f m) = Function.update (valueAt m) k (f (valueAt m k)) := by
  funext k'
  by_cases hk : k' = k
  · rw [hk, Function.update_self]
    unfold modifyAt
    rw [valueAt, AList.lookup_insert, Option.getD_some]
  · rw [Function.update_of_ne hk]
    unfold modifyAt valueAt
    rw [AList.lookup_insert_ne hk]

/-- What the values of a map hold, in the order of its entries. -/
def itemsOf (items : β → List α) (m : AList fun _ : κ => β) : List α :=
  m.entries.flatMap fun entry => items entry.2

omit [DecidableEq κ] [EmptyCollection β] in
/-- An empty map has no items. -/
@[simp] theorem itemsOf_empty (items : β → List α) :
    itemsOf items (∅ : AList fun _ : κ => β) = [] := rfl

/-- Going through the entries of a map, one finds the items that its values hold. -/
theorem itemsOf_perm [DecidableEq α] (key : α → κ) {xs : List α} {m : AList fun _ : κ => β}
    {items : β → List α} (hempty : items ∅ = [])
    (h : ∀ k, (items (valueAt m k)).Perm (group key xs k)) : (itemsOf items m).Perm xs := by
  unfold itemsOf
  have hvalues : m.entries.flatMap (fun entry => items entry.2) =
      m.keys.flatMap fun k => items (valueAt m k) := by
    unfold AList.keys List.keys
    rw [List.flatMap_map]
    apply List.flatMap_congr
    intro entry hentry
    unfold valueAt
    rw [AList.mem_lookup_iff.mpr hentry, Option.getD_some]
  rw [hvalues]
  apply perm_flatMap m.keys_nodup fun k _ => h k
  intro k hk
  have hperm := h k
  unfold valueAt at hperm
  rw [AList.lookup_eq_none.mpr hk, Option.getD_none, hempty] at hperm
  exact hperm.nil_eq.symm

end Maps

section Ordered

variable [LinearOrder κ] {key : α → κ} {xs : List α}

/-- An ordered map whose values are lists of items. -/
abbrev Buckets (κ α : Type) [LinearOrder κ] := Std.TreeMap κ (List α)

namespace Buckets

/-- The items at a key. -/
def itemsAt (m : Buckets κ α) (k : κ) : List α := m[k]?.getD []

/-- Put an item behind the others of its key. -/
def putLast (k : κ) (x : α) (m : Buckets κ α) : Buckets κ α :=
  m.alter k fun items => some (items.getD [] ++ [x])

/-- The position of the first key that is not below `k`, or the end. -/
def lowerBound (m : Buckets κ α) (k : κ) : ℕ := m.toList.findIdx fun entry => k ≤ entry.1

/-- The position of the first key above `k`, or the end. -/
def upperBound (m : Buckets κ α) (k : κ) : ℕ := m.toList.findIdx fun entry => k < entry.1

/-- Collect the items of the entries from the position `it` up to the position `stop`. -/
def collect (stop : ℕ) : ℕ → List (κ × List α) → Except String (List α)
  | it, [] => if it = stop then .ok [] else .error "undefined: iterator beyond the end"
  | it, entry :: rest =>
    if it = stop then .ok []
    else do
      let out ← collect stop (it + 1) rest
      pure (entry.2 ++ out)

/-- An empty map has no items at any key. -/
@[simp] theorem itemsAt_empty (k : κ) : itemsAt (∅ : Buckets κ α) k = [] := by
  unfold itemsAt
  rw [Std.TreeMap.getElem?_emptyc, Option.getD_none]

/-- An item is put behind the others of its key. -/
@[simp] theorem itemsAt_putLast (k : κ) (x : α) (m : Buckets κ α) :
    itemsAt (putLast k x m) = Function.update (itemsAt m) k (itemsAt m k ++ [x]) := by
  funext k'
  unfold itemsAt putLast
  rw [Std.TreeMap.getElem?_alter]
  by_cases hk : k' = k
  · rw [hk, if_pos (compare_eq_iff_eq.mpr rfl), Option.getD_some, Function.update_self]
  · rw [if_neg (by simpa using Ne.symm hk), Function.update_of_ne hk]

/-- The keys of the entries ascend. -/
theorem keys_ascending (m : Buckets κ α) : m.toList.Pairwise fun x y => x.1 < y.1 := by
  apply List.Pairwise.imp _ m.ordered_keys_toList
  intro x y hxy
  exact compare_lt_iff_lt.mp hxy

/-- An entry of the map has the items at its key. -/
theorem itemsAt_of_mem {m : Buckets κ α} {entry : κ × List α} (h : entry ∈ m.toList) :
    m.itemsAt entry.1 = entry.2 := by
  unfold itemsAt
  rw [Std.TreeMap.mem_toList_iff_getElem?_eq_some.mp h, Option.getD_some]

omit [LinearOrder κ] in
/-- Nothing is collected from a position to itself. -/
private theorem collect_stop (stop : ℕ) (entries : List (κ × List α)) :
    collect stop stop entries = .ok [] := by
  cases entries with
  | nil => rw [collect, if_pos rfl]
  | cons entry rest => rw [collect, if_pos rfl]

/-- From the first key that is not below `first` to the first one above `last`, one collects the
items whose keys lie between. -/
private theorem collect_between {entries : List (κ × List α)} {first last : κ} (hle : first ≤ last)
    (hsorted : entries.Pairwise fun x y => x.1 < y.1) (n : ℕ) :
    collect (n + entries.findIdx fun entry => last < entry.1)
        (n + entries.findIdx fun entry => first ≤ entry.1)
        (entries.drop (entries.findIdx fun entry => first ≤ entry.1)) =
      .ok ((entries.filter fun entry => first ≤ entry.1 ∧ entry.1 ≤ last).flatMap Prod.snd) := by
  induction entries generalizing n with
  | nil => exact collect_stop _ _
  | cons entry rest ih =>
    obtain ⟨habove, hrest⟩ := List.pairwise_cons.mp hsorted
    have hnext := ih hrest (n + 1)
    rw [List.findIdx_cons, List.findIdx_cons]
    by_cases hfirst : first ≤ entry.1
    · rw [decide_eq_true hfirst, cond_true, List.drop_zero, Nat.add_zero]
      by_cases hlast : last < entry.1
      · -- the range ends before this entry, and so before all that follow
        have hnone : (entry :: rest).filter
            (fun entry => first ≤ entry.1 ∧ entry.1 ≤ last) = [] := by
          apply List.filter_eq_nil_iff.mpr
          intro other hother
          have hle : entry.1 ≤ other.1 := by
            rcases List.mem_cons.mp hother with rfl | hmem
            · exact le_rfl
            · exact (habove other hmem).le
          simpa using fun _ => hlast.trans_le hle
        rw [decide_eq_true hlast, cond_true, Nat.add_zero, hnone]
        exact collect_stop _ _
      · -- the entries that follow are not below the range
        have hzero : rest.findIdx (fun entry => first ≤ entry.1) = 0 := by
          cases rest with
          | nil => rfl
          | cons second others =>
            have hsecond := habove second List.mem_cons_self
            rw [List.findIdx_cons, decide_eq_true (hfirst.trans hsecond.le), cond_true]
        rw [hzero, List.drop_zero, Nat.add_zero] at hnext
        have hstop : n + (rest.findIdx (fun entry => last < entry.1) + 1) =
            n + 1 + rest.findIdx (fun entry => last < entry.1) := by omega
        rw [decide_eq_false hlast, cond_false, hstop, collect, if_neg (by omega), hnext,
          List.filter_cons_of_pos (by simpa using ⟨hfirst, not_lt.mp hlast⟩)]
        rfl
    · have hlast : ¬ last < entry.1 := fun h => hfirst (hle.trans h.le)
      rw [Nat.add_right_comm, Nat.add_right_comm n 1] at hnext
      rw [decide_eq_false hfirst, decide_eq_false hlast, cond_false, cond_false,
        List.drop_succ_cons, List.filter_cons_of_neg (by simp [hfirst])]
      exact hnext

/-- The keys of a range, in their order. -/
private def keysIn (m : Buckets κ α) (first last : κ) : List κ :=
  m.keys.filter fun k => first ≤ k ∧ k ≤ last

/-- The items of a range of keys. -/
def itemsIn (m : Buckets κ α) (first last : κ) : List α :=
  (m.toList.filter fun entry => first ≤ entry.1 ∧ entry.1 ≤ last).flatMap Prod.snd

/-- An empty map has no items. -/
@[simp] theorem itemsIn_empty (first last : κ) : itemsIn (∅ : Buckets κ α) first last = [] :=
  rfl

/-- Reading the map from the first key of a range to its end gives the items of the range. -/
theorem collect_range (m : Buckets κ α) {first last : κ} (hle : first ≤ last) :
    collect (m.upperBound last) (m.lowerBound first) (m.toList.drop (m.lowerBound first)) =
      .ok (m.itemsIn first last) := by
  have hbetween := collect_between hle m.keys_ascending 0
  rw [Nat.zero_add, Nat.zero_add] at hbetween
  exact hbetween

/-- A range that starts at the end has no items. -/
theorem itemsIn_of_end (m : Buckets κ α) {first : κ} (last : κ)
    (h : m.lowerBound first = m.toList.length) : m.itemsIn first last = [] := by
  have hnone : m.toList.filter (fun entry => first ≤ entry.1 ∧ entry.1 ≤ last) = [] := by
    apply List.filter_eq_nil_iff.mpr
    intro entry hentry
    have hbelow := List.findIdx_eq_length.mp h entry hentry
    simp only [decide_eq_false_iff_not] at hbelow
    simp [hbelow]
  unfold itemsIn
  rw [hnone, List.flatMap_nil]

/-- The items of a range, from the keys of the range and their items. -/
private theorem itemsIn_eq_flatMap (m : Buckets κ α) (first last : κ) :
    m.itemsIn first last = (m.keysIn first last).flatMap m.itemsAt := by
  unfold itemsIn keysIn
  rw [← m.map_fst_toList_eq_keys, List.filter_map, List.flatMap_map]
  apply List.flatMap_congr
  intro entry hentry
  exact (itemsAt_of_mem (List.mem_of_mem_filter hentry)).symm

/-- There are no items at other keys. -/
private theorem itemsAt_of_not_mem {m : Buckets κ α} {k : κ} (h : k ∉ m.keys) :
    m.itemsAt k = [] := by
  rw [Std.TreeMap.mem_keys, Std.TreeMap.mem_iff_isSome_getElem?, Bool.not_eq_true,
    Option.isSome_eq_false_iff, Option.isNone_iff_eq_none] at h
  unfold itemsAt
  rw [h, Option.getD_none]

/-- The keys are sorted. -/
private theorem keys_sorted (m : Buckets κ α) : m.keys.Pairwise (· < ·) := by
  rw [← m.map_fst_toList_eq_keys]
  exact List.pairwise_map.mpr m.keys_ascending

/-- The keys of a range are sorted. -/
private theorem keysIn_sorted (m : Buckets κ α) (first last : κ) :
    (m.keysIn first last).Pairwise (· < ·) := m.keys_sorted.filter _

/-- The items at a key of a range are those of the range with this key. -/
private theorem group_itemsIn_of_mem {m : Buckets κ α} (h : Filed key xs m.itemsAt)
    {first last k : κ} (hk : k ∈ m.keysIn first last) :
    m.itemsAt k = group key (xs.filter fun x => first ≤ key x ∧ key x ≤ last) k := by
  have hrange := List.of_mem_filter hk
  rw [h k]
  unfold group
  rw [List.filter_filter]
  apply List.filter_congr
  intro x _
  by_cases hx : key x = k
  · simpa [hx] using hrange
  · simp [hx]

/-- No items of a range have a key that is not in it. -/
private theorem group_itemsIn_of_not_mem {m : Buckets κ α} (h : Filed key xs m.itemsAt)
    {first last k : κ} (hk : k ∉ m.keysIn first last) :
    group key (xs.filter fun x => first ≤ key x ∧ key x ≤ last) k = [] := by
  apply group_eq_nil
  intro x hx hkey
  obtain ⟨hmem, hrange⟩ := List.mem_filter.mp hx
  subst hkey
  apply hk
  apply List.mem_filter.mpr
  refine ⟨?_, hrange⟩
  by_contra hkey
  have hfile := h (key x)
  rw [itemsAt_of_not_mem hkey] at hfile
  have hgroup := (mem_group key).mpr ⟨hmem, rfl⟩
  rw [← hfile] at hgroup
  cases hgroup

section Range

variable {m : Buckets κ α} (h : Filed key xs m.itemsAt) (first last : κ)

include h

/-- The items of a range are those whose keys lie in it. -/
theorem itemsIn_perm [DecidableEq α] :
    (m.itemsIn first last).Perm (xs.filter fun x => first ≤ key x ∧ key x ≤ last) := by
  rw [itemsIn_eq_flatMap]
  apply perm_flatMap ((m.keysIn_sorted first last).imp ne_of_lt)
  · intro k hk
    rw [group_itemsIn_of_mem h hk]
  · intro k hk
    exact group_itemsIn_of_not_mem h hk

/-- The items of a range come in the order of their keys. -/
theorem itemsIn_sorted : (m.itemsIn first last).Pairwise fun x y => key x ≤ key y := by
  rw [itemsIn_eq_flatMap]
  apply pairwise_flatMap key le_refl ((m.keysIn_sorted first last).imp le_of_lt)
  intro k _ x hx
  exact h.key_eq hx

/-- The items of a range that have one key come in the order in which they were filed. -/
theorem group_itemsIn (k : κ) : group key (m.itemsIn first last) k =
    group key (xs.filter fun x => first ≤ key x ∧ key x ≤ last) k := by
  rw [itemsIn_eq_flatMap, group_flatMap key ((m.keysIn_sorted first last).imp ne_of_lt) m.itemsAt
    fun k _ x hx => h.key_eq hx]
  by_cases hk : k ∈ m.keysIn first last
  · rw [if_pos hk, group_itemsIn_of_mem h hk]
  · rw [if_neg hk, group_itemsIn_of_not_mem h hk]

end Range

/-- The items of the whole map, from its keys and their items. -/
private theorem toList_eq_flatMap (m : Buckets κ α) :
    m.toList.flatMap Prod.snd = m.keys.flatMap m.itemsAt := by
  rw [← m.map_fst_toList_eq_keys, List.flatMap_map]
  apply List.flatMap_congr
  intro entry hentry
  exact (itemsAt_of_mem hentry).symm

section Whole

variable {m : Buckets κ α} (h : Filed key xs m.itemsAt)

include h

/-- Going through the whole map, one finds the items. -/
theorem perm_toList [DecidableEq α] : (m.toList.flatMap Prod.snd).Perm xs := by
  rw [toList_eq_flatMap]
  apply perm_flatMap (m.keys_sorted.imp ne_of_lt)
  · intro k _
    rw [h k]
  · intro k hk
    rw [← h k, itemsAt_of_not_mem hk]

/-- The items of the whole map come in the order of their keys. -/
theorem sorted_toList : (m.toList.flatMap Prod.snd).Pairwise fun x y => key x ≤ key y := by
  rw [toList_eq_flatMap]
  apply pairwise_flatMap key le_refl (m.keys_sorted.imp le_of_lt)
  intro k _ x hx
  exact h.key_eq hx

/-- The items of the whole map that have one key come in the order in which they were filed. -/
theorem group_toList (k : κ) : group key (m.toList.flatMap Prod.snd) k = group key xs k := by
  rw [toList_eq_flatMap, group_flatMap key (m.keys_sorted.imp ne_of_lt) m.itemsAt
    fun k _ x hx => h.key_eq hx]
  by_cases hk : k ∈ m.keys
  · rw [if_pos hk, h k]
  · rw [if_neg hk, ← h k, itemsAt_of_not_mem hk]

end Whole

end Buckets

end Ordered

/-- A relation that holds along the items of each key holds along the list between items of the
same key. -/
theorem pairwise_of_group [DecidableEq κ] {key : α → κ} {xs : List α} {R : α → α → Prop}
    (h : ∀ k, (group key xs k).Pairwise R) : xs.Pairwise fun x y => key x = key y → R x y := by
  apply List.pairwise_iff_forall_sublist.mpr
  intro x y hsublist hkey
  have hgroup := hsublist.filter fun z => key z = key y
  have hpair : [x, y].filter (fun z => key z = key y) = [x, y] := by simp [hkey]
  rw [hpair] at hgroup
  exact List.pairwise_iff_forall_sublist.mp (h (key y)) hgroup

end Filing
