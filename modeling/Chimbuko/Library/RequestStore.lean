import Mathlib.Algebra.Order.Group.Nat
import Mathlib.Data.List.Induction
import Mathlib.Data.List.Nodup
import Mathlib.Data.List.Perm.Subperm
import Mathlib.Logic.Function.Basic

/-!
# A store that remembers what was asked for in vain

A store keeps the latest item that was added for each key, and the keys for which an item was
requested while there was none. A call adds items, then hands out an item for every wanted key
that has one, then serves requests; whatever is handed out is taken from the store.

Every item is handed out at most as often as it was added, over any run of calls. After a call
nothing is stored for a wanted key, and a key stays wanted until an item is added for it.
-/

namespace RequestStore

variable {κ E : Type*}

/-- The stored item of each key, and the keys that wait for one. -/
structure Store (κ E : Type*) where
  stored : κ → Option E
  wanted : κ → Prop

/-- The items added during a call and the keys that it requests. -/
structure Call (κ E : Type*) where
  adds : List (κ × E)
  requests : List κ

namespace Store

/-- Nothing is stored or wanted. -/
def empty : Store κ E := { stored := fun _ => none, wanted := fun _ => False }

/-- Nothing is stored for a wanted key. -/
def Disjoint (s : Store κ E) : Prop := ∀ k, s.wanted k → s.stored k = none

/-- Every wanted key that has an item is served with it. Its request is cleared and, if `del`
says so, the item is deleted. -/
structure Serves (del : Bool) (s : Store κ E) (served : List (κ × E)) (s' : Store κ E) :
    Prop where
  nodup : (served.map Prod.fst).Nodup
  mem_iff : ∀ k e, (k, e) ∈ served ↔ s.wanted k ∧ s.stored k = some e
  wanted : ∀ k, s'.wanted k ↔ s.wanted k ∧ s.stored k = none
  kept : ∀ k, ¬ (del = true ∧ s.wanted k) → s'.stored k = s.stored k
  deleted : ∀ k, del = true → s.wanted k → s'.stored k = none

variable [DecidableEq κ]

/-- Add an item for a key, in place of an earlier one. -/
def add (s : Store κ E) (p : κ × E) : Store κ E :=
  { s with stored := Function.update s.stored p.1 (some p.2) }

/-- Add items one after another. -/
def addAll (s : Store κ E) (adds : List (κ × E)) : Store κ E := adds.foldl add s

/-- Take the item of a key, or have the key wait for one. -/
def request (s : Store κ E) (k : κ) : Option E × Store κ E :=
  (s.stored k,
    match s.stored k with
    | some _ => { s with stored := Function.update s.stored k none }
    | none => { s with wanted := fun k' => s.wanted k' ∨ k' = k })

/-- Request keys one after another. -/
def requestAll (s : Store κ E) : List κ → List (κ × E) × Store κ E
  | [] => ([], s)
  | k :: rest =>
    let r := s.request k
    let t := r.2.requestAll rest
    ((r.1.map fun e => (k, e)).toList ++ t.1, t.2)

/-- A call hands out `out`: first what is served, which leaves `mid`, then what is requested. -/
structure Step (s : Store κ E) (c : Call κ E) (served : List (κ × E)) (mid : Store κ E)
    (out : List (κ × E)) (s' : Store κ E) : Prop where
  serves : Serves true (s.addAll c.adds) served mid
  out_eq : out = served ++ (mid.requestAll c.requests).1
  state_eq : s' = (mid.requestAll c.requests).2

/-- The calls of a run, with everything that they hand out. -/
inductive Run : List (Call κ E) → List (κ × E) → Store κ E → Prop
  | nil : Run [] [] empty
  | snoc {calls : List (Call κ E)} {outs served out : List (κ × E)} {s mid s' : Store κ E}
      {c : Call κ E} : Run calls outs s → Step s c served mid out s' →
      Run (calls ++ [c]) (outs ++ out) s'

end Store

variable [DecidableEq κ]

/-- The last of the items that are added for a key. -/
def lastAdded (adds : List (κ × E)) (k : κ) : Option E :=
  (adds.filter fun p => p.1 = k).getLast?.map Prod.snd

/-- The last item is the last one of its key. -/
theorem lastAdded_concat (adds : List (κ × E)) (p : κ × E) (k : κ) :
    lastAdded (adds ++ [p]) k = if p.1 = k then some p.2 else lastAdded adds k := by
  unfold lastAdded
  rw [List.filter_append]
  by_cases h : p.1 = k
  · simp [h]
  · simp [h]

namespace Store

variable {s s' : Store κ E}

/-- An item that is added is stored under its key. -/
theorem stored_add (s : Store κ E) (p : κ × E) (k : κ) :
    (s.add p).stored k = if k = p.1 then some p.2 else s.stored k :=
  Function.update_apply s.stored p.1 (some p.2) k

/-- The last item is added at the end. -/
theorem addAll_concat (s : Store κ E) (adds : List (κ × E)) (p : κ × E) :
    s.addAll (adds ++ [p]) = (s.addAll adds).add p := List.foldl_concat add s p adds

/-- The last item added is the one that is stored. -/
theorem stored_addAll (s : Store κ E) (adds : List (κ × E)) (k : κ) :
    (s.addAll adds).stored k = (lastAdded adds k).or (s.stored k) := by
  induction adds using List.reverseRecOn with
  | nil => rfl
  | append_singleton adds p ih =>
    rw [addAll_concat, stored_add, lastAdded_concat, ih]
    by_cases h : p.1 = k
    · rw [if_pos h, if_pos h.symm, Option.some_or]
    · rw [if_neg h, if_neg (Ne.symm h)]

/-- Adding items leaves what is wanted. -/
@[simp] theorem wanted_addAll (s : Store κ E) (adds : List (κ × E)) :
    (s.addAll adds).wanted = s.wanted := by
  induction adds using List.reverseRecOn with
  | nil => rfl
  | append_singleton adds p ih =>
    rw [addAll_concat]
    exact ih

/-- A request leaves nothing stored for its key. -/
theorem stored_request (s : Store κ E) (k : κ) :
    (s.request k).2.stored = Function.update s.stored k none := by
  unfold request
  cases h : s.stored k with
  | some e => rfl
  | none =>
    apply funext
    intro k'
    by_cases hk : k' = k
    · rw [hk, Function.update_self]
      exact h
    · rw [Function.update_of_ne hk]

/-- A key waits after a request if it did before or nothing was stored for it. -/
theorem wanted_request (s : Store κ E) (k k' : κ) :
    (s.request k).2.wanted k' ↔ s.wanted k' ∨ k' = k ∧ s.stored k = none := by
  unfold request
  cases h : s.stored k with
  | some e => simp
  | none => simp

/-- What is requested is not stored any more. -/
theorem stored_requestAll (requests : List κ) (s : Store κ E) (k : κ) :
    (s.requestAll requests).2.stored k = if k ∈ requests then none else s.stored k := by
  induction requests generalizing s with
  | nil => simp [requestAll]
  | cons r rest ih =>
    unfold requestAll
    rw [ih, stored_request]
    by_cases hk : k = r
    · simp [hk]
    · rw [Function.update_of_ne hk]
      simp [hk]

/-- A key that is requested once waits afterwards if nothing was stored for it. -/
theorem wanted_requestAll {requests : List κ} (hnodup : requests.Nodup) (s : Store κ E) (k : κ) :
    (s.requestAll requests).2.wanted k ↔ s.wanted k ∨ k ∈ requests ∧ s.stored k = none := by
  induction requests generalizing s with
  | nil => simp [requestAll]
  | cons r rest ih =>
    have hr : r ∉ rest := (List.nodup_cons.mp hnodup).1
    unfold requestAll
    rw [ih (List.nodup_cons.mp hnodup).2, wanted_request, stored_request, List.mem_cons]
    by_cases hk : k = r
    · simp [hk, hr]
    · rw [Function.update_of_ne hk]
      simp [hk]

/-- Serving after items were added leaves the keys waiting that nothing was added for. -/
theorem Serves.wanted_iff {adds served : List (κ × E)} (h : Serves true (s.addAll adds) served s')
    (hs : s.Disjoint) (k : κ) : s'.wanted k ↔ s.wanted k ∧ lastAdded adds k = none := by
  rw [h.wanted, wanted_addAll, stored_addAll]
  by_cases hk : s.wanted k
  · rw [hs k hk, Option.or_none]
  · simp [hk]

/-- A key that waits is served with the last item that is added for it. -/
theorem Serves.delivers {adds served : List (κ × E)} (h : Serves true (s.addAll adds) served s')
    {k : κ} {e : E} (hk : s.wanted k) (hadds : lastAdded adds k = some e) : (k, e) ∈ served := by
  rw [h.mem_iff, wanted_addAll, stored_addAll, hadds, Option.some_or]
  exact ⟨hk, rfl⟩

section Step

variable {c : Call κ E} {served out : List (κ × E)} {mid : Store κ E}

/-- After a call nothing is stored for a wanted key. -/
theorem Step.disjoint (h : Step s c served mid out s') (hnodup : c.requests.Nodup) :
    s'.Disjoint := by
  intro k hk
  rw [h.state_eq] at hk ⊢
  rw [stored_requestAll]
  split
  · rfl
  · rename_i hout
    cases (wanted_requestAll hnodup mid k).mp hk with
    | inl hwanted => exact h.serves.deleted k rfl ((h.serves.wanted k).mp hwanted).1
    | inr hrequest => exact absurd hrequest.1 hout

/-- A key waits after a call if it did before the requests or was requested while nothing was
stored for it. -/
theorem Step.wanted_iff (h : Step s c served mid out s') (hnodup : c.requests.Nodup) (k : κ) :
    s'.wanted k ↔ mid.wanted k ∨ k ∈ c.requests ∧ mid.stored k = none := by
  rw [h.state_eq]
  exact wanted_requestAll hnodup mid k

end Step

section Counting

variable [DecidableEq E]

/-- How often a store holds an item for a key. -/
def holds (s : Store κ E) (p : κ × E) : ℕ := if s.stored p.1 = some p.2 then 1 else 0

/-- Adding an item adds at most this item. -/
theorem holds_add (s : Store κ E) (q p : κ × E) : (s.add q).holds p ≤ [q].count p + s.holds p := by
  unfold holds
  rw [stored_add]
  by_cases hk : p.1 = q.1
  · by_cases he : q.2 = p.2
    · have hqp : q = p := Prod.ext hk.symm he
      simp [hqp]
    · simp [hk, he]
  · simp [hk]

/-- Adding items adds at most these items. -/
theorem holds_addAll (s : Store κ E) (adds : List (κ × E)) (p : κ × E) :
    (s.addAll adds).holds p ≤ adds.count p + s.holds p := by
  induction adds using List.reverseRecOn with
  | nil => exact Nat.le_add_left _ _
  | append_singleton adds q ih =>
    rw [addAll_concat, List.count_append]
    have hadd := holds_add (s.addAll adds) q p
    omega

/-- A request hands out what it takes from the store. -/
theorem count_request (s : Store κ E) (k : κ) (p : κ × E) :
    ((s.request k).1.map fun e => (k, e)).toList.count p + (s.request k).2.holds p =
      s.holds p := by
  unfold holds
  rw [stored_request]
  change (Option.map (fun e => (k, e)) (s.stored k)).toList.count p + _ = _
  by_cases hk : p.1 = k
  · obtain ⟨k', e⟩ := p
    subst hk
    rw [Function.update_self]
    cases h : s.stored k' with
    | none => rfl
    | some e' => simp [List.count_singleton]
  · rw [Function.update_of_ne hk]
    have hcount : (Option.map (fun e => (k, e)) (s.stored k)).toList.count p = 0 := by
      apply List.count_eq_zero_of_not_mem
      intro hmem
      obtain ⟨e, -, rfl⟩ := Option.map_eq_some_iff.mp (Option.mem_toList.mp hmem)
      exact hk rfl
    rw [hcount, Nat.zero_add]

/-- Requests neither lose nor duplicate what is stored. -/
theorem count_requestAll (requests : List κ) (s : Store κ E) (p : κ × E) :
    (s.requestAll requests).1.count p + (s.requestAll requests).2.holds p = s.holds p := by
  induction requests generalizing s with
  | nil => exact Nat.zero_add _
  | cons r rest ih =>
    have hrest := ih (s.request r).2
    have hfirst := count_request s r p
    have happend : (s.requestAll (r :: rest)).1 =
        ((s.request r).1.map fun e => (r, e)).toList ++ ((s.request r).2.requestAll rest).1 := rfl
    have hstore : (s.requestAll (r :: rest)).2 = ((s.request r).2.requestAll rest).2 := rfl
    rw [happend, hstore, List.count_append]
    omega

/-- What is served was in the store, and is there no more. -/
theorem Serves.count_le {served : List (κ × E)} (h : Serves true s served s') (p : κ × E) :
    served.count p + s'.holds p ≤ s.holds p := by
  unfold holds
  by_cases hmem : p ∈ served
  · obtain ⟨hwanted, hstored⟩ := (h.mem_iff p.1 p.2).mp hmem
    rw [h.deleted p.1 rfl hwanted, if_neg (by simp), if_pos hstored]
    exact List.nodup_iff_count_le_one.mp (List.Nodup.of_map _ h.nodup) p
  · rw [List.count_eq_zero_of_not_mem hmem, Nat.zero_add]
    by_cases hwanted : s.wanted p.1
    · rw [h.deleted p.1 rfl hwanted]
      simp
    · rw [h.kept p.1 (fun hcontra => hwanted hcontra.2)]

/-- A call gives and stores no more items than it adds and was stored. -/
theorem Step.count_le {c : Call κ E} {served out : List (κ × E)} {mid : Store κ E}
    (h : Step s c served mid out s') (p : κ × E) :
    out.count p + s'.holds p ≤ c.adds.count p + s.holds p := by
  have hadds := holds_addAll s c.adds p
  have hserved := h.serves.count_le p
  have hrequests := count_requestAll c.requests mid p
  rw [h.out_eq, h.state_eq, List.count_append]
  omega

end Counting

namespace Run

variable {calls : List (Call κ E)} {outs : List (κ × E)}

/-- After every run nothing is stored for a wanted key. -/
theorem disjoint (h : Run calls outs s) (hnodup : ∀ c ∈ calls, c.requests.Nodup) :
    s.Disjoint := by
  cases h with
  | nil => exact fun k hk => absurd hk id
  | snoc hrun hstep => exact hstep.disjoint (hnodup _ (by simp))

/-- A run gives and stores no more items than were added. -/
theorem count_le [DecidableEq E] (h : Run calls outs s) (p : κ × E) :
    outs.count p + s.holds p ≤ (calls.flatMap Call.adds).count p := by
  induction h with
  | nil => simp [holds, empty]
  | snoc hrun hstep ih =>
    have hnext := hstep.count_le p
    rw [List.flatMap_append, List.count_append, List.count_append, List.flatMap_singleton]
    omega

/-- Over a run, items are handed out at most as often as they are added. -/
theorem subperm (h : Run calls outs s) : List.Subperm outs (calls.flatMap Call.adds) := by
  classical
  apply List.subperm_ext_iff.mpr
  intro p _
  exact (Nat.le_add_right _ _).trans (h.count_le p)

end Run

end Store

end RequestStore
