import Chimbuko.Library.RequestStore
import Mathlib.Data.List.AList

/-!
# Maps of maps as stores

A map whose values are maps again is searched with a key for each level. Changing what an inner
map holds changes one value of the whole, so operations of several levels come from those of the
innermost one.

Two such maps with the same levels, one of wanted and one of stored keys, make a store. A loop
over the wanted keys of the outer level that goes into those that are stored too, and serves the
inner maps there, serves the whole.
-/

namespace NestedMap

open RequestStore

variable {α κ E O N : Type} [DecidableEq α]

/-- The value at a key of a map. -/
def single (m : AList fun _ : α => E) (k : α) : Option E := m.lookup k

/-- The value in a map of maps, with the key of the outer map in front. -/
def under (view : N → κ → Option E) (m : AList fun _ : α => N) (key : α × κ) : Option E :=
  (m.lookup key.1).bind fun n => view n key.2

/-- Change the inner map at a key, which is created if there is none. -/
def adjust [EmptyCollection N] (k : α) (f : N → N) (m : AList fun _ : α => N) :
    AList fun _ : α => N :=
  m.insert k (f ((m.lookup k).getD ∅))

/-- An empty map has no entries. -/
@[simp] theorem single_empty (k : α) : single (∅ : AList fun _ : α => E) k = none :=
  AList.lookup_empty k

/-- An empty map has no entries below it. -/
@[simp] theorem under_empty (view : N → κ → Option E) (key : α × κ) :
    under view (∅ : AList fun _ : α => N) key = none := by
  unfold under
  rw [AList.lookup_empty, Option.bind_none]

/-- An entry that is inserted is found under its key. -/
theorem single_insert (m : AList fun _ : α => E) (k : α) (e : E) :
    single (m.insert k e) = Function.update (single m) k (some e) := by
  funext k'
  unfold single
  by_cases hk : k' = k
  · rw [hk, AList.lookup_insert, Function.update_self]
  · rw [AList.lookup_insert_ne hk, Function.update_of_ne hk]

/-- An entry that is erased is not found any more. -/
theorem single_erase (m : AList fun _ : α => E) (k : α) :
    single (m.erase k) = Function.update (single m) k none := by
  funext k'
  unfold single
  by_cases hk : k' = k
  · rw [hk, AList.lookup_erase, Function.update_self]
  · rw [AList.lookup_erase_ne hk, Function.update_of_ne hk]

/-- Changing one value of an inner map changes one value of the whole. -/
theorem under_adjust [EmptyCollection N] [DecidableEq κ] {view : N → κ → Option E}
    (hempty : ∀ k, view ∅ k = none) {f : N → N} {k : κ} {v : Option E}
    (hf : ∀ n, view (f n) = Function.update (view n) k v) (a : α) (m : AList fun _ : α => N) :
    under view (adjust a f m) = Function.update (under view m) (a, k) v := by
  funext key
  obtain ⟨a', k'⟩ := key
  unfold under adjust
  by_cases ha : a' = a
  · subst ha
    rw [AList.lookup_insert, Option.bind_some, hf]
    by_cases hk : k' = k
    · rw [hk, Function.update_self, Function.update_self]
    · rw [Function.update_of_ne hk, Function.update_of_ne (by simpa using hk)]
      cases m.lookup a' with
      | none => exact hempty k'
      | some n => rfl
  · rw [AList.lookup_insert_ne ha, Function.update_of_ne (fun h => ha (congrArg Prod.fst h))]

section Visit

/-- Go through the entries of one map. Where the other map has the key too, visit both values,
which may change, and collect what the visits return. -/
def visitEntries (visit : O → N → List E × O × N) : List (Sigma fun _ : α => O) →
    (AList fun _ : α => O) → (AList fun _ : α => N) →
      List E × (AList fun _ : α => O) × (AList fun _ : α => N)
  | [], oe, ne => ([], oe, ne)
  | ⟨p, o⟩ :: rest, oe, ne =>
    match ne.lookup p with
    | none => visitEntries visit rest oe ne
    | some n =>
      let r := visit o n
      let t := visitEntries visit rest (oe.insert p r.2.1) (ne.insert p r.2.2)
      (r.1 ++ t.1, t.2)

/-- Visit the values that two maps have at the same keys. -/
def visitBoth (visit : O → N → List E × O × N) (oe : AList fun _ : α => O)
    (ne : AList fun _ : α => N) : List E × (AList fun _ : α => O) × (AList fun _ : α => N) :=
  visitEntries visit oe.entries oe ne

variable (visit : O → N → List E × O × N)

omit [DecidableEq α] in
/-- An entry among others has another key. -/
private theorem ne_of_mem_entries {rest : List (Sigma fun _ : α => O)} {p q : α} {o : O}
    (hq : q ∉ rest.keys) (hmem : ⟨p, o⟩ ∈ rest) : p ≠ q := by
  rintro rfl
  exact hq (List.mem_map.mpr ⟨_, hmem, rfl⟩)

/-- Keys that are not visited keep their values. -/
private theorem visitEntries_other {entries : List (Sigma fun _ : α => O)} {p : α}
    (hp : p ∉ entries.keys) (oe : AList fun _ : α => O) (ne : AList fun _ : α => N) :
    (visitEntries visit entries oe ne).2.1.lookup p = oe.lookup p ∧
      (visitEntries visit entries oe ne).2.2.lookup p = ne.lookup p := by
  induction entries generalizing oe ne with
  | nil => exact ⟨rfl, rfl⟩
  | cons entry rest ih =>
    obtain ⟨q, o⟩ := entry
    rw [List.keys_cons, List.mem_cons, not_or] at hp
    unfold visitEntries
    cases ne.lookup q with
    | none => exact ih hp.2 oe ne
    | some n =>
      have hrest := ih hp.2 (oe.insert q (visit o n).2.1) (ne.insert q (visit o n).2.2)
      rwa [AList.lookup_insert_ne hp.1, AList.lookup_insert_ne hp.1] at hrest

/-- The values at the keys of the entries are visited where there are two. -/
private theorem visitEntries_lookup {entries : List (Sigma fun _ : α => O)}
    (hnodup : entries.NodupKeys) {p : α} {o : O} (hp : ⟨p, o⟩ ∈ entries)
    (oe : AList fun _ : α => O) (ne : AList fun _ : α => N) (hoe : oe.lookup p = some o) :
    (visitEntries visit entries oe ne).2.1.lookup p =
        some (((ne.lookup p).map fun n => (visit o n).2.1).getD o) ∧
      (visitEntries visit entries oe ne).2.2.lookup p =
        (ne.lookup p).map fun n => (visit o n).2.2 := by
  induction entries generalizing oe ne with
  | nil => exact absurd hp List.not_mem_nil
  | cons entry rest ih =>
    obtain ⟨q, o'⟩ := entry
    rw [List.nodupKeys_cons] at hnodup
    unfold visitEntries
    cases List.mem_cons.mp hp with
    | inl heq =>
      cases heq
      cases hne : ne.lookup p with
      | none =>
        have hrest := visitEntries_other visit hnodup.1 oe ne
        rw [hoe, hne] at hrest
        exact hrest
      | some n =>
        have hrest := visitEntries_other visit hnodup.1
          (oe.insert p (visit o n).2.1) (ne.insert p (visit o n).2.2)
        rw [AList.lookup_insert, AList.lookup_insert] at hrest
        exact hrest
    | inr hmem =>
      have hpq := ne_of_mem_entries hnodup.1 hmem
      cases ne.lookup q with
      | none => exact ih hnodup.2 hmem oe ne hoe
      | some n =>
        have hrest := ih hnodup.2 hmem (oe.insert q (visit o' n).2.1)
          (ne.insert q (visit o' n).2.2) (by rw [AList.lookup_insert_ne hpq]; exact hoe)
        rw [AList.lookup_insert_ne hpq] at hrest
        exact hrest

/-- Where the first map has no value, both stay as they are. -/
theorem lookup_visitBoth_of_none {oe : AList fun _ : α => O} {p : α} (h : oe.lookup p = none)
    (ne : AList fun _ : α => N) : (visitBoth visit oe ne).2.1.lookup p = none ∧
      (visitBoth visit oe ne).2.2.lookup p = ne.lookup p := by
  rw [← h]
  exact visitEntries_other visit (AList.lookup_eq_none.mp h) oe ne

/-- Where the first map has a value, it is visited if the other map has one too. -/
theorem lookup_visitBoth_of_some {oe : AList fun _ : α => O} {p : α} {o : O}
    (h : oe.lookup p = some o) (ne : AList fun _ : α => N) :
    (visitBoth visit oe ne).2.1.lookup p =
        some (((ne.lookup p).map fun n => (visit o n).2.1).getD o) ∧
      (visitBoth visit oe ne).2.2.lookup p = (ne.lookup p).map fun n => (visit o n).2.2 :=
  visitEntries_lookup visit oe.nodupKeys (AList.mem_lookup_iff.mp h) oe ne h

end Visit

/-- The store that a map of wanted keys and a map of stored items make. -/
def store (wantedIn : O → κ → Option Unit) (storedIn : N → κ → Option E) (o : O) (n : N) :
    Store κ E where
  stored := storedIn n
  wanted k := (wantedIn o k).isSome

/-- A visit that serves the wanted keys of two maps and returns the items. -/
def ServesBoth (del : Bool) (wantedIn : O → κ → Option Unit) (storedIn : N → κ → Option E)
    (visit : O → N → List E × O × N) : Prop :=
  ∀ o n, ∃ served : List (κ × E), (visit o n).1 = served.map Prod.snd ∧
    Store.Serves del (store wantedIn storedIn o n) served
      (store wantedIn storedIn (visit o n).2.1 (visit o n).2.2)

section Serve

variable {del : Bool} {wantedIn : O → κ → Option Unit} {storedIn : N → κ → Option E}
  {visit : O → N → List E × O × N}

/-- What a loop over the entries collects, if every visit serves. -/
private theorem visitEntries_served (hvisit : ServesBoth del wantedIn storedIn visit)
    {entries : List (Sigma fun _ : α => O)} (hnodup : entries.NodupKeys)
    (oe : AList fun _ : α => O) (ne : AList fun _ : α => N) :
    ∃ served : List ((α × κ) × E),
      (visitEntries visit entries oe ne).1 = served.map Prod.snd ∧
      (served.map Prod.fst).Nodup ∧
      ∀ p k e, ((p, k), e) ∈ served ↔ ∃ o n, ⟨p, o⟩ ∈ entries ∧ ne.lookup p = some n ∧
        (wantedIn o k).isSome ∧ storedIn n k = some e := by
  induction entries generalizing oe ne with
  | nil => exact ⟨[], rfl, List.nodup_nil, by simp⟩
  | cons entry rest ih =>
    obtain ⟨q, o'⟩ := entry
    rw [List.nodupKeys_cons] at hnodup
    unfold visitEntries
    cases hq : ne.lookup q with
    | none =>
      obtain ⟨served, hout, hkeys, hmem⟩ := ih hnodup.2 oe ne
      refine ⟨served, hout, hkeys, fun p k e => ?_⟩
      rw [hmem]
      constructor
      · rintro ⟨o, n, hentry, hrest⟩
        exact ⟨o, n, List.mem_cons_of_mem _ hentry, hrest⟩
      · rintro ⟨o, n, hentry, hn, hrest⟩
        cases List.mem_cons.mp hentry with
        | inl heq =>
          cases heq
          rw [hq] at hn
          cases hn
        | inr hentry => exact ⟨o, n, hentry, hn, hrest⟩
    | some n' =>
      obtain ⟨inner, hinner, hserves⟩ := hvisit o' n'
      obtain ⟨served, hout, hkeys, hmem⟩ :=
        ih hnodup.2 (oe.insert q (visit o' n').2.1) (ne.insert q (visit o' n').2.2)
      refine ⟨inner.map (fun s => ((q, s.1), s.2)) ++ served, ?_, ?_, ?_⟩
      · change (visit o' n').1 ++ _ = _
        rw [hinner, hout, List.map_append, List.map_map]
        rfl
      · rw [List.map_append, List.map_map]
        apply List.Nodup.append
        · have hmap : Prod.fst ∘ (fun s : κ × E => ((q, s.1), s.2)) = Prod.mk q ∘ Prod.fst := rfl
          rw [hmap, ← List.map_map]
          exact hserves.nodup.map (Prod.mk_right_injective q)
        · exact hkeys
        · intro key hfirst hrest
          obtain ⟨s, -, rfl⟩ := List.mem_map.mp hfirst
          obtain ⟨s', hs', hkey⟩ := List.mem_map.mp hrest
          obtain ⟨⟨p, k⟩, e⟩ := s'
          obtain ⟨o, n, hentry, -⟩ := (hmem p k e).mp hs'
          exact ne_of_mem_entries hnodup.1 hentry (congrArg Prod.fst hkey)
      · intro p k e
        rw [List.mem_append, hmem, List.mem_map]
        constructor
        · rintro (⟨s, hs, heq⟩ | ⟨o, n, hentry, hn, hrest⟩)
          · obtain ⟨k', e'⟩ := s
            cases heq
            exact ⟨o', n', List.mem_cons_self, hq, (hserves.mem_iff k' e').mp hs⟩
          · rw [AList.lookup_insert_ne (ne_of_mem_entries hnodup.1 hentry)] at hn
            exact ⟨o, n, List.mem_cons_of_mem _ hentry, hn, hrest⟩
        · rintro ⟨o, n, hentry, hn, hrest⟩
          cases List.mem_cons.mp hentry with
          | inl heq =>
            cases heq
            rw [hq] at hn
            cases hn
            exact Or.inl ⟨(k, e), (hserves.mem_iff k e).mpr hrest, rfl⟩
          | inr hentry =>
            refine Or.inr ⟨o, n, hentry, ?_, hrest⟩
            rw [AList.lookup_insert_ne (ne_of_mem_entries hnodup.1 hentry)]
            exact hn

/-- What a loop over the entries leaves at a key, if every visit serves. -/
private theorem visitBoth_at (hvisit : ServesBoth del wantedIn storedIn visit)
    (oe : AList fun _ : α => O) (ne : AList fun _ : α => N) (key : α × κ) :
    let s := store (under wantedIn) (under storedIn) oe ne
    let s' := store (under wantedIn) (under storedIn) (visitBoth visit oe ne).2.1
      (visitBoth visit oe ne).2.2
    (s'.wanted key ↔ s.wanted key ∧ s.stored key = none) ∧
      (¬ (del = true ∧ s.wanted key) → s'.stored key = s.stored key) ∧
      (del = true → s.wanted key → s'.stored key = none) := by
  obtain ⟨p, k⟩ := key
  simp only [store, under]
  cases ho : oe.lookup p with
  | none =>
    obtain ⟨hoe, hne⟩ := lookup_visitBoth_of_none visit ho ne
    simp [hoe, hne]
  | some o =>
    obtain ⟨hoe, hne⟩ := lookup_visitBoth_of_some visit ho ne
    simp only [hoe, hne]
    cases ne.lookup p with
    | none => simp
    | some n =>
      obtain ⟨inner, -, hserves⟩ := hvisit o n
      exact ⟨hserves.wanted k, hserves.kept k, hserves.deleted k⟩

/-- If the visits of the inner maps serve them, going through two maps of maps serves these. -/
theorem servesBoth_visitBoth (hvisit : ServesBoth del wantedIn storedIn visit) :
    ServesBoth del (under (α := α) wantedIn) (under storedIn) (visitBoth visit) := by
  intro oe ne
  obtain ⟨served, hout, hkeys, hmem⟩ := visitEntries_served hvisit oe.nodupKeys oe ne
  refine ⟨served, hout, hkeys, ?_, ?_, ?_, ?_⟩
  · rintro ⟨p, k⟩ e
    rw [hmem]
    constructor
    · rintro ⟨o, n, hentry, hn, hwanted, hstored⟩
      have ho : oe.lookup p = some o := AList.mem_lookup_iff.mpr hentry
      simp only [store, under, ho, hn, Option.bind_some]
      exact ⟨hwanted, hstored⟩
    · rintro ⟨hwanted, hstored⟩
      obtain ⟨n, hn, hstored⟩ := Option.bind_eq_some_iff.mp hstored
      obtain ⟨u, hu⟩ := Option.isSome_iff_exists.mp hwanted
      obtain ⟨o, ho, hwanted⟩ := Option.bind_eq_some_iff.mp hu
      refine ⟨o, n, AList.mem_lookup_iff.mp ho, hn, ?_, hstored⟩
      rw [hwanted]
      rfl
  · exact fun key => (visitBoth_at hvisit oe ne key).1
  · exact fun key => (visitBoth_at hvisit oe ne key).2.1
  · exact fun key => (visitBoth_at hvisit oe ne key).2.2

end Serve

end NestedMap
