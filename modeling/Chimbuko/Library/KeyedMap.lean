import Mathlib.Algebra.Group.Pi.Basic
import Mathlib.Algebra.Group.WithOne.Defs
import Mathlib.Data.List.AList
import Mathlib.Algebra.BigOperators.Group.List.Basic
import Mathlib.Tactic.Abel

/-!
# Merging one keyed map into another

A loop over the entries of one map that combines each entry into a second map touches every
key once, so its effect can be read off key by key: a key of the first map is combined with
what the second map held there, every other key keeps its value. The combination may fail;
if it succeeds at every entry then so does the loop.

When the values are weighed in an additive semigroup and combining two values adds their
weights, merging maps adds them pointwise, with absent keys counting as an adjoined zero.

The values of a map are a list, up to their order: a new key adds a value to it and erasing a
key takes its value away. A map of maps is searched with a pair of keys.
-/

namespace KeyedMap

universe u

variable {α V W ε : Type u} [DecidableEq α]

/-- Combine every entry of `m` into `base`, in the order of `m`'s entries. -/
def upsertAll (f : Option V → W → Except ε V) (base : AList fun _ : α => V)
    (m : AList fun _ : α => W) : Except ε (AList fun _ : α => V) :=
  m.entries.foldlM (fun acc entry => do
    let value ← f (acc.lookup entry.1) entry.2
    pure (acc.insert entry.1 value)) base

/-- Combine every entry of `m` into `base`, in a way that depends on its key. -/
def upsertEach (f : α → Option V → W → Except ε V) (base : AList fun _ : α => V)
    (m : AList fun _ : α => W) : Except ε (AList fun _ : α => V) :=
  m.entries.foldlM (fun acc entry => do
    let value ← f entry.1 (acc.lookup entry.1) entry.2
    pure (acc.insert entry.1 value)) base

/-- The value that `upsertAll` leaves at a key. -/
def upserted (f : Option V → W → Except ε V) (old : Option V) : Option W → Option V
  | none => old
  | some w => (f old w).toOption

/-- The loop leaves the combined value at each key, and other values as they are. -/
private theorem foldlM_insert_lookup (f : α → Option V → W → Except ε V)
    (entries : List (Sigma fun _ : α => W)) (hnodup : entries.NodupKeys)
    {base result : AList fun _ : α => V}
    (h : entries.foldlM (fun (acc : AList fun _ : α => V) entry => do
        let value ← f entry.1 (acc.lookup entry.1) entry.2
        pure (acc.insert entry.1 value)) base = .ok result) (k : α) :
    (∀ w, entries.dlookup k = some w →
      ∃ v, f k (base.lookup k) w = .ok v ∧ result.lookup k = some v) ∧
    (entries.dlookup k = none → result.lookup k = base.lookup k) := by
  induction entries generalizing base with
  | nil =>
    cases h
    simp
  | cons entry rest ih =>
    obtain ⟨key, w⟩ := entry
    rw [List.nodupKeys_cons] at hnodup
    rw [List.foldlM_cons] at h
    cases hvalue : f key (base.lookup key) w with
    | error e =>
      simp only [hvalue] at h
      cases h
    | ok value =>
      simp only [hvalue] at h
      obtain ⟨hsome, hnone⟩ := ih hnodup.2 h
      by_cases hk : k = key
      · subst hk
        have hresult := hnone (List.dlookup_eq_none.mpr hnodup.1)
        rw [AList.lookup_insert] at hresult
        rw [List.dlookup_cons_eq]
        constructor
        · intro w' hw'
          cases hw'
          exact ⟨value, hvalue, hresult⟩
        · intro hcontra
          cases hcontra
      · rw [List.dlookup_cons_ne _ _ hk]
        rw [AList.lookup_insert_ne hk] at hsome hnone
        exact ⟨hsome, hnone⟩

/-- The loop succeeds if every entry combines without error. -/
private theorem foldlM_insert_ok (f : α → Option V → W → Except ε V)
    (entries : List (Sigma fun _ : α => W)) (hnodup : entries.NodupKeys)
    (base : AList fun _ : α => V)
    (hok : ∀ entry ∈ entries, (f entry.1 (base.lookup entry.1) entry.2).isOk) :
    ∃ result, entries.foldlM (fun (acc : AList fun _ : α => V) entry => do
        let value ← f entry.1 (acc.lookup entry.1) entry.2
        pure (acc.insert entry.1 value)) base = .ok result := by
  induction entries generalizing base with
  | nil => exact ⟨base, rfl⟩
  | cons entry rest ih =>
    obtain ⟨key, w⟩ := entry
    rw [List.nodupKeys_cons] at hnodup
    have hfirst := hok ⟨key, w⟩ List.mem_cons_self
    cases hvalue : f key (base.lookup key) w with
    | error e => simp [hvalue, Except.isOk, Except.toBool] at hfirst
    | ok value =>
      have hother : ∀ entry ∈ rest, entry.1 ≠ key := by
        intro entry hentry heq
        have hmem : entry.1 ∈ rest.keys := List.mem_map_of_mem hentry
        exact hnodup.1 (heq ▸ hmem)
      obtain ⟨result, hrun⟩ := ih hnodup.2 (base.insert key value) (by
        intro entry hentry
        rw [AList.lookup_insert_ne (hother entry hentry)]
        exact hok entry (List.mem_cons_of_mem _ hentry))
      refine ⟨result, ?_⟩
      rw [List.foldlM_cons]
      simp only [hvalue]
      exact hrun

/-- What a loop over the entries leaves at a key of theirs. -/
theorem lookup_upsertEach {f : α → Option V → W → Except ε V} {base result : AList fun _ : α => V}
    {m : AList fun _ : α => W} (h : upsertEach f base m = .ok result) {k : α} {w : W}
    (hw : m.lookup k = some w) :
    ∃ v, f k (base.lookup k) w = .ok v ∧ result.lookup k = some v :=
  (foldlM_insert_lookup f m.entries m.nodupKeys h k).1 w hw

/-- What a loop over the entries leaves at any other key. -/
theorem lookup_upsertEach_of_none {f : α → Option V → W → Except ε V}
    {base result : AList fun _ : α => V} {m : AList fun _ : α => W}
    (h : upsertEach f base m = .ok result) {k : α} (hk : m.lookup k = none) :
    result.lookup k = base.lookup k :=
  (foldlM_insert_lookup f m.entries m.nodupKeys h k).2 hk

/-- The loop over the entries succeeds if each combines without error. -/
theorem upsertEach_ok (f : α → Option V → W → Except ε V) (base : AList fun _ : α => V)
    (m : AList fun _ : α => W)
    (hok : ∀ k w, m.lookup k = some w → (f k (base.lookup k) w).isOk) :
    ∃ result, upsertEach f base m = .ok result :=
  foldlM_insert_ok f m.entries m.nodupKeys base fun entry hentry =>
    hok entry.1 entry.2 (List.mem_dlookup m.nodupKeys hentry)

/-- A loop over the entries fails only as one of them does. -/
theorem upsertEach_error {f : α → Option V → W → Except ε V} {base : AList fun _ : α => V}
    {m : AList fun _ : α => W} {e : ε} (h : upsertEach f base m = .error e) :
    ∃ k old w, f k old w = .error e := by
  have hfold : ∀ (entries : List (Sigma fun _ : α => W)) (base : AList fun _ : α => V),
      entries.foldlM (fun (acc : AList fun _ : α => V) entry => do
        let value ← f entry.1 (acc.lookup entry.1) entry.2
        pure (acc.insert entry.1 value)) base = .error e → ∃ k old w, f k old w = .error e := by
    intro entries
    induction entries with
    | nil =>
      intro base h
      cases h
    | cons entry rest ih =>
      intro base h
      rw [List.foldlM_cons] at h
      cases hvalue : f entry.1 (base.lookup entry.1) entry.2 with
      | error e' =>
        rw [hvalue] at h
        cases h
        exact ⟨entry.1, base.lookup entry.1, entry.2, hvalue⟩
      | ok value =>
        rw [hvalue] at h
        exact ih _ h
  exact hfold m.entries base h

/-- If every entry combines without error, the loop succeeds and its result is pointwise. -/
theorem upsertAll_ok (f : Option V → W → Except ε V) (base : AList fun _ : α => V)
    (m : AList fun _ : α => W)
    (hok : ∀ k w, m.lookup k = some w → (f (base.lookup k) w).isOk) :
    ∃ result, upsertAll f base m = .ok result ∧
      ∀ k, result.lookup k = upserted f (base.lookup k) (m.lookup k) := by
  obtain ⟨result, hrun⟩ := upsertEach_ok (fun _ => f) base m hok
  refine ⟨result, hrun, fun k => ?_⟩
  cases hw : m.lookup k with
  | none => exact lookup_upsertEach_of_none hrun hw
  | some w =>
    obtain ⟨v, hv, hlookup⟩ := lookup_upsertEach hrun hw
    simp [upserted, hv, hlookup, Except.toOption]

section Merge

/-- How the values at one key of two maps make the value of the merged map: a value that only one
map has is kept. -/
inductive Combined {V : Type*} (R : V → V → V → Prop) : Option V → Option V → Option V → Prop
  | right (y : Option V) : Combined R none y y
  | left (v : V) : Combined R (some v) none (some v)
  | both {v w u : V} : R v w u → Combined R (some v) (some w) (some u)

/-- Combine a value with an old one, or copy it. -/
def plusOrCopy (plus : V → V → Except ε V) : Option V → V → Except ε V
  | none, new => pure new
  | some old, new => plus old new

/-- Merge a map into another one, copying the values at new keys. -/
def merge (plus : V → V → Except ε V) (into m : AList fun _ : α => V) :
    Except ε (AList fun _ : α => V) :=
  upsertAll (plusOrCopy plus) into m

/-- A merged map, key by key. -/
theorem combined_merge {plus : V → V → Except ε V} {into m result : AList fun _ : α => V}
    (h : merge plus into m = .ok result) (k : α) :
    Combined (fun v w u => plus v w = .ok u) (into.lookup k) (m.lookup k) (result.lookup k) := by
  have hrun : upsertEach (fun _ => plusOrCopy plus) into m = .ok result := h
  cases hnew : m.lookup k with
  | none =>
    rw [lookup_upsertEach_of_none hrun hnew]
    cases into.lookup k with
    | none => exact .right none
    | some v => exact .left v
  | some w =>
    obtain ⟨u, hu, hlookup⟩ := lookup_upsertEach hrun hnew
    rw [hlookup]
    cases hold : into.lookup k with
    | none =>
      rw [hold] at hu
      cases hu
      exact .right _
    | some v =>
      rw [hold] at hu
      exact .both hu

/-- Merging succeeds if the values at common keys combine. -/
theorem merge_ok {plus : V → V → Except ε V} {into m : AList fun _ : α => V}
    (hok : ∀ k v w, into.lookup k = some v → m.lookup k = some w → (plus v w).isOk) :
    ∃ result, merge plus into m = .ok result := by
  apply upsertEach_ok (fun _ => plusOrCopy plus)
  intro k w hw
  cases hold : into.lookup k with
  | none => rfl
  | some v => exact hok k v w hold hw

/-- Merging fails only as two values do. -/
theorem merge_error {plus : V → V → Except ε V} {into m : AList fun _ : α => V} {e : ε}
    (h : merge plus into m = .error e) : ∃ v w, plus v w = .error e := by
  have hrun : upsertEach (fun _ => plusOrCopy plus) into m = .error e := h
  obtain ⟨k, old, w, hvalue⟩ := upsertEach_error hrun
  cases old with
  | none => cases hvalue
  | some v => exact ⟨v, w, hvalue⟩

/-- Maps of maps combine at pairs of keys. -/
theorem Combined.bind {U V : Type*} {R : U → U → U → Prop} {R' : V → V → V → Prop}
    {f : U → Option V} (hR : ∀ v w u, R v w u → Combined R' (f v) (f w) (f u))
    {x y z : Option U} (h : Combined R x y z) :
    Combined R' (x.bind f) (y.bind f) (z.bind f) := by
  cases h with
  | right => exact .right _
  | left v =>
    change Combined R' (f v) none (f v)
    cases f v with
    | none => exact .right none
    | some u => exact .left u
  | both h => exact hR _ _ _ h

end Merge

/-- Replace the value of every entry. -/
def mapEntries (f : α → V → V) (m : AList fun _ : α => V) : AList fun _ : α => V where
  entries := m.entries.map fun entry => ⟨entry.1, f entry.1 entry.2⟩
  nodupKeys := by
    have hkeys : (m.entries.map fun entry => (⟨entry.1, f entry.1 entry.2⟩ :
        Sigma fun _ : α => V)).keys = m.entries.keys := by
      rw [List.keys, List.map_map]
      rfl
    rw [List.NodupKeys, hkeys]
    exact m.nodupKeys

/-- Replacing values keeps the keys. -/
theorem lookup_mapEntries (f : α → V → V) (m : AList fun _ : α => V) (k : α) :
    (mapEntries f m).lookup k = (m.lookup k).map (f k) := by
  have hentries : ∀ entries : List (Sigma fun _ : α => V),
      (List.dlookup k (entries.map fun entry => (⟨entry.1, f entry.1 entry.2⟩ :
        Sigma fun _ : α => V)) : Option V) = (List.dlookup k entries : Option V).map (f k) := by
    intro entries
    induction entries with
    | nil => rfl
    | cons entry rest ih =>
      obtain ⟨key, v⟩ := entry
      by_cases hk : k = key
      · subst hk
        rw [List.map_cons, List.dlookup_cons_eq, List.dlookup_cons_eq]
        rfl
      · rw [List.map_cons, List.dlookup_cons_ne _ _ hk, List.dlookup_cons_ne _ _ hk, ih]
  exact hentries m.entries

/-- The entry of a key is the only one with that key. -/
theorem filter_entries (m : AList fun _ : α => V) (k : α) :
    (m.entries.filter fun e => e.1 = k) =
      ((m.lookup k).map fun v => (⟨k, v⟩ : Sigma fun _ : α => V)).toList := by
  have hentries : ∀ entries : List (Sigma fun _ : α => V), entries.NodupKeys →
      (entries.filter fun e => e.1 = k) = ((List.dlookup k entries).map fun v =>
        (⟨k, v⟩ : Sigma fun _ : α => V)).toList := by
    intro entries hnodup
    induction entries with
    | nil => rfl
    | cons entry rest ih =>
      obtain ⟨key, v⟩ := entry
      rw [List.nodupKeys_cons] at hnodup
      by_cases hk : k = key
      · subst hk
        have hrest : (rest.filter fun e => e.1 = k) = [] := by
          rw [ih hnodup.2, List.dlookup_eq_none.mpr hnodup.1]
          rfl
        simp [hrest]
      · rw [List.dlookup_cons_ne _ _ hk, ← ih hnodup.2]
        simp [Ne.symm hk]
  exact hentries m.entries m.nodupKeys

omit [DecidableEq α] in
/-- Lists made from the entries do not overlap if their members tell the key. -/
theorem nodup_flatMap_entries {β : Type*} (m : AList fun _ : α => V) (g : α → V → List β)
    (key : β → α) (hkey : ∀ k v, ∀ x ∈ g k v, key x = k) (hg : ∀ k v, (g k v).Nodup) :
    (m.entries.flatMap fun e => g e.1 e.2).Nodup := by
  rw [List.nodup_flatMap]
  refine ⟨fun e _ => hg e.1 e.2, ?_⟩
  apply (List.nodupKeys_iff_pairwise.mp m.nodupKeys).imp
  intro e e' hne x hx hx'
  exact hne ((hkey _ _ x hx).symm.trans (hkey _ _ x hx'))

section Tally

variable {M : Type*}

/-- The weights of a map's values, with the adjoined zero at absent keys. -/
def tally (weight : V → M) (m : AList fun _ : α => V) (k : α) : WithZero M :=
  match m.lookup k with
  | none => 0
  | some v => (weight v : WithZero M)

/-- A key with a value has its weight. -/
theorem tally_of_lookup {weight : V → M} {m : AList fun _ : α => V} {k : α} {v : V}
    (h : m.lookup k = some v) : tally weight m k = (weight v : WithZero M) := by
  rw [tally, h]

/-- A key without a value has no weight. -/
theorem tally_of_lookup_none {weight : V → M} {m : AList fun _ : α => V} {k : α}
    (h : m.lookup k = none) : tally weight m k = 0 := by
  rw [tally, h]

/-- An empty map has no weights. -/
@[simp] theorem tally_empty (weight : V → M) : tally weight (∅ : AList fun _ : α => V) = 0 := by
  funext k
  exact tally_of_lookup_none (AList.lookup_empty k)

/-- Maps with the same entries have the same tally. -/
theorem tally_congr {weight : V → M} {m m' : AList fun _ : α => V}
    (h : ∀ k, m'.lookup k = m.lookup k) : tally weight m' = tally weight m := by
  funext k
  rw [tally, tally, h]

/-- If combining adds weights at every entry, the loop succeeds and adds the tallies. -/
theorem tally_upsertAll [AddSemigroup M] (f : Option V → W → Except ε V) (weight : V → M)
    (weightNew : W → M) (base : AList fun _ : α => V) (m : AList fun _ : α => W)
    (h : ∀ k w, m.lookup k = some w → ∃ v, f (base.lookup k) w = .ok v ∧
      (weight v : WithZero M) = tally weight base k + (weightNew w : WithZero M)) :
    ∃ result, upsertAll f base m = .ok result ∧
      (∀ k, result.lookup k = upserted f (base.lookup k) (m.lookup k)) ∧
      tally weight result = tally weight base + tally weightNew m := by
  obtain ⟨result, hrun, hlookup⟩ := upsertAll_ok f base m (by
    intro k w hw
    obtain ⟨v, hv, -⟩ := h k w hw
    rw [hv]
    rfl)
  refine ⟨result, hrun, hlookup, funext fun k => ?_⟩
  rw [Pi.add_apply]
  cases hw : m.lookup k with
  | none =>
    rw [tally_of_lookup_none hw, add_zero, tally, tally, hlookup, hw]
    rfl
  | some w =>
    obtain ⟨v, hv, hweight⟩ := h k w hw
    have hresult : result.lookup k = some v := by
      rw [hlookup, hw, upserted, hv]
      rfl
    rw [tally_of_lookup hresult, hweight, tally_of_lookup hw]

end Tally

section Values

variable {β : Type*} {V : Type*} [DecidableEq β]

/-- The values of a map. -/
def values (m : AList fun _ : β => V) : List V := m.entries.map Sigma.snd

/-- The values are those under some key. -/
theorem mem_values {m : AList fun _ : β => V} {v : V} :
    v ∈ values m ↔ ∃ k, m.lookup k = some v := by
  rw [values, List.mem_map]
  constructor
  · rintro ⟨⟨k, v⟩, hmem, rfl⟩
    exact ⟨k, AList.mem_lookup_iff.mpr hmem⟩
  · rintro ⟨k, hk⟩
    exact ⟨⟨k, v⟩, AList.mem_lookup_iff.mp hk, rfl⟩

/-- A new key adds its value. -/
theorem values_insert {m : AList fun _ : β => V} {k : β} (v : V) (h : m.lookup k = none) :
    values (m.insert k v) = v :: values m := by
  rw [values, AList.entries_insert_of_notMem (AList.lookup_eq_none.mp h)]
  rfl

/-- Erasing a key takes its value away. -/
theorem values_erase_perm {m : AList fun _ : β => V} {k : β} {v : V} (h : m.lookup k = some v) :
    (values m).Perm (v :: values (m.erase k)) := by
  have hmem : k ∈ m.entries.keys := AList.lookup_isSome.mp (Option.isSome_iff_exists.mpr ⟨v, h⟩)
  obtain ⟨v', l₁, l₂, -, hentries, herase⟩ := List.exists_of_kerase hmem
  have hv : (⟨k, v⟩ : Sigma fun _ : β => V) = ⟨k, v'⟩ := by
    have hmem' : (⟨k, v'⟩ : Sigma fun _ : β => V) ∈ m.entries := by
      rw [hentries]
      exact List.mem_append_right _ List.mem_cons_self
    have hlookup : m.lookup k = some v' := AList.mem_lookup_iff.mpr hmem'
    rw [Option.some.inj (h.symm.trans hlookup)]
  have herase' : (m.erase k).entries = l₁ ++ l₂ := herase
  rw [values, values, herase', hentries, ← hv, List.map_append, List.map_append, List.map_cons]
  exact List.perm_middle

/-- A value that is inserted replaces that of its key. -/
theorem values_insert_eq (m : AList fun _ : β => V) (k : β) (v : V) :
    values (m.insert k v) = v :: values (m.erase k) := by
  rw [values, AList.entries_insert]
  rfl

/-- The sum of what the values of a map weigh. -/
def total {M : Type*} [AddCommMonoid M] (weight : V → M) (m : AList fun _ : β => V) : M :=
  ((values m).map weight).sum

section Total

variable {M : Type*} [AddCommMonoid M] (weight : V → M)

omit [DecidableEq β] in
/-- An empty map has no total. -/
@[simp] theorem total_empty : total weight (∅ : AList fun _ : β => V) = 0 := rfl

/-- A map weighs what a key holds and what is left without the key. -/
theorem total_erase (m : AList fun _ : β => V) (k : β) :
    total weight m = ((m.lookup k).map weight).getD 0 + total weight (m.erase k) := by
  cases h : m.lookup k with
  | none =>
    have herase : (m.erase k).entries = m.entries :=
      List.kerase_of_notMem_keys (AList.lookup_eq_none.mp h)
    rw [Option.map_none, Option.getD_none, zero_add, total, total, values, values, herase]
  | some v =>
    rw [total, ((values_erase_perm h).map weight).sum_eq]
    rfl

/-- Replacing a value changes the weight by that value's. -/
theorem total_insert (m : AList fun _ : β => V) (k : β) (v : V) :
    total weight (m.insert k v) = weight v + total weight (m.erase k) := by
  rw [total, values_insert_eq]
  rfl

end Total

end Values

section Nested

variable {β γ V : Type*} [DecidableEq β] [DecidableEq γ]

/-- The entries of a map of maps, with their keys of both levels. -/
def flatten (m : AList fun _ : β => AList fun _ : γ => V) : List ((β × γ) × V) :=
  m.entries.flatMap fun p => p.2.entries.map fun e => ((p.1, e.1), e.2)

/-- The value at keys of both levels. -/
def find (m : AList fun _ : β => AList fun _ : γ => V) (key : β × γ) : Option V :=
  (m.lookup key.1).bind fun inner => inner.lookup key.2

/-- The flattened map has the values under their pairs of keys. -/
theorem mem_flatten {m : AList fun _ : β => AList fun _ : γ => V} {key : β × γ} {v : V} :
    (key, v) ∈ flatten m ↔ find m key = some v := by
  rw [flatten, List.mem_flatMap, find, Option.bind_eq_some_iff]
  constructor
  · rintro ⟨⟨b, inner⟩, hmem, hentry⟩
    obtain ⟨⟨c, w⟩, hinner, heq⟩ := List.mem_map.mp hentry
    cases heq
    exact ⟨inner, AList.mem_lookup_iff.mpr hmem, AList.mem_lookup_iff.mpr hinner⟩
  · rintro ⟨inner, hmem, hinner⟩
    refine ⟨⟨key.1, inner⟩, AList.mem_lookup_iff.mp hmem, ?_⟩
    exact List.mem_map.mpr ⟨⟨key.2, v⟩, AList.mem_lookup_iff.mp hinner, rfl⟩

/-- Inserting into an inner map changes one value. -/
theorem find_insert (m : AList fun _ : β => AList fun _ : γ => V) (key key' : β × γ) (v : V) :
    find (m.insert key.1 (((m.lookup key.1).getD ∅).insert key.2 v)) key' =
      if key' = key then some v else find m key' := by
  obtain ⟨b, c⟩ := key
  obtain ⟨b', c'⟩ := key'
  by_cases hb : b' = b
  · subst hb
    rw [find, AList.lookup_insert, Option.bind_some]
    by_cases hc : c' = c
    · subst hc
      rw [AList.lookup_insert, if_pos rfl]
    · rw [AList.lookup_insert_ne hc, if_neg (by simpa using hc), find]
      cases m.lookup b' with
      | none => exact AList.lookup_empty c'
      | some inner => rfl
  · rw [find, AList.lookup_insert_ne hb, if_neg (fun h => hb (congrArg Prod.fst h))]
    rfl

/-- A map built from pairs holds the pairs, if no two of them share a key. -/
theorem lookup_foldl_insert (pairs : List (β × V))
    (hpairs : ∀ p ∈ pairs, ∀ q ∈ pairs, p.1 = q.1 → p = q) (m : AList fun _ : β => V) {k : β}
    {v : V} : (pairs.foldl (fun acc p => acc.insert p.1 p.2) m).lookup k = some v ↔
      (k, v) ∈ pairs ∨ (∀ p ∈ pairs, p.1 ≠ k) ∧ m.lookup k = some v := by
  induction pairs generalizing m with
  | nil => simp
  | cons p rest ih =>
    rw [List.foldl_cons, ih fun q hq r hr =>
      hpairs q (List.mem_cons_of_mem _ hq) r (List.mem_cons_of_mem _ hr)]
    by_cases hk : p.1 = k
    · subst hk
      rw [AList.lookup_insert, List.mem_cons]
      constructor
      · rintro (hmem | ⟨-, hv⟩)
        · exact Or.inl (Or.inr hmem)
        · exact Or.inl (Or.inl (Prod.ext rfl (Option.some.inj hv).symm))
      · rintro ((heq | hmem) | ⟨hne, -⟩)
        · by_cases hrest : ∃ q ∈ rest, q.1 = p.1
          · obtain ⟨q, hq, hqk⟩ := hrest
            have hqp := hpairs q (List.mem_cons_of_mem _ hq) p List.mem_cons_self hqk
            exact Or.inl (by rw [heq, ← hqp]; exact hq)
          · push Not at hrest
            exact Or.inr ⟨hrest, congrArg some (congrArg Prod.snd heq).symm⟩
        · exact Or.inl hmem
        · exact absurd rfl (hne p List.mem_cons_self)
    · rw [AList.lookup_insert_ne (Ne.symm hk), List.mem_cons, List.forall_mem_cons]
      have hne : (k, v) ≠ p := fun heq => hk (congrArg Prod.fst heq).symm
      tauto

/-- The map that some pairs make up. -/
def ofPairs (pairs : List (β × V)) : AList fun _ : β => V :=
  pairs.foldl (fun acc p => acc.insert p.1 p.2) ∅

/-- The pairs of a map, with something done to the values, make up the map with that done. -/
theorem lookup_ofPairs {W : Type*} (f : V → W) (m : AList fun _ : β => V) (k : β) :
    (ofPairs (m.entries.map fun e => (e.1, f e.2))).lookup k = (m.lookup k).map f := by
  have hpairs : ∀ p ∈ m.entries.map (fun e => (e.1, f e.2)),
      ∀ q ∈ m.entries.map (fun e => (e.1, f e.2)), p.1 = q.1 → p = q := by
    intro p hp q hq hkey
    obtain ⟨⟨i, v⟩, hv, rfl⟩ := List.mem_map.mp hp
    obtain ⟨⟨j, w⟩, hw, rfl⟩ := List.mem_map.mp hq
    obtain rfl : i = j := hkey
    have heq := (AList.mem_lookup_iff.mpr hv).symm.trans (AList.mem_lookup_iff.mpr hw)
    rw [Option.some.inj heq]
  ext v
  rw [ofPairs, lookup_foldl_insert _ hpairs, AList.lookup_empty, Option.map_eq_some_iff,
    List.mem_map]
  constructor
  · rintro (⟨⟨i, w⟩, hw, heq⟩ | ⟨-, hnone⟩)
    · cases heq
      exact ⟨w, AList.mem_lookup_iff.mpr hw, rfl⟩
    · cases hnone
  · rintro ⟨w, hw, rfl⟩
    exact Or.inl ⟨⟨k, w⟩, AList.mem_lookup_iff.mp hw, rfl⟩

end Nested

section TotalUpsert

variable {M : Type*} [AddCommMonoid M]

/-- If combining two values adds their weights, merging two maps adds theirs. -/
theorem total_upsertAll {f : Option V → W → Except ε V} {weight : V → M} {weightNew : W → M}
    (hweight : ∀ old w v, f old w = .ok v →
      weight v = (old.map weight).getD 0 + weightNew w)
    {base result : AList fun _ : α => V} {m : AList fun _ : α => W}
    (h : upsertAll f base m = .ok result) :
    total weight result = total weight base + total weightNew m := by
  have hfold : ∀ (entries : List (Sigma fun _ : α => W)) (base : AList fun _ : α => V),
      entries.foldlM (fun (acc : AList fun _ : α => V) entry => do
        let value ← f (acc.lookup entry.1) entry.2
        pure (acc.insert entry.1 value)) base = .ok result →
      total weight result =
        total weight base + ((entries.map Sigma.snd).map weightNew).sum := by
    intro entries
    induction entries with
    | nil =>
      intro base h
      cases h
      exact (add_zero _).symm
    | cons entry rest ih =>
      intro base h
      rw [List.foldlM_cons] at h
      cases hvalue : f (base.lookup entry.1) entry.2 with
      | error e =>
        rw [hvalue] at h
        cases h
      | ok value =>
        rw [hvalue] at h
        rw [ih _ h, total_insert, hweight _ _ _ hvalue, total_erase weight base entry.1,
          List.map_cons, List.map_cons, List.sum_cons]
        abel
  exact hfold m.entries base h

end TotalUpsert

end KeyedMap
