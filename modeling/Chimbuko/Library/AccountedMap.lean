import Chimbuko.Library.KeyedMap
import Mathlib.Algebra.Group.Pi.Basic
import Mathlib.Algebra.Group.WithOne.Defs
import Mathlib.Algebra.Notation.Pi.Basic

/-!
# Maps that account for amounts

Let a value account for an amount in an additive semigroup. A map accounts for a family of amounts
if it holds a value exactly at the keys whose amount is not the adjoined zero, and that value
accounts for the amount. Families of amounts are added pointwise, so a map of maps accounts for
amounts that are such families themselves.

If combining two values adds their amounts then so does merging two maps, at every level. If a value
is determined by its amount, up to some relation, then so is a map. Hence maps built from the same
amounts in any order, and merged from any parts, hold the same keys and the same values.
-/

namespace KeyedMap

universe u

variable {α β V W ε M : Type u}

/-- A value accounts for an amount, and no value for nothing. -/
inductive AccountsFor (D : V → M → Prop) : Option V → WithZero M → Prop
  | none : AccountsFor D none 0
  | some {v : V} {a : M} : D v a → AccountsFor D (some v) (a : WithZero M)

/-- No value accounts for nothing. -/
theorem AccountsFor.eq_zero {D : V → M → Prop} {o : WithZero M} (h : AccountsFor D Option.none o) :
    o = 0 := by
  cases h
  rfl

/-- A value accounts for some amount. -/
theorem AccountsFor.exists_amount {D : V → M → Prop} {v : V} {o : WithZero M}
    (h : AccountsFor D (Option.some v) o) : ∃ a : M, o = a ∧ D v a := by
  cases h with
  | some hD => exact ⟨_, rfl, hD⟩

/-- Maps with the same keys, and related values. -/
def Matches [DecidableEq α] (R : V → V → Prop) (m m' : AList fun _ : α => V) : Prop :=
  ∀ k, Option.Rel R (m.lookup k) (m'.lookup k)

variable [DecidableEq α]

/-- A map accounts for a family of amounts. -/
def MapAccounts (D : α → V → M → Prop) (m : AList fun _ : α => V) (c : α → WithZero M) : Prop :=
  ∀ k, AccountsFor (D k) (m.lookup k) (c k)

/-- The amounts that the entries of a map stand for. -/
def amounts (x : α → W → M) (m : AList fun _ : α => W) (k : α) : WithZero M :=
  match m.lookup k with
  | none => 0
  | some w => (x k w : WithZero M)

variable {D : α → V → M → Prop}

/-- An empty map accounts for nothing. -/
theorem mapAccounts_empty : MapAccounts D ∅ 0 := by
  intro k
  rw [AList.lookup_empty]
  exact .none

/-- A map is determined by its amounts if every value is. -/
theorem MapAccounts.matches {R : V → V → Prop} {m m' : AList fun _ : α => V}
    {c : α → WithZero M} (hD : ∀ k v w a, D k v a → D k w a → R v w) (h : MapAccounts D m c)
    (h' : MapAccounts D m' c) : Matches R m m' := by
  intro k
  have hk := h k
  have hk' := h' k
  generalize c k = o at hk hk'
  generalize m.lookup k = x at hk
  generalize m'.lookup k = y at hk'
  cases hk with
  | none =>
    cases hk' with
    | none => exact .none
  | some hv =>
    cases y with
    | none => cases hk'
    | some w =>
      obtain ⟨a, ha, hw⟩ := hk'.exists_amount
      rw [WithZero.coe_inj] at ha
      subst ha
      exact .some (hD k _ w _ hv hw)

variable [AddSemigroup M]

/-- Replacing a value by one that accounts for more. -/
theorem MapAccounts.insert {m : AList fun _ : α => V} {c : α → WithZero M} {k : α} {v : V}
    {x : WithZero M} (h : MapAccounts D m c) (hv : AccountsFor (D k) (some v) (c k + x)) :
    MapAccounts D (m.insert k v) (c + Pi.single k x) := by
  intro k'
  by_cases hk : k' = k
  · subst hk
    simpa using hv
  · rw [AList.lookup_insert_ne hk]
    simpa [hk] using h k'

/-- A loop that combines entries into a map adds their amounts. -/
theorem MapAccounts.upsertEach {f : α → Option V → W → Except ε V} {x : α → W → M}
    {base : AList fun _ : α => V} {m : AList fun _ : α => W} {c : α → WithZero M}
    (h : MapAccounts D base c)
    (hf : ∀ k w, m.lookup k = some w → ∀ old o, AccountsFor (D k) old o →
      ∃ v, f k old w = .ok v ∧ AccountsFor (D k) (some v) (o + (x k w : WithZero M))) :
    ∃ result, KeyedMap.upsertEach f base m = .ok result ∧
      MapAccounts D result (c + amounts x m) := by
  obtain ⟨result, hrun⟩ := upsertEach_ok f base m (by
    intro k w hw
    obtain ⟨v, hv, -⟩ := hf k w hw _ _ (h k)
    rw [hv]
    rfl)
  refine ⟨result, hrun, ?_⟩
  intro k
  rw [Pi.add_apply, amounts]
  cases hw : m.lookup k with
  | none =>
    rw [lookup_upsertEach_of_none hrun hw]
    simpa using h k
  | some w =>
    obtain ⟨v, hv, haccounts⟩ := hf k w hw _ _ (h k)
    obtain ⟨v', hv', hlookup⟩ := lookup_upsertEach hrun hw
    rw [hv] at hv'
    cases hv'
    rw [hlookup]
    exact haccounts

/-- Merging maps adds their amounts if combining values does. -/
theorem MapAccounts.merge {m m' : AList fun _ : α => V} {c c' : α → WithZero M}
    (plus : V → V → Except ε V)
    (hplus : ∀ k v w a b, D k v a → D k w b → ∃ u, plus v w = .ok u ∧ D k u (a + b))
    (h : MapAccounts D m c) (h' : MapAccounts D m' c') :
    ∃ result, KeyedMap.merge plus m m' = .ok result ∧ MapAccounts D result (c + c') := by
  have hboth : ∀ k v w, AccountsFor (D k) (some v) (c k) → AccountsFor (D k) (some w) (c' k) →
      ∃ u, plus v w = .ok u ∧ AccountsFor (D k) (some u) (c k + c' k) := by
    intro k v w hv hw
    obtain ⟨a, ha, hDv⟩ := hv.exists_amount
    obtain ⟨b, hb, hDw⟩ := hw.exists_amount
    obtain ⟨u, hu, hDu⟩ := hplus k v w a b hDv hDw
    refine ⟨u, hu, ?_⟩
    rw [ha, hb, ← WithZero.coe_add]
    exact .some hDu
  have hok : ∀ k v w, m.lookup k = some v → m'.lookup k = some w → (plus v w).isOk := by
    intro k v w hv hw
    obtain ⟨u, hu, -⟩ := hboth k v w (hv ▸ h k) (hw ▸ h' k)
    rw [hu]
    rfl
  obtain ⟨result, hrun⟩ := merge_ok hok
  refine ⟨result, hrun, ?_⟩
  intro k
  rw [Pi.add_apply]
  have hcombined := combined_merge hrun k
  have hk := h k
  have hk' := h' k
  generalize m.lookup k = y at hk hcombined
  generalize m'.lookup k = z at hk' hcombined
  generalize result.lookup k = r at hcombined
  cases hcombined with
  | right =>
    rw [hk.eq_zero, zero_add]
    exact hk'
  | left v =>
    rw [hk'.eq_zero, add_zero]
    exact hk
  | both hplus' =>
    obtain ⟨u, hu, haccounts⟩ := hboth k _ _ hk hk'
    rw [hplus'] at hu
    cases hu
    exact haccounts

section Nested

variable [DecidableEq β] {E : α → β → V → M → Prop}

/-- The inner map at a key accounts for some amounts, and when it is replaced by one that accounts
for more, so does the outer map. -/
theorem MapAccounts.insert_inner {m : AList fun _ : α => AList fun _ : β => V}
    {c : α → WithZero (β → WithZero M)} (h : MapAccounts (fun k => MapAccounts (E k)) m c) (k : α) :
    ∃ b : β → WithZero M, MapAccounts (E k) ((m.lookup k).getD ∅) b ∧
      ∀ (inner : AList fun _ : β => V) (x : β → WithZero M), MapAccounts (E k) inner (b + x) →
        MapAccounts (fun k => MapAccounts (E k)) (m.insert k inner)
          (c + Pi.single k (x : WithZero (β → WithZero M))) := by
  have hk := h k
  cases hlookup : m.lookup k with
  | none =>
    rw [hlookup] at hk
    refine ⟨0, mapAccounts_empty, ?_⟩
    intro inner x hinner
    rw [zero_add] at hinner
    apply h.insert
    rw [hk.eq_zero, zero_add]
    exact .some hinner
  | some old =>
    rw [hlookup] at hk
    obtain ⟨b, hb, hold⟩ := hk.exists_amount
    refine ⟨b, hold, ?_⟩
    intro inner x hinner
    apply h.insert
    rw [hb, ← WithZero.coe_add]
    exact .some hinner

end Nested

end KeyedMap
