import Chimbuko.Library.ParentLine
import Mathlib.Algebra.BigOperators.Group.List.Basic
import Mathlib.Algebra.GroupWithZero.Nat
import Mathlib.Algebra.Order.BigOperators.Group.List
import Mathlib.Algebra.Order.Group.Nat
import Mathlib.Data.List.Count
import Mathlib.Data.List.Perm.Basic

/-!
# Pinned records

Records are counted references to while something pins them. A pin covers a record, its line of
ancestors, and the line from the key of a partner, if it has one. Pins come and go in any order,
records are added with new keys, and a record whose count is zero may be removed. A record's count
is what it came with and once more for each time that a pin covers it, and what a pin covers does
not change. Where no pin covers a record twice, this counts the pins that cover it.
-/

/-- A record that is pinned together with its ancestors and those of a partner, and the records
that are counted for it. -/
structure Pin (κ : Type*) where
  start : ℕ
  partner : Option κ
  covers : List ℕ
deriving DecidableEq

/-- Numbered records with keys, parents and reference counts, a directory, and the pins. -/
structure PinStore (κ : Type*) where
  size : ℕ
  id : ℕ → κ
  parent : ℕ → κ
  refs : ℕ → ℕ
  find : κ → Option ℕ
  pins : List (Pin κ)

namespace PinStore

open ParentLine

variable {κ : Type*} [DecidableEq κ]

/-- The line of ancestors from a key on. -/
def line (F : PinStore κ) (root key : κ) : List ℕ := walk root F.find F.parent F.size key

/-- What a pin of a record with a partner covers. -/
def coversOf (F : PinStore κ) (root : κ) (x : ℕ) (partner : Option κ) : List ℕ :=
  x :: (F.line root (F.parent x) ++ (partner.map (F.line root)).getD [])

/-- A pin fits the store: its record is found, it covers what it should, in an allowed shape, and
its partner has a key that is in use. -/
structure Fits (F : PinStore κ) (root : κ) (used : κ → Prop) (shape : List ℕ → Prop)
    (p : Pin κ) : Prop where
  find_start : F.find (F.id p.start) = some p.start
  covers_eq : p.covers = F.coversOf root p.start p.partner
  shape_covers : shape p.covers
  partner_used : ∀ k ∈ p.partner, used k

/-- How often pins cover a record. -/
def pinned (pins : List (Pin κ)) (x : ℕ) : ℕ := (pins.map fun p => p.covers.count x).sum

/-- The invariant of pinned records. Keys in use satisfy a predicate, and records may come with
references of their own. -/
structure Valid (F : PinStore κ) (root : κ) (used : κ → Prop) (shape : List ℕ → Prop)
    (own : ℕ → ℕ) : Prop where
  find_lt : ∀ k x, F.find k = some x → x < F.size ∧ F.id x = k
  id_used : ∀ x < F.size, used (F.id x) ∧ F.id x ≠ root
  parent_used : ∀ x < F.size, F.parent x = root ∨ used (F.parent x)
  rank : ∀ x y, F.find (F.parent x) = some y → y < x
  pins_fit : ∀ p ∈ F.pins, F.Fits root used shape p
  refs_eq : ∀ x < F.size, F.refs x = own x + pinned F.pins x

omit [DecidableEq κ] in
/-- A further pin counts with the others. -/
theorem pinned_cons (p : Pin κ) (pins : List (Pin κ)) (x : ℕ) :
    pinned (p :: pins) x = p.covers.count x + pinned pins x := by
  rw [pinned, List.map_cons, List.sum_cons, pinned]

omit [DecidableEq κ] in
/-- The order of the pins does not matter. -/
theorem pinned_perm {pins pins' : List (Pin κ)} (h : pins.Perm pins') (x : ℕ) :
    pinned pins x = pinned pins' x :=
  (h.map _).sum_eq

omit [DecidableEq κ] in
/-- Pins that cover no record twice are counted once each. -/
theorem pinned_eq_countP {pins : List (Pin κ)} (h : ∀ p ∈ pins, p.covers.Nodup) (x : ℕ) :
    pinned pins x = pins.countP fun p => x ∈ p.covers := by
  induction pins with
  | nil => rfl
  | cons p rest ih =>
    rw [pinned_cons, List.countP_cons, ih fun q hq => h q (List.mem_cons_of_mem _ hq)]
    have hp := h p List.mem_cons_self
    by_cases hx : x ∈ p.covers
    · simp only [List.count_eq_one_of_mem hp hx, hx, decide_true, if_true]
      omega
    · simp only [List.count_eq_zero_of_not_mem hx, hx, decide_false]
      simp

section Spec

variable {F : PinStore κ} {root : κ} {used : κ → Prop} {shape : List ℕ → Prop} {own : ℕ → ℕ}

/-- Following parents finds the line from each key. -/
theorem Valid.isLine (h : F.Valid root used shape own) (key : κ) :
    IsLine root F.find F.parent key (F.line root key) :=
  walk_isLine h.rank F.size fun x hx => (h.find_lt key x hx).1

/-- Every record of a line is found under its key. -/
theorem Valid.find_of_mem_line (h : F.Valid root used shape own) {key : κ} {x : ℕ}
    (hx : x ∈ F.line root key) : F.find (F.id x) = some x := by
  obtain ⟨k, hk⟩ := (h.isLine key).exists_find hx
  rw [(h.find_lt k x hk).2]
  exact hk

/-- A pin covers a record, its line, and that of its partner. -/
theorem mem_coversOf {x y : ℕ} {partner : Option κ} :
    y ∈ F.coversOf root x partner ↔
      y = x ∨ y ∈ F.line root (F.parent x) ∨ ∃ k ∈ partner, y ∈ F.line root k := by
  rw [coversOf, List.mem_cons, List.mem_append]
  cases partner with
  | none => simp
  | some k => simp

/-- Every record that a pin covers is found under its key. -/
theorem Valid.find_of_covers (h : F.Valid root used shape own) {p : Pin κ} (hp : p ∈ F.pins) {x : ℕ}
    (hx : x ∈ p.covers) : F.find (F.id x) = some x := by
  have hfits := h.pins_fit p hp
  rw [hfits.covers_eq, mem_coversOf] at hx
  rcases hx with rfl | hx | ⟨k, -, hx⟩
  · exact hfits.find_start
  · exact h.find_of_mem_line hx
  · exact h.find_of_mem_line hx

/-- Pins cover records of the store. -/
theorem Valid.covers_lt (h : F.Valid root used shape own) {p : Pin κ} (hp : p ∈ F.pins) {x : ℕ}
    (hx : x ∈ p.covers) : x < F.size :=
  (h.find_lt _ x (h.find_of_covers hp hx)).1

/-- More keys may be in use, and the order of the pins does not matter. -/
theorem Valid.mono {used' : κ → Prop} {F' : PinStore κ} (h : F.Valid root used shape own)
    (hused : ∀ k, used k → used' k) (hpins : F'.pins.Perm F.pins)
    (hF : F' = { F with pins := F'.pins }) : F'.Valid root used' shape own := by
  rw [hF]
  refine { find_lt := h.find_lt, rank := h.rank,
           id_used := fun x hx => ⟨hused _ (h.id_used x hx).1, (h.id_used x hx).2⟩,
           parent_used := fun x hx => (h.parent_used x hx).imp_right (hused _),
           pins_fit := fun p hp => ?_, refs_eq := fun x hx => ?_ }
  · have hfits := h.pins_fit p (hpins.mem_iff.mp hp)
    exact ⟨hfits.find_start, hfits.covers_eq, hfits.shape_covers,
      fun k hk => hused k (hfits.partner_used k hk)⟩
  · exact (h.refs_eq x hx).trans (congrArg (own x + ·) (pinned_perm hpins x).symm)

/-- Pin a record. -/
def pin (F : PinStore κ) (p : Pin κ) : PinStore κ :=
  { F with refs := fun x => F.refs x + p.covers.count x, pins := p :: F.pins }

/-- Pinning keeps the invariant. -/
theorem Valid.pin (h : F.Valid root used shape own) {p : Pin κ}
    (hp : F.Fits root used shape p) : (F.pin p).Valid root used shape own := by
  refine { find_lt := h.find_lt, id_used := h.id_used, parent_used := h.parent_used,
           rank := h.rank, pins_fit := fun q hq => ?_, refs_eq := fun x hx => ?_ }
  · have hq' : F.Fits root used shape q := by
      rcases List.mem_cons.mp hq with rfl | hmem
      · exact hp
      · exact h.pins_fit q hmem
    exact ⟨hq'.find_start, hq'.covers_eq, hq'.shape_covers, hq'.partner_used⟩
  · change F.refs x + p.covers.count x = own x + pinned (p :: F.pins) x
    rw [h.refs_eq x hx, pinned_cons]
    omega

/-- Every record has enough references for a pin to be lifted. -/
theorem Valid.count_le (h : F.Valid root used shape own) {p : Pin κ} (hp : p ∈ F.pins) (x : ℕ) :
    p.covers.count x ≤ F.refs x := by
  by_cases hx : x ∈ p.covers
  · rw [h.refs_eq x (h.covers_lt hp hx)]
    refine le_add_left (List.single_le_sum (fun _ _ => Nat.zero_le _) _ ?_)
    exact List.mem_map.mpr ⟨p, hp, rfl⟩
  · rw [List.count_eq_zero_of_not_mem hx]
    exact Nat.zero_le _

/-- Lift a pin. -/
def lift (F : PinStore κ) (p : Pin κ) (pins : List (Pin κ)) : PinStore κ :=
  { F with refs := fun x => F.refs x - p.covers.count x, pins := pins }

/-- Lifting a pin keeps the invariant. -/
theorem Valid.lift (h : F.Valid root used shape own) {p : Pin κ} {pins : List (Pin κ)}
    (hpins : F.pins.Perm (p :: pins)) : (F.lift p pins).Valid root used shape own := by
  refine { find_lt := h.find_lt, id_used := h.id_used, parent_used := h.parent_used,
           rank := h.rank, pins_fit := fun q hq => ?_, refs_eq := fun x hx => ?_ }
  · have hq' := h.pins_fit q (hpins.mem_iff.mpr (List.mem_cons_of_mem _ hq))
    exact ⟨hq'.find_start, hq'.covers_eq, hq'.shape_covers, hq'.partner_used⟩
  · change F.refs x - p.covers.count x = own x + pinned pins x
    rw [h.refs_eq x hx, pinned_perm hpins, pinned_cons]
    omega

/-- Add a record that no pin covers yet. -/
def add (F : PinStore κ) (id parent : κ) (refs : ℕ) : PinStore κ :=
  { size := F.size + 1
    id := Function.update F.id F.size id
    parent := Function.update F.parent F.size parent
    refs := Function.update F.refs F.size refs
    find := Function.update F.find id (some F.size)
    pins := F.pins }

/-- A record that is added is found under its identifier. -/
theorem add_find (F : PinStore κ) (id parent : κ) (refs : ℕ) :
    (F.add id parent refs).find = Function.update F.find id (some F.size) := rfl

section Add

variable {id parent : κ} {refs : ℕ} (hfresh : ¬used id) (hroot : id ≠ root)
include hfresh hroot

/-- A record with a new key does not change a line from a key in use. -/
theorem Valid.line_add (h : F.Valid root used shape own)
    (hrank : ∀ x y, (F.add id parent refs).find ((F.add id parent refs).parent x) = some y → y < x)
    (hlt : ∀ k x, (F.add id parent refs).find k = some x → x < F.size + 1) {key : κ}
    (hkey : key = root ∨ used key) :
    (F.add id parent refs).line root key = F.line root key := by
  have hne : ∀ k, k = root ∨ used k → k ≠ id := by
    rintro k (rfl | hk) rfl
    · exact hroot rfl
    · exact hfresh hk
  have hline := h.isLine key
  have hnew : IsLine root (F.add id parent refs).find (F.add id parent refs).parent key
      ((F.add id parent refs).line root key) :=
    walk_isLine hrank (F.size + 1) fun x hx => hlt key x hx
  refine hnew.unique (hline.insert (fun x hx => ?_) (hne key hkey) fun x hx => ?_)
  · have hx' := (h.find_lt _ x (h.find_of_mem_line hx)).1
    exact Function.update_of_ne (Nat.ne_of_lt hx') _ _
  · exact hne _ (h.parent_used x (h.find_lt _ x (h.find_of_mem_line hx)).1)

/-- Adding a record with a new key keeps the invariant. -/
theorem Valid.add {used' : κ → Prop} (h : F.Valid root used shape own)
    (hused : ∀ k, used k → used' k)
    (hid : used' id) (hparent : parent = root ∨ used' parent) (hself : parent ≠ id) :
    (F.add id parent refs).Valid root used' shape (Function.update own F.size refs) := by
  have hne : ∀ k, k = root ∨ used k → k ≠ id := by
    rintro k (rfl | hk) rfl
    · exact hroot rfl
    · exact hfresh hk
  have hidOld : ∀ {x}, x < F.size → (F.add id parent refs).id x = F.id x := fun hx =>
    Function.update_of_ne (Nat.ne_of_lt hx) _ _
  have hparentOld : ∀ {x}, x < F.size → (F.add id parent refs).parent x = F.parent x := fun hx =>
    Function.update_of_ne (Nat.ne_of_lt hx) _ _
  have hidNew : (F.add id parent refs).id F.size = id := Function.update_self _ _ _
  have hparentNew : (F.add id parent refs).parent F.size = parent := Function.update_self _ _ _
  have hfind : ∀ k x, (F.add id parent refs).find k = some x →
      k = id ∧ x = F.size ∨ k ≠ id ∧ F.find k = some x := by
    intro k x hx
    by_cases hk : k = id
    · subst hk
      rw [add_find, Function.update_self] at hx
      exact Or.inl ⟨rfl, (Option.some.inj hx).symm⟩
    · rw [add_find, Function.update_of_ne hk] at hx
      exact Or.inr ⟨hk, hx⟩
  have hlt : ∀ k x, (F.add id parent refs).find k = some x → x < F.size + 1 := by
    intro k x hx
    rcases hfind k x hx with ⟨-, rfl⟩ | ⟨-, hx⟩
    · exact Nat.lt_succ_self _
    · exact Nat.lt_succ_of_lt (h.find_lt k x hx).1
  have hrank : ∀ x y,
      (F.add id parent refs).find ((F.add id parent refs).parent x) = some y → y < x := by
    intro x y hy
    rcases lt_trichotomy x F.size with hx | rfl | hx
    · rw [hparentOld hx] at hy
      rcases hfind _ _ hy with ⟨hid', -⟩ | ⟨-, hy⟩
      · exact absurd hid' (hne _ (h.parent_used x hx))
      · exact h.rank x y hy
    · rw [hparentNew] at hy
      rcases hfind _ _ hy with ⟨hid', -⟩ | ⟨-, hy⟩
      · exact absurd hid' hself
      · exact (h.find_lt _ y hy).1
    · exact (Nat.lt_succ_iff.mp (hlt _ y hy)).trans_lt hx
  have hline : ∀ key, key = root ∨ used key →
      (F.add id parent refs).line root key = F.line root key := fun key hkey =>
    h.line_add hfresh hroot hrank hlt hkey
  have hsize : ∀ x, x < F.size + 1 → x < F.size ∨ x = F.size := fun x hx =>
    Nat.lt_succ_iff_lt_or_eq.mp hx
  refine { find_lt := fun k x hx => ⟨hlt k x hx, ?_⟩, id_used := fun x hx => ?_,
           parent_used := fun x hx => ?_, rank := hrank, pins_fit := fun p hp => ?_,
           refs_eq := fun x hx => ?_ }
  · rcases hfind k x hx with ⟨rfl, rfl⟩ | ⟨-, hx⟩
    · exact hidNew
    · exact (hidOld (h.find_lt k x hx).1).trans (h.find_lt k x hx).2
  · rcases hsize x hx with hx | rfl
    · rw [hidOld hx]
      exact ⟨hused _ (h.id_used x hx).1, (h.id_used x hx).2⟩
    · rw [hidNew]
      exact ⟨hid, hroot⟩
  · rcases hsize x hx with hx | rfl
    · rw [hparentOld hx]
      exact (h.parent_used x hx).imp_right (hused _)
    · rw [hparentNew]
      exact hparent
  · have hfits := h.pins_fit p hp
    have hstart := (h.find_lt _ _ hfits.find_start).1
    refine ⟨?_, ?_, hfits.shape_covers, fun k hk => hused k (hfits.partner_used k hk)⟩
    · rw [hidOld hstart, add_find, Function.update_of_ne
        (hne _ (Or.inr (h.id_used _ hstart).1))]
      exact hfits.find_start
    · rw [hfits.covers_eq, coversOf, coversOf, hparentOld hstart, hline _ (h.parent_used _ hstart)]
      cases hpartner : p.partner with
      | none => rfl
      | some k =>
        change _ = p.start :: (_ ++ (F.add id parent refs).line root k)
        rw [hline k (Or.inr (hfits.partner_used k hpartner))]
        rfl
  · change Function.update F.refs F.size refs x =
      Function.update own F.size refs x + pinned F.pins x
    rcases hsize x hx with hx | rfl
    · rw [Function.update_of_ne (Nat.ne_of_lt hx), Function.update_of_ne (Nat.ne_of_lt hx)]
      exact h.refs_eq x hx
    · have hnone : pinned F.pins F.size = 0 := by
        refine List.sum_eq_zero fun n hn => ?_
        obtain ⟨p, hp, rfl⟩ := List.mem_map.mp hn
        exact List.count_eq_zero_of_not_mem fun hmem => lt_irrefl _ (h.covers_lt hp hmem)
      rw [Function.update_self, Function.update_self, hnone]
      rfl

end Add

/-- Remove a record from the directory. -/
def erase (F : PinStore κ) (x : ℕ) : PinStore κ :=
  { F with find := Function.update F.find (F.id x) none }

/-- A record that is erased is not found any more. -/
theorem erase_find (F : PinStore κ) (x : ℕ) :
    (F.erase x).find = Function.update F.find (F.id x) none := rfl

/-- What is found after erasing a record was found before. -/
theorem find_of_erase {x y : ℕ} {k : κ} (h : (F.erase x).find k = some y) :
    F.find k = some y := by
  by_cases hk : k = F.id x
  · rw [erase_find, hk, Function.update_self] at h
    cases h
  · rw [erase_find, Function.update_of_ne hk] at h
    exact h

/-- Removing a record changes no line that it is not on. -/
theorem Valid.line_erase (h : F.Valid root used shape own) {x : ℕ} (hx : F.find (F.id x) = some x)
    {key : κ} (hnot : x ∉ F.line root key) : (F.erase x).line root key = F.line root key := by
  have hline : IsLine root (F.erase x).find F.parent key ((F.erase x).line root key) :=
    walk_isLine (fun y z hz => h.rank y z (find_of_erase hz)) F.size
      fun y hy => (h.find_lt _ y (find_of_erase hy)).1
  have hroot := (h.id_used x (h.find_lt _ x hx).1).2
  exact hline.unique ((h.isLine key).erase hx hroot hnot)

/-- No pin covers a record without references. -/
theorem Valid.not_covered (h : F.Valid root used shape own) {x : ℕ} (hzero : F.refs x = 0)
    {p : Pin κ} (hp : p ∈ F.pins) : x ∉ p.covers := by
  have hcount := h.count_le hp x
  rw [hzero] at hcount
  exact List.count_eq_zero.mp (Nat.le_zero.mp hcount)

/-- Removing a record without references keeps the invariant. -/
theorem Valid.erase (h : F.Valid root used shape own) {x : ℕ} (hx : F.find (F.id x) = some x)
    (hzero : F.refs x = 0) : (F.erase x).Valid root used shape own := by
  refine { find_lt := fun k y hy => h.find_lt k y (find_of_erase hy), id_used := h.id_used,
           parent_used := h.parent_used, rank := fun y z hz => h.rank y z (find_of_erase hz),
           pins_fit := fun p hp => ?_, refs_eq := h.refs_eq }
  have hfits := h.pins_fit p hp
  have hnot := h.not_covered hzero hp
  rw [hfits.covers_eq, mem_coversOf, not_or, not_or] at hnot
  obtain ⟨hstart, hparent, hpartner⟩ := hnot
  refine ⟨?_, ?_, hfits.shape_covers, hfits.partner_used⟩
  · change Function.update F.find (F.id x) none (F.id p.start) = some p.start
    rw [Function.update_of_ne]
    · exact hfits.find_start
    · intro heq
      have h' := hfits.find_start
      rw [heq, hx] at h'
      exact hstart (Option.some.inj h')
  · have hparent' : (F.erase x).parent = F.parent := rfl
    rw [hfits.covers_eq, coversOf, coversOf, hparent', h.line_erase hx hparent]
    cases hp' : p.partner with
    | none => rfl
    | some k =>
      have hk : x ∉ F.line root k := fun hmem => hpartner ⟨k, hp', hmem⟩
      change p.start :: (_ ++ F.line root k) = p.start :: (_ ++ (F.erase x).line root k)
      rw [h.line_erase hx hk]

end Spec

end PinStore
