import Chimbuko.Library.TransitionSystem
import Mathlib.Data.List.AList
import Mathlib.Order.Basic

/-!
# Collections of records

A collection holds records under identifiers. Its records can be listed, and several of them are
fetched, updated or erased at once. Such a collection is lawful if it is a map from identifiers to
records. To amend many records without having all of them in memory, they are fetched, amended and
updated batch by batch; a record is amended with a state that goes through all of them, and knows
its position.

If the identifiers are distinct then this is the same as amending all records in one batch.
-/

namespace RecordStore

open TransitionSystem

/-- What a collection of records offers. -/
class Collection (S : Type) (κ V : outParam Type) where
  /-- The record with an identifier, if there is one. -/
  fetch : S → κ → Option V
  /-- All records with their identifiers. -/
  all : S → List (κ × V)
  /-- The records with some identifiers, where each tells its own. -/
  fetchMulti : S → List κ → Except String (List (κ × V))
  updateMulti : S → List (κ × V) → S
  eraseMulti : S → List κ → S

open Collection

/-- Collections that are maps from identifiers to records. -/
class LawfulCollection (S : Type) {κ V : outParam Type} [DecidableEq κ] [Collection S κ V] :
    Prop where
  /-- No record is listed twice. -/
  nodup_all (s : S) : ((all s).map Prod.fst).Nodup
  /-- The records that are listed are those that can be fetched. -/
  mem_all {s : S} {id : κ} {record : V} : (id, record) ∈ all s ↔ fetch s id = some record
  /-- As many records are fetched as were asked for. -/
  length_fetchMulti {s : S} {ids : List κ} {found : List (κ × V)} :
    fetchMulti s ids = .ok found → found.length = ids.length
  /-- What is fetched is what is stored. -/
  fetch_of_fetchMulti {s : S} {ids : List κ} {found : List (κ × V)} {e : κ × V} :
    fetchMulti s ids = .ok found → e ∈ found → fetch s e.1 = some e.2
  /-- Stored records that are updated are replaced. -/
  fetch_updateMulti_of_mem {s : S} {updates : List (κ × V)} {u : κ × V} :
    (updates.map Prod.fst).Nodup → (∀ u ∈ updates, fetch s u.1 ≠ none) → u ∈ updates →
      fetch (updateMulti s updates) u.1 = some u.2
  /-- Other records are not updated. -/
  fetch_updateMulti_of_notMem {s : S} {updates : List (κ × V)} {id : κ} :
    (updates.map Prod.fst).Nodup → (∀ u ∈ updates, fetch s u.1 ≠ none) →
      id ∉ updates.map Prod.fst → fetch (updateMulti s updates) id = fetch s id
  /-- Erasing stored records leaves the others. -/
  fetch_eraseMulti {s : S} {ids : List κ} {id : κ} :
    ids.Nodup → (∀ id ∈ ids, fetch s id ≠ none) →
      fetch (eraseMulti s ids) id = if id ∈ ids then none else fetch s id

/-- Collections that find all stored records that they are asked for, in the order of the
identifiers. -/
class ReadableCollection (S : Type) {κ V : outParam Type} [Collection S κ V] : Prop where
  fetchMulti_ok {s : S} {ids : List κ} : (∀ id ∈ ids, fetch s id ≠ none) →
    ∃ found, fetchMulti s ids = .ok found ∧ found.map Prod.fst = ids

open LawfulCollection ReadableCollection

section Batches

variable {κ V W S σ : Type} [Collection S κ V]

/-- The records of a collection after some of them were replaced. -/
structure Replaced (store store' : S) (ids : List κ) (news : List V) : Prop where
  replaced : List.Forall₂ (fun id record => fetch store' id = some record) ids news
  others : ∀ id, id ∉ ids → fetch store' id = fetch store id

/-- Nothing is replaced. -/
theorem Replaced.nil (store : S) : Replaced store store [] [] := ⟨.nil, fun _ _ => rfl⟩

/-- What is replaced first stays when other records are replaced. -/
theorem Replaced.append {store store' store'' : S} {ids ids' : List κ} {news news' : List V}
    (h : Replaced store store' ids news) (h' : Replaced store' store'' ids' news')
    (hdisjoint : ∀ id ∈ ids, id ∉ ids') :
    Replaced store store'' (ids ++ ids') (news ++ news') := by
  have hkept : List.Forall₂ (fun id record => fetch store'' id = some record) ids news := by
    rw [List.forall₂_iff_zip]
    refine ⟨h.replaced.length_eq, fun {id record} hmem => ?_⟩
    rw [h'.others id (hdisjoint id (List.of_mem_zip hmem).1)]
    exact (List.forall₂_iff_zip.mp h.replaced).2 hmem
  constructor
  · exact List.rel_append hkept h'.replaced
  · intro id hid
    rw [List.mem_append, not_or] at hid
    exact (h'.others id hid.2).trans (h.others id hid.1)

/-- There is a record for each identifier that has one. -/
private theorem fetch_ne_none {store : S} {ids : List κ} {records : List V}
    (h : List.Forall₂ (fun id record => fetch store id = some record) ids records) {id : κ}
    (hid : id ∈ ids) : fetch store id ≠ none := by
  induction h with
  | nil => cases hid
  | cons hfetch _ ih =>
    rcases List.mem_cons.mp hid with rfl | hmem
    · rw [hfetch]
      exact Option.some_ne_none _
    · exact ih hmem

/-- Amend records one after another, where the first one is at some position. -/
def amendEach (op : σ → W → ℕ → Except String (σ × V)) :
    ℕ → σ → List W → Except String (σ × List V)
  | _, s, [] => pure (s, [])
  | pos, s, record :: rest => do
    let (s, record) ← op s record pos
    let (s, rest) ← amendEach op (pos + 1) s rest
    pure (s, record :: rest)

variable [DecidableEq κ]

/-- Amend a record that was fetched, if it is the one that was asked for. -/
def amendFetched (op : σ → V → ℕ → Except String (σ × V)) (s : σ) (x : κ × κ × V) (pos : ℕ) :
    Except String (σ × V) := do
  if x.2.1 ≠ x.1 then throw "Entry index mismatch"
  op s x.2.2 pos

/-- Amend the records of a batch. -/
def amendBatch (op : σ → V → ℕ → Except String (σ × V)) (store : S) (pos : ℕ) (s : σ)
    (ids : List κ) : Except String (σ × S) := do
  let found ← fetchMulti store ids
  let (s, records) ← amendEach (amendFetched op) pos s (ids.zip found)
  pure (s, updateMulti store (ids.zip records))

/-- Amend records batch by batch, in at most so many batches. -/
def amendBatches (op : σ → V → ℕ → Except String (σ × V)) (batchSize : ℕ) :
    ℕ → S → ℕ → σ → List κ → Except String (σ × S)
  | 0, store, _, s, _ => pure (s, store)
  | n + 1, store, pos, s, ids =>
    if ids = [] then pure (s, store)
    else do
      let batch := ids.take batchSize
      let (s, store) ← amendBatch op store pos s batch
      amendBatches op batchSize n store (pos + batch.length) s (ids.drop batchSize)

/-- Updating stored records replaces them. -/
theorem replaced_updateMulti [LawfulCollection S] {store : S} {ids : List κ} {olds news : List V}
    (hnodup : ids.Nodup)
    (holds : List.Forall₂ (fun id record => fetch store id = some record) ids olds)
    (hlength : news.length = olds.length) :
    Replaced store (updateMulti store (ids.zip news)) ids news := by
  have hids : ids.length = news.length := holds.length_eq.trans hlength.symm
  have hkeys : (ids.zip news).map Prod.fst = ids := List.map_fst_zip hids.le
  have hstored : ∀ u ∈ ids.zip news, fetch store u.1 ≠ none :=
    fun u hu => fetch_ne_none holds (List.of_mem_zip hu).1
  constructor
  · rw [List.forall₂_iff_zip]
    refine ⟨hids, fun {id record} hmem => ?_⟩
    exact fetch_updateMulti_of_mem (by rwa [hkeys]) hstored hmem
  · intro id hid
    exact fetch_updateMulti_of_notMem (by rwa [hkeys]) hstored (by rwa [hkeys])

variable {op : σ → W → ℕ → Except String (σ × V)}

/-- As many records are amended as there are. -/
theorem length_of_amendEach {pos : ℕ} {s s' : σ} {olds : List W} {news : List V}
    (h : amendEach op pos s olds = .ok (s', news)) : news.length = olds.length := by
  induction olds generalizing pos s news with
  | nil =>
    cases h
    rfl
  | cons record rest ih =>
    obtain ⟨⟨s₁, new⟩, -, h⟩ := bind_eq_ok h
    obtain ⟨⟨s₂, tail⟩, htail, h⟩ := bind_eq_ok h
    cases h
    rw [List.length_cons, List.length_cons, ih htail]

/-- Amending records and then others is amending all of them. -/
theorem amendEach_append {pos : ℕ} {s s' s'' : σ} {olds olds' : List W} {news news' : List V}
    (h : amendEach op pos s olds = .ok (s', news))
    (h' : amendEach op (pos + olds.length) s' olds' = .ok (s'', news')) :
    amendEach op pos s (olds ++ olds') = .ok (s'', news ++ news') := by
  induction olds generalizing pos s news with
  | nil =>
    cases h
    exact h'
  | cons record rest ih =>
    obtain ⟨⟨s₁, new⟩, hnew, h⟩ := bind_eq_ok h
    obtain ⟨⟨s₂, tail⟩, htail, h⟩ := bind_eq_ok h
    cases h
    rw [List.length_cons, ← Nat.add_assoc, Nat.add_right_comm] at h'
    rw [List.cons_append, amendEach, hnew]
    simp only [bind, Except.bind, ih htail h']
    rfl

/-- Records are amended one after another if each of them can be, in any state. -/
theorem amendEach_returns {can : W → Prop}
    (hop : ∀ s record pos, can record → Returns (op s record pos)) {olds : List W}
    (holds : ∀ record ∈ olds, can record) (pos : ℕ) (s : σ) :
    Returns (amendEach op pos s olds) := by
  induction olds generalizing pos s with
  | nil => exact ⟨_, rfl⟩
  | cons record rest ih =>
    obtain ⟨⟨s₁, new⟩, hnew⟩ := hop s record pos (holds record List.mem_cons_self)
    obtain ⟨⟨s₂, tail⟩, htail⟩ :=
      ih (fun record hmem => holds record (List.mem_cons_of_mem _ hmem)) (pos + 1) s₁
    rw [amendEach, hnew]
    simp only [bind, Except.bind, htail]
    exact ⟨_, rfl⟩

variable {op : σ → V → ℕ → Except String (σ × V)}

/-- If fetched records could be amended then they are those that were asked for. -/
theorem amendEach_amendFetched {pos : ℕ} {s s' : σ} {ids : List κ} {found : List (κ × V)}
    {news : List V} (hlength : found.length = ids.length)
    (h : amendEach (amendFetched op) pos s (ids.zip found) = .ok (s', news)) :
    found.map Prod.fst = ids ∧ amendEach op pos s (found.map Prod.snd) = .ok (s', news) := by
  induction ids generalizing pos s found news with
  | nil =>
    rw [List.length_eq_zero_iff.mp hlength] at h ⊢
    exact ⟨rfl, h⟩
  | cons id ids ih =>
    cases found with
    | nil => cases hlength
    | cons e found =>
      obtain ⟨⟨s₁, new⟩, hnew, h⟩ := bind_eq_ok h
      obtain ⟨⟨s₂, tail⟩, htail, h⟩ := bind_eq_ok h
      cases h
      obtain ⟨hids, hrest⟩ := ih (Nat.succ.inj hlength) htail
      unfold amendFetched at hnew
      dsimp only at hnew
      by_cases hid : e.1 = id
      · rw [if_neg (not_not.mpr hid)] at hnew
        have hfirst : op s e.2 pos = .ok (s₁, new) := hnew
        constructor
        · rw [List.map_cons, hid, hids]
        · rw [List.map_cons, amendEach, hfirst]
          simp only [bind, Except.bind, hrest]
          rfl
      · rw [if_pos hid] at hnew
        cases hnew

/-- What one batch amends. -/
private theorem amendBatch_ok [LawfulCollection S] {store store' : S} {pos : ℕ} {s s' : σ}
    {ids : List κ} (hnodup : ids.Nodup) (h : amendBatch op store pos s ids = .ok (s', store')) :
    ∃ olds news, List.Forall₂ (fun id record => fetch store id = some record) ids olds ∧
      amendEach op pos s olds = .ok (s', news) ∧ Replaced store store' ids news := by
  obtain ⟨found, hfetch, h⟩ := bind_eq_ok h
  obtain ⟨⟨s₁, news⟩, hamend, h⟩ := bind_eq_ok h
  cases h
  obtain ⟨hids, hamend⟩ := amendEach_amendFetched (length_fetchMulti hfetch) hamend
  have holds : List.Forall₂ (fun id record => fetch store id = some record) ids
      (found.map Prod.snd) := by
    rw [← hids, List.forall₂_map_left_iff, List.forall₂_map_right_iff, List.forall₂_same]
    exact fun e he => fetch_of_fetchMulti hfetch he
  exact ⟨_, news, holds, hamend, replaced_updateMulti hnodup holds (length_of_amendEach hamend)⟩

/-- A batch of stored records is amended if each of them can be. -/
private theorem amendBatch_returns [LawfulCollection S] [ReadableCollection S] {can : V → Prop}
    (hop : ∀ s record pos, can record → Returns (op s record pos)) {store : S} {ids : List κ}
    (hids : ∀ id ∈ ids, ∃ record, fetch store id = some record ∧ can record) (pos : ℕ) (s : σ) :
    Returns (amendBatch op store pos s ids) := by
  have hstored : ∀ id ∈ ids, fetch store id ≠ none := by
    intro id hid
    obtain ⟨record, hrecord, -⟩ := hids id hid
    rw [hrecord]
    exact Option.some_ne_none record
  obtain ⟨found, hfetch, hkeys⟩ := fetchMulti_ok hstored
  have hfound : ∀ x ∈ ids.zip found, x.2.1 = x.1 ∧ can x.2.2 := by
    have hzip : ids.zip found = found.map fun e => (e.1, e) := by
      have hmap := List.zip_map' (f := Prod.fst) (g := id) (l := found)
      rwa [hkeys, List.map_id] at hmap
    intro x hx
    rw [hzip] at hx
    obtain ⟨e, he, rfl⟩ := List.mem_map.mp hx
    have hid : e.1 ∈ ids := hkeys ▸ List.mem_map_of_mem he
    obtain ⟨record, hrecord, hcan⟩ := hids e.1 hid
    rw [fetch_of_fetchMulti hfetch he] at hrecord
    exact ⟨rfl, Option.some.inj hrecord ▸ hcan⟩
  have hfetched : ∀ s (x : κ × κ × V) pos, x.2.1 = x.1 ∧ can x.2.2 →
      Returns (amendFetched op s x pos) := by
    intro s x pos hx
    obtain ⟨r, hr⟩ := hop s x.2.2 pos hx.2
    refine ⟨r, ?_⟩
    unfold amendFetched
    rw [if_neg (not_not.mpr hx.1)]
    exact hr
  obtain ⟨r, hr⟩ := amendEach_returns hfetched hfound pos s
  unfold amendBatch
  rw [hfetch]
  simp only [bind, Except.bind, hr]
  exact ⟨_, rfl⟩

/-- Amending distinct records batch by batch is amending them all at once. -/
theorem amendBatches_ok [LawfulCollection S] {batchSize : ℕ} (hbatch : 0 < batchSize) (n : ℕ)
    {store store' : S} {pos : ℕ} {s s' : σ} {ids : List κ} (hn : ids.length ≤ n)
    (hnodup : ids.Nodup) (h : amendBatches op batchSize n store pos s ids = .ok (s', store')) :
    ∃ olds news, List.Forall₂ (fun id record => fetch store id = some record) ids olds ∧
      amendEach op pos s olds = .ok (s', news) ∧ Replaced store store' ids news := by
  have hnothing : ∀ {s : σ} {store : S} {pos : ℕ}, ∃ olds news,
      List.Forall₂ (fun id record => fetch store id = some record) [] olds ∧
        amendEach op pos s olds = .ok (s, news) ∧ Replaced store store [] news :=
    ⟨[], [], .nil, rfl, .nil _⟩
  induction n generalizing store pos s ids with
  | zero =>
    cases h
    rw [List.length_eq_zero_iff.mp (Nat.le_zero.mp hn)]
    exact hnothing
  | succ n ih =>
    rw [amendBatches] at h
    split at h
    · rename_i hids
      cases h
      rw [hids]
      exact hnothing
    · rename_i hids
      obtain ⟨⟨s₁, store₁⟩, hfirst, hrest⟩ := bind_eq_ok h
      have hsplit := List.take_append_drop batchSize ids
      rw [← hsplit, List.nodup_append] at hnodup
      have hdisjoint : ∀ id ∈ ids.take batchSize, id ∉ ids.drop batchSize :=
        fun id hid hid' => hnodup.2.2 id hid id hid' rfl
      obtain ⟨olds, news, hfetched, hamend, hreplaced⟩ := amendBatch_ok hnodup.1 hfirst
      have hlength : (ids.drop batchSize).length ≤ n := by
        have hpos : 0 < ids.length := List.length_pos_iff.mpr hids
        rw [List.length_drop]
        omega
      obtain ⟨olds', news', hfetched', hamend', hreplaced'⟩ := ih hlength hnodup.2.1 hrest
      rw [hfetched.length_eq] at hamend'
      refine ⟨olds ++ olds', news ++ news', ?_, amendEach_append hamend hamend', ?_⟩
      · have hold : List.Forall₂ (fun id record => fetch store id = some record)
            (ids.drop batchSize) olds' := by
          rw [List.forall₂_iff_zip]
          refine ⟨hfetched'.length_eq, fun {id record} hmem => ?_⟩
          rw [← hreplaced.others id fun hid => hdisjoint id hid (List.of_mem_zip hmem).1]
          exact (List.forall₂_iff_zip.mp hfetched').2 hmem
        have hall : List.Forall₂ (fun id record => fetch store id = some record)
            (ids.take batchSize ++ ids.drop batchSize) (olds ++ olds') :=
          List.rel_append hfetched hold
        rwa [hsplit] at hall
      · have hall := hreplaced.append hreplaced' hdisjoint
        rwa [hsplit] at hall

/-- Stored records are amended batch by batch if each of them can be. -/
theorem amendBatches_returns [LawfulCollection S] [ReadableCollection S] {can : V → Prop}
    (hop : ∀ s record pos, can record → Returns (op s record pos)) (batchSize n : ℕ)
    {store : S} {ids : List κ} (hnodup : ids.Nodup)
    (hids : ∀ id ∈ ids, ∃ record, fetch store id = some record ∧ can record) (pos : ℕ) (s : σ) :
    Returns (amendBatches op batchSize n store pos s ids) := by
  induction n generalizing store pos s ids with
  | zero => exact ⟨_, rfl⟩
  | succ n ih =>
    rw [amendBatches]
    split
    · exact ⟨_, rfl⟩
    · have hsplit := List.take_append_drop batchSize ids
      rw [← hsplit, List.nodup_append] at hnodup
      have htake : ∀ id ∈ ids.take batchSize, ∃ record, fetch store id = some record ∧ can record :=
        fun id hid => hids id (List.mem_of_mem_take hid)
      obtain ⟨⟨s₁, store₁⟩, hfirst⟩ := amendBatch_returns hop htake pos s
      obtain ⟨olds, news, -, -, hreplaced⟩ := amendBatch_ok hnodup.1 hfirst
      have hrest : ∀ id ∈ ids.drop batchSize, ∃ record,
          fetch store₁ id = some record ∧ can record := by
        intro id hid
        rw [hreplaced.others id fun hid' => hnodup.2.2 id hid' id hid rfl]
        exact hids id (List.mem_of_mem_drop hid)
      simp only [bind, Except.bind, hfirst]
      exact ih hnodup.2.1 hrest _ s₁

end Batches

section Stores

variable {κ V : Type} [DecidableEq κ]

/-- A collection in memory. -/
abbrev Store (κ V : Type) := AList fun _ : κ => V

instance : Collection (Store κ V) κ V where
  fetch store id := store.lookup id
  all store := store.entries.map fun e => (e.1, e.2)
  fetchMulti store ids := ids.mapM fun id =>
    match store.lookup id with
    | some record => .ok (id, record)
    | none => .error "no such record"
  updateMulti store updates := updates.foldl (fun s u => s.insert u.1 u.2) store
  eraseMulti store ids := ids.foldl (fun s id => s.erase id) store

/-- Fetching from a store gives what it has under each identifier. -/
private theorem forall₂_fetchMulti {store : Store κ V} {ids : List κ} {found : List (κ × V)}
    (h : fetchMulti store ids = .ok found) :
    List.Forall₂ (fun id e => e.1 = id ∧ store.lookup id = some e.2) ids found := by
  apply (forall₂_of_mapM h).imp
  intro id e hfound
  cases hlookup : store.lookup id with
  | none =>
    rw [hlookup] at hfound
    cases hfound
  | some record =>
    rw [hlookup] at hfound
    cases hfound
    exact ⟨rfl, rfl⟩

/-- Inserting other records leaves what is looked up. -/
private theorem lookup_foldl_insert (store : Store κ V) {updates : List (κ × V)} {id : κ}
    (hid : id ∉ updates.map Prod.fst) :
    (updates.foldl (fun s u => s.insert u.1 u.2) store).lookup id = store.lookup id := by
  induction updates generalizing store with
  | nil => rfl
  | cons u rest ih =>
    rw [List.map_cons, List.mem_cons, not_or] at hid
    rw [List.foldl_cons, ih _ hid.2, AList.lookup_insert_ne hid.1]

/-- What was inserted once is looked up. -/
private theorem lookup_foldl_insert_of_mem (store : Store κ V) {updates : List (κ × V)} {u : κ × V}
    (hnodup : (updates.map Prod.fst).Nodup) (hu : u ∈ updates) :
    (updates.foldl (fun s u => s.insert u.1 u.2) store).lookup u.1 = some u.2 := by
  induction updates generalizing store with
  | nil => cases hu
  | cons first rest ih =>
    rw [List.map_cons, List.nodup_cons] at hnodup
    rw [List.foldl_cons]
    rcases List.mem_cons.mp hu with rfl | hrest
    · rw [lookup_foldl_insert _ hnodup.1, AList.lookup_insert]
    · exact ih _ hnodup.2 hrest

/-- What was erased is not looked up, and the others are. -/
private theorem lookup_foldl_erase (store : Store κ V) (ids : List κ) (id : κ) :
    (ids.foldl (fun s id => s.erase id) store).lookup id =
      if id ∈ ids then none else store.lookup id := by
  induction ids generalizing store with
  | nil => simp
  | cons first rest ih =>
    rw [List.foldl_cons, ih]
    by_cases hrest : id ∈ rest
    · rw [if_pos hrest, if_pos (List.mem_cons_of_mem _ hrest)]
    · rw [if_neg hrest]
      by_cases hid : id = first
      · rw [hid, AList.lookup_erase, if_pos List.mem_cons_self]
      · rw [AList.lookup_erase_ne hid, if_neg]
        rw [List.mem_cons, not_or]
        exact ⟨hid, hrest⟩

instance : LawfulCollection (Store κ V) where
  nodup_all store := by
    change ((store.entries.map fun e => (e.1, e.2)).map Prod.fst).Nodup
    rw [List.map_map]
    exact store.keys_nodup
  mem_all {store id record} := by
    change (id, record) ∈ store.entries.map (fun e => (e.1, e.2)) ↔ store.lookup id = some record
    rw [List.mem_map, ← Option.mem_def, AList.mem_lookup_iff]
    constructor
    · rintro ⟨e, he, heq⟩
      cases heq
      exact he
    · intro he
      exact ⟨_, he, rfl⟩
  length_fetchMulti h := (forall₂_fetchMulti h).length_eq.symm
  fetch_of_fetchMulti {store ids found e} h he := by
    obtain ⟨i, hi, rfl⟩ := List.getElem_of_mem he
    obtain ⟨hid, hlookup⟩ := (List.forall₂_iff_get.mp (forall₂_fetchMulti h)).2 i
      ((forall₂_fetchMulti h).length_eq ▸ hi) hi
    rw [← hid] at hlookup
    exact hlookup
  fetch_updateMulti_of_mem hnodup _ hu := lookup_foldl_insert_of_mem _ hnodup hu
  fetch_updateMulti_of_notMem _ _ hid := lookup_foldl_insert _ hid
  fetch_eraseMulti _ _ := lookup_foldl_erase _ _ _

instance : ReadableCollection (Store κ V) where
  fetchMulti_ok {store ids} hids := by
    induction ids with
    | nil => exact ⟨[], rfl, rfl⟩
    | cons id rest ih =>
      obtain ⟨found, hfound, hkeys⟩ := ih fun id hid => hids id (List.mem_cons_of_mem _ hid)
      obtain ⟨record, hrecord⟩ := Option.ne_none_iff_exists'.mp (hids id List.mem_cons_self)
      have hlookup : store.lookup id = some record := hrecord
      refine ⟨(id, record) :: found, ?_, ?_⟩
      · simp only [fetchMulti, List.mapM_cons, hlookup] at hfound ⊢
        rw [hfound]
        rfl
      · rw [List.map_cons, hkeys]

end Stores

end RecordStore
