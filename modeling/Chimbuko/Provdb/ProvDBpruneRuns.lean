import Chimbuko.Library.Grouping
import Chimbuko.Provdb.ProvDBprune

/-!
# What is left after pruning

For each record of a collection there is one outcome, which the model determines: it is erased, or
it stays with the score of its value and the entry of its function. Going through the functions one
by one, the records of those that were visited have their outcome and the others are as they were,
and the statistics include the outcomes so far.

Over all shards this makes pruning a filter. It does not depend on the order of the shards or on
the order in which a hash map lists the functions, and doing it again changes nothing.
-/

namespace Chimbuko

open Filing Grouping RecordStore Collection LawfulCollection TransitionSystem

namespace ProvDBpruneInterface

variable {S J O : Type} [Collection S ℕ (ProvRecord J O)] (assess : ℕ → ℚ → Assessment)
  (params : ℕ → J)

/-- A record with the score of its value and the entry of its function. -/
def scored (record : ProvRecord J O) : ProvRecord J O :=
  { record with
    outlierScore := (assess record.fid record.runtimeExclusive).2
    algoParams := some (params record.fid) }

/-- What becomes of a record: it is erased, or it gets its score and the entry of its function. -/
def remains (pruneType : EventType) (record : ProvRecord J O) : Option (ProvRecord J O) :=
  if (assess record.fid record.runtimeExclusive).1 = typeToRemove pruneType then none
  else some (scored assess params record)

/-- The entries of a collection that are about a function. -/
def entriesOf (collection : S) (fid : ℕ) :
    List (ℕ × ProvRecord J O) :=
  group (fun e => e.2.fid) (all collection) fid

/-- What remains of the records of a function. -/
def kept (pruneType : EventType) (collection : S) (fid : ℕ) :
    List (ProvRecord J O) :=
  (entriesOf collection fid).filterMap fun e => remains assess params pruneType e.2

/-- Include records one after another. -/
def pushRecords (stats : AnomMetrics) (records : List (ProvRecord J O)) : AnomMetrics :=
  records.foldl (fun stats record => pushRecord record stats) stats

/-- A record that remains is about the same function, and has the same value. -/
theorem remains_eq_some {pruneType : EventType} {record record' : ProvRecord J O}
    (h : remains assess params pruneType record = some record') :
    record'.fid = record.fid ∧ record'.runtimeExclusive = record.runtimeExclusive := by
  unfold remains at h
  split at h
  · cases h
  · cases h
    exact ⟨rfl, rfl⟩

/-- What remains of a record remains as it is. -/
theorem remains_remains {pruneType : EventType} {record record' : ProvRecord J O}
    (h : remains assess params pruneType record = some record') :
    remains assess params pruneType record' = some record' := by
  unfold remains at h
  split at h
  · cases h
  · rename_i hlabel
    cases h
    exact if_neg hlabel

/-- The entries of a function are those that are stored and are about it. -/
theorem mem_entriesOf [LawfulCollection S] {collection : S} {fid : ℕ} {e : ℕ × ProvRecord J O} :
    e ∈ entriesOf collection fid ↔ fetch collection e.1 = some e.2 ∧ e.2.fid = fid := by
  unfold entriesOf
  rw [mem_group]
  exact and_congr_left fun _ => mem_all

/-- The values of a function are those of its records. -/
theorem valueAt_readCollection (collection : S) (fid : ℕ) :
    valueAt (readCollection collection) fid =
      (entriesOf collection fid).map fun e => (e.1, (e.2.runtimeExclusive : ℚ)) := by
  have hread : ∀ (entries : List (ℕ × ProvRecord J O))
      (m : AList fun _ : ℕ => List (ℕ × ℚ)),
      valueAt (entries.foldl (fun m e => modifyAt e.2.fid
        (fun records => records ++ [(e.1, (e.2.runtimeExclusive : ℚ))]) m) m) fid =
      valueAt m fid ++ (group (fun e => e.2.fid) entries fid).map fun e =>
        (e.1, (e.2.runtimeExclusive : ℚ)) := by
    intro entries
    induction entries with
    | nil =>
      intro m
      exact (List.append_nil _).symm
    | cons e rest ih =>
      intro m
      rw [List.foldl_cons, ih, valueAt_modifyAt]
      unfold group
      by_cases hfid : e.2.fid = fid
      · rw [← hfid, Function.update_self, List.filter_cons_of_pos (by simp), List.map_cons,
          List.append_assoc, List.singleton_append]
      · rw [Function.update_of_ne (Ne.symm hfid), List.filter_cons_of_neg (by simpa using hfid)]
  unfold readCollection entriesOf
  rw [hread, valueAt_empty]
  rfl

/-- A function has values if it has records. -/
theorem mem_keys_readCollection [LawfulCollection S] {collection : S} {id : ℕ}
    {record : ProvRecord J O} (h : fetch collection id = some record) :
    record.fid ∈ (readCollection collection).keys := by
  by_contra hkeys
  have hmem : record.fid ∉ readCollection collection := hkeys
  have hvalues := valueAt_readCollection collection record.fid
  unfold valueAt at hvalues
  rw [AList.lookup_eq_none.mpr hmem] at hvalues
  have hentry : (⟨id, record⟩ : ℕ × ProvRecord J O) ∈
      entriesOf collection record.fid := mem_entriesOf.mpr ⟨h, rfl⟩
  rw [List.map_eq_nil_iff.mp hvalues.symm] at hentry
  cases hentry

/-- The record gets what its function and its position give it. -/
private def amended (scores : List ℚ) (x : ProvRecord J O × ℕ) : ProvRecord J O :=
  { x.1 with outlierScore := scores.getD x.2 0, algoParams := some (params x.1.fid) }

/-- What is cached is what the algorithm tells. -/
private def Caches (s : AmendState J) : Prop :=
  ∀ fid x, s.jsonParamCache.lookup fid = some x → x = params fid

/-- Amending a record gives it its score and the entry of its function. -/
private theorem amendRecord_ok {ad : ℕ → Except String J} {scores : List ℚ}
    {record new : ProvRecord J O} (had : ad record.fid = .ok (params record.fid)) {pos : ℕ}
    {s s' : AmendState J} (hcache : Caches params s)
    (h : amendRecord ad scores s record pos = .ok (s', new)) :
    new = amended params scores (record, pos) ∧ Caches params s' ∧
      s'.regenStats = s.regenStats.map (pushRecord new) := by
  unfold amendRecord at h
  dsimp only at h
  cases hfetch : s.jsonParamCache.lookup record.fid with
  | some x =>
    rw [hfetch] at h
    cases h
    rw [hcache _ _ hfetch]
    exact ⟨rfl, hcache, rfl⟩
  | none =>
    rw [hfetch, had] at h
    cases h
    refine ⟨rfl, fun fid x hx => ?_, rfl⟩
    dsimp only at hx
    by_cases hfid : fid = record.fid
    · rw [hfid, AList.lookup_insert] at hx
      rw [hfid]
      exact (Option.some.inj hx).symm
    · rw [AList.lookup_insert_ne hfid] at hx
      exact hcache fid x hx

/-- What amending does to a list of records. -/
private theorem amendEach_amendRecord {ad : ℕ → Except String J} {scores : List ℚ}
    {olds news : List (ProvRecord J O)}
    (had : ∀ record ∈ olds, ad record.fid = .ok (params record.fid)) {pos : ℕ}
    {s s' : AmendState J} (hcache : Caches params s)
    (h : amendEach (amendRecord ad scores) pos s olds = .ok (s', news)) :
    news = (olds.zipIdx pos).map (amended params scores) ∧
      s'.regenStats = s.regenStats.map fun stats => pushRecords stats news := by
  induction olds generalizing pos s news with
  | nil =>
    cases h
    exact ⟨rfl, Option.map_id'.symm⟩
  | cons record rest ih =>
    obtain ⟨⟨s₁, new⟩, hnew, h⟩ := bind_eq_ok h
    obtain ⟨⟨s₂, tail⟩, htail, h⟩ := bind_eq_ok h
    cases h
    obtain ⟨hnew, hcache', hfirst⟩ :=
      amendRecord_ok params (had record List.mem_cons_self) hcache hnew
    obtain ⟨htail, hrest⟩ := ih (fun r hr => had r (List.mem_cons_of_mem _ hr)) hcache' htail
    constructor
    · rw [List.zipIdx_cons, List.map_cons, htail, hnew]
    · rw [hrest, hfirst, Option.map_map]
      rfl

/-- The elements of a function, labeled. -/
def labeledElems (collection : S) (fid : ℕ) : List Elem :=
  (entriesOf collection fid).map fun e => assessElem (assess fid) (e.2.runtimeExclusive, e.1)

/-- The records of some functions have their outcome, and the statistics include what remains. -/
structure Pruned (collection : S) (regenStats : Option AnomMetrics)
    (done : List ℕ) (source : ProvDBpruneInterface S J) : Prop where
  fetch_eq : ∀ id, fetch source.collection id = (fetch collection id).bind fun record =>
    if record.fid ∈ done then remains assess params source.pruneType record else some record
  stats : source.regenStats = regenStats.map fun stats =>
    pushRecords stats (done.flatMap (kept assess params source.pruneType collection))
  labeled_eq : source.labeled = done.flatMap (labeledElems assess collection)

/-- The label that a record of a function gets. -/
private def labelOf (fid : ℕ) (e : ℕ × ProvRecord J O) : EventType :=
  (assess fid e.2.runtimeExclusive).1

/-- The entries of a function whose label is that of records to remove. -/
private def toRemove (collection : S) (fid : ℕ) (pruneType : EventType) :
    List (ℕ × ProvRecord J O) :=
  (entriesOf collection fid).filter fun e => labelOf assess fid e = typeToRemove pruneType

/-- The entries of a function whose label is not that of records to remove. -/
private def toKeep (collection : S) (fid : ℕ) (pruneType : EventType) :
    List (ℕ × ProvRecord J O) :=
  (entriesOf collection fid).filter fun e => labelOf assess fid e ≠ typeToRemove pruneType

/-- What remains of the records of a function are those to keep, with their scores. -/
private theorem kept_eq [LawfulCollection S] (pruneType : EventType) (collection : S) (fid : ℕ) :
    kept assess params pruneType collection fid =
      (toKeep assess collection fid pruneType).map fun e => scored assess params e.2 := by
  unfold kept toKeep
  rw [← List.filterMap_eq_map, List.filterMap_filter]
  apply List.filterMap_congr
  intro e he
  have hfid := (mem_entriesOf.mp he).2
  unfold remains labelOf
  rw [hfid]
  by_cases hlabel : (assess fid e.2.runtimeExclusive).1 = typeToRemove pruneType
  · simp [hlabel]
  · simp [hlabel]

/-- Records with their positions, when the scores are listed in the same order. -/
private theorem map_amended (es : List (ℕ × ProvRecord J O)) (fid : ℕ)
    (hfid : ∀ e ∈ es, e.2.fid = fid) :
    ((es.map Prod.snd).zipIdx 0).map
        (amended params (es.map fun e => (assess fid e.2.runtimeExclusive).2)) =
      es.map fun e => scored assess params e.2 := by
  apply List.ext_getElem
  · simp
  · intro i hi hi'
    rw [List.length_map] at hi'
    have hget := hfid es[i] (List.getElem_mem hi')
    simp only [List.getElem_map, List.getElem_zipIdx, amended, scored, hget, Nat.zero_add]
    rw [List.getD_eq_getElem _ _ (by rwa [List.length_map]), List.getElem_map]

/-- The elements to remove are those of the entries to remove. -/
private theorem map_toRemove (collection : S) (fid : ℕ)
    (pruneType : EventType) :
    ((labeledElems assess collection fid).filter
        fun e => e.label = typeToRemove pruneType).map Elem.index =
      (toRemove assess collection fid pruneType).map Prod.fst := by
  unfold labeledElems
  rw [List.filter_map, List.map_map]
  rfl

/-- The elements to keep are those of the entries to keep. -/
private theorem map_toKeep {γ : Type} (f : Elem → γ) (collection : S)
    (fid : ℕ) (pruneType : EventType) :
    ((labeledElems assess collection fid).filter
        fun e => e.label ≠ typeToRemove pruneType).map f =
      (toKeep assess collection fid pruneType).map fun e =>
        f (assessElem (assess fid) (e.2.runtimeExclusive, e.1)) := by
  unfold labeledElems
  rw [List.filter_map, List.map_map]
  rfl

/-- The identifiers of some entries are distinct. -/
private theorem nodup_ids [LawfulCollection S] (collection : S) (fid : ℕ)
    (p : ℕ × ProvRecord J O → Bool) :
    (((entriesOf collection fid).filter p).map Prod.fst).Nodup := by
  have hsublist : ((entriesOf collection fid).filter p).Sublist (all collection) :=
    List.filter_sublist.trans List.filter_sublist
  exact (nodup_all collection).sublist (hsublist.map Prod.fst)

/-- What is erased of the records of a function. -/
private theorem fetch_erased [LawfulCollection S] {collection before : S} {fid : ℕ}
    {pruneType : EventType}
    (hbefore : ∀ e ∈ entriesOf collection fid, fetch before e.1 = some e.2) (id : ℕ) :
    fetch (eraseMulti before ((toRemove assess collection fid pruneType).map Prod.fst)) id =
      if id ∈ (toRemove assess collection fid pruneType).map Prod.fst then none
      else fetch before id := by
  apply fetch_eraseMulti (nodup_ids collection fid _)
  intro id hid
  obtain ⟨e, he, rfl⟩ := List.mem_map.mp hid
  rw [hbefore e (List.mem_filter.mp he).1]
  exact Option.some_ne_none _

/-- Records that are fetched one for each entry, as the entries have them, are those of the
entries. -/
private theorem eq_map_snd {collection : S}
    {es : List (ℕ × ProvRecord J O)} {olds : List (ProvRecord J O)}
    (hes : ∀ e ∈ es, fetch collection e.1 = some e.2)
    (h : List.Forall₂ (fun id record => fetch collection id = some record)
      (es.map Prod.fst) olds) : olds = es.map Prod.snd := by
  induction es generalizing olds with
  | nil =>
    cases h
    rfl
  | cons e rest ih =>
    cases h with
    | cons hfirst hrest =>
      rw [hes e List.mem_cons_self] at hfirst
      rw [List.map_cons, ← ih (fun e he => hes e (List.mem_cons_of_mem _ he)) hrest,
        Option.some.inj hfirst]

/-- What is kept of the records of a function is not erased. -/
private theorem fetch_toKeep [LawfulCollection S] {collection before : S} {fid : ℕ}
    {pruneType : EventType}
    (hbefore : ∀ e ∈ entriesOf collection fid, fetch before e.1 = some e.2)
    {e : ℕ × ProvRecord J O} (he : e ∈ toKeep assess collection fid pruneType) :
    fetch (eraseMulti before ((toRemove assess collection fid pruneType).map Prod.fst)) e.1 =
      some e.2 := by
  obtain ⟨hentry, hlabel⟩ := List.mem_filter.mp he
  rw [fetch_erased assess hbefore, if_neg, hbefore e hentry]
  intro hremove
  obtain ⟨e', he', hid⟩ := List.mem_map.mp hremove
  obtain ⟨hentry', hlabel'⟩ := List.mem_filter.mp he'
  have hrecord := (mem_entriesOf.mp hentry').1
  rw [hid, (mem_entriesOf.mp hentry).1] at hrecord
  have hsame : e' = e := Prod.ext hid (Option.some.inj hrecord).symm
  rw [hsame] at hlabel'
  exact absurd (of_decide_eq_true hlabel') (of_decide_eq_true hlabel)

/-- Recording the labels of a function erases some of its records and replaces the others. -/
private theorem record_cases [LawfulCollection S] {collection : S}
    {self self' : ProvDBpruneInterface S J} {fid dsetIndex : ℕ}
    (hself : ∀ e ∈ entriesOf collection fid, fetch self.collection e.1 = some e.2)
    (had : ∀ e ∈ entriesOf collection fid, self.ad fid = .ok (params fid))
    (hrecord : self.recordDataSetLabelsInternal (labeledElems assess collection fid) dsetIndex =
      .ok self') :
    Replaced (eraseMulti self.collection
        ((toRemove assess collection fid self.pruneType).map Prod.fst)) self'.collection
      ((toKeep assess collection fid self.pruneType).map Prod.fst)
      (kept assess params self.pruneType collection fid) ∧
    self'.regenStats = self.regenStats.map (fun stats =>
      pushRecords stats (kept assess params self.pruneType collection fid)) ∧
    self' = { self with
      collection := self'.collection
      regenStats := self'.regenStats
      labeled := self.labeled ++ labeledElems assess collection fid } := by
  unfold recordDataSetLabelsInternal batchAmendRecords at hrecord
  obtain ⟨modelIdx, -, hrecord⟩ := bind_eq_ok hrecord
  obtain ⟨⟨s, collection'⟩, hamend, hrecord⟩ := bind_eq_ok hrecord
  cases hrecord
  rw [map_toRemove, map_toKeep, map_toKeep] at hamend
  have hnodup := nodup_ids collection fid
    fun e => labelOf assess fid e ≠ typeToRemove self.pruneType
  obtain ⟨olds, news, holds, hamend, hreplaced⟩ :=
    amendBatches_ok (by norm_num) _ le_rfl hnodup hamend
  have hsnd := eq_map_snd (fun e he => fetch_toKeep assess hself he) holds
  have hfid : ∀ e ∈ toKeep assess collection fid self.pruneType, e.2.fid = fid :=
    fun e he => (mem_entriesOf.mp (List.mem_filter.mp he).1).2
  have hparams : ∀ record ∈ olds, self.ad record.fid = .ok (params record.fid) := by
    intro record hmem
    rw [hsnd] at hmem
    obtain ⟨e, he, rfl⟩ := List.mem_map.mp hmem
    rw [hfid e he]
    exact had e (List.mem_filter.mp he).1
  have hcache : Caches params
      { jsonParamCache := ∅, regenStats := self.regenStats : AmendState J } := by
    intro k x hx
    rw [AList.lookup_empty] at hx
    cases hx
  obtain ⟨hnews, hstats⟩ := amendEach_amendRecord params hparams hcache hamend
  have hkept : news = kept assess params self.pruneType collection fid := by
    rw [hnews, hsnd, kept_eq]
    exact map_amended assess params _ fid hfid
  rw [hkept] at hreplaced hstats
  exact ⟨hreplaced, hstats, rfl⟩

/-- A record can be amended if the algorithm tells what its model holds for the function. -/
private theorem returns_amendRecord {ad : ℕ → Except String J} (scores : List ℚ)
    (s : AmendState J) {record : ProvRecord J O} (pos : ℕ) (had : Returns (ad record.fid)) :
    Returns (amendRecord ad scores s record pos) := by
  obtain ⟨params, had⟩ := had
  unfold amendRecord
  dsimp only
  cases s.jsonParamCache.lookup record.fid with
  | some params => exact ⟨_, rfl⟩
  | none =>
    rw [had]
    exact ⟨_, rfl⟩

/-- Recording the labels of a function whose records are all there returns. -/
private theorem returns_record [LawfulCollection S] [ReadableCollection S] {collection : S}
    {self : ProvDBpruneInterface S J} {fid dsetIndex : ℕ}
    (hself : ∀ e ∈ entriesOf collection fid, fetch self.collection e.1 = some e.2)
    (had : ∀ e ∈ entriesOf collection fid, self.ad fid = .ok (params fid))
    (hindex : Returns (self.getDataSetModelIndex dsetIndex)) :
    Returns (self.recordDataSetLabelsInternal (labeledElems assess collection fid) dsetIndex) := by
  have hids : ∀ id ∈ (toKeep assess collection fid self.pruneType).map Prod.fst, ∃ record,
      fetch (eraseMulti self.collection
        ((toRemove assess collection fid self.pruneType).map Prod.fst)) id = some record ∧
      Returns (self.ad record.fid) := by
    intro id hid
    obtain ⟨e, he, rfl⟩ := List.mem_map.mp hid
    obtain ⟨hentry, -⟩ := List.mem_filter.mp he
    refine ⟨e.2, fetch_toKeep assess hself he, ?_⟩
    rw [(mem_entriesOf.mp hentry).2]
    exact ⟨_, had e hentry⟩
  obtain ⟨modelIdx, hindex⟩ := hindex
  unfold recordDataSetLabelsInternal batchAmendRecords
  refine returns_bind.mpr ⟨modelIdx, hindex, ?_⟩
  dsimp only
  rw [map_toRemove, map_toKeep, map_toKeep]
  refine (returns_bind_of_returns fun _ => ⟨_, rfl⟩).mpr ?_
  exact amendBatches_returns (fun s record pos h => returns_amendRecord _ s pos h) 500 _
    (nodup_ids collection fid _) hids 0 _

/-- When some entries of a function were erased and the others replaced, each has its outcome. -/
private theorem fetch_of_replaced [LawfulCollection S] {collection before after : S} {fid : ℕ}
    {pruneType : EventType}
    (h : Replaced (eraseMulti before ((toRemove assess collection fid pruneType).map Prod.fst))
      after ((toKeep assess collection fid pruneType).map Prod.fst)
      (kept assess params pruneType collection fid))
    (hbefore : ∀ e ∈ entriesOf collection fid, fetch before e.1 = some e.2)
    {e : ℕ × ProvRecord J O} (he : e ∈ entriesOf collection fid) :
    fetch after e.1 = remains assess params pruneType e.2 := by
  have hfid := (mem_entriesOf.mp he).2
  have hsame : ∀ e' ∈ entriesOf collection fid, e'.1 = e.1 → e' = e := by
    intro e' he' hid
    have hrecord := (mem_entriesOf.mp he').1
    rw [hid, (mem_entriesOf.mp he).1] at hrecord
    exact Prod.ext hid (Option.some.inj hrecord).symm
  unfold remains
  rw [hfid]
  by_cases hlabel : (assess fid e.2.runtimeExclusive).1 = typeToRemove pruneType
  · rw [if_pos hlabel, h.others, fetch_erased assess hbefore, if_pos]
    · exact List.mem_map_of_mem (List.mem_filter.mpr ⟨he, decide_eq_true hlabel⟩)
    · intro hkeep
      obtain ⟨e', he', hid⟩ := List.mem_map.mp hkeep
      obtain ⟨hentry, hlabel'⟩ := List.mem_filter.mp he'
      rw [hsame e' hentry hid] at hlabel'
      exact of_decide_eq_true hlabel' hlabel
  · rw [if_neg hlabel]
    have hmem : e ∈ toKeep assess collection fid pruneType :=
      List.mem_filter.mpr ⟨he, decide_eq_true hlabel⟩
    have hall := h.replaced
    rw [kept_eq, List.forall₂_map_left_iff, List.forall₂_map_right_iff] at hall
    exact List.forall₂_same.mp hall e hmem

/-- The records of a function that was not visited are as before. -/
private theorem Pruned.fetch_unvisited [LawfulCollection S] {collection : S}
    {regenStats : Option AnomMetrics} {done : List ℕ} {self : ProvDBpruneInterface S J} {fid : ℕ}
    (h : Pruned assess params collection regenStats done self) (hfid : fid ∉ done) :
    ∀ e ∈ entriesOf collection fid, fetch self.collection e.1 = some e.2 := by
  intro e he
  obtain ⟨hfetch, hkey⟩ := mem_entriesOf.mp he
  rw [h.fetch_eq, hfetch, Option.bind_some, hkey, if_neg hfid]

/-- Recording the labels of a function gives its records their outcome. -/
theorem Pruned.record [LawfulCollection S] {collection : S} {regenStats : Option AnomMetrics}
    {done : List ℕ} {self self' : ProvDBpruneInterface S J} {fid dsetIndex : ℕ}
    (h : Pruned assess params collection regenStats done self) (hfid : fid ∉ done)
    (had : ∀ e ∈ entriesOf collection fid, self.ad fid = .ok (params fid))
    (hrecord : self.recordDataSetLabelsInternal (labeledElems assess collection fid) dsetIndex =
      .ok self') :
    Pruned assess params collection regenStats (done ++ [fid]) self' ∧
      self' = { self with
        collection := self'.collection
        regenStats := self'.regenStats
        labeled := self.labeled ++ labeledElems assess collection fid } := by
  have hself := h.fetch_unvisited _ _ hfid
  obtain ⟨hreplaced, hstats, hframe⟩ := record_cases assess params hself had hrecord
  have htype : self'.pruneType = self.pruneType := by rw [hframe]
  refine ⟨⟨fun id => ?_, ?_, ?_⟩, hframe⟩
  · rw [htype]
    have hother : (∀ e ∈ entriesOf collection fid, e.1 ≠ id) →
        fetch self'.collection id = fetch self.collection id := by
      intro hid
      rw [hreplaced.others, fetch_erased assess hself, if_neg]
      · intro hremove
        obtain ⟨e, he, hfst⟩ := List.mem_map.mp hremove
        exact hid e (List.mem_filter.mp he).1 hfst
      · intro hkeep
        obtain ⟨e, he, hfst⟩ := List.mem_map.mp hkeep
        exact hid e (List.mem_filter.mp he).1 hfst
    cases hfetch : fetch collection id with
    | none =>
      rw [hother, h.fetch_eq, hfetch]
      · rfl
      · rintro e he rfl
        rw [(mem_entriesOf.mp he).1] at hfetch
        cases hfetch
    | some record =>
      rw [Option.bind_some]
      by_cases hkey : record.fid = fid
      · rw [if_pos (by rw [hkey]; exact List.mem_append_right _ List.mem_cons_self)]
        have hentry : (⟨id, record⟩ : ℕ × ProvRecord J O) ∈
            entriesOf collection fid := mem_entriesOf.mpr ⟨hfetch, hkey⟩
        exact fetch_of_replaced assess params hreplaced hself hentry
      · rw [hother, h.fetch_eq, hfetch, Option.bind_some]
        · simp only [List.mem_append, List.mem_singleton, hkey, or_false]
        · rintro e he rfl
          obtain ⟨hentry, hfst⟩ := mem_entriesOf.mp he
          rw [hentry] at hfetch
          exact hkey (Option.some.inj hfetch ▸ hfst)
  · rw [hstats, h.stats, Option.map_map, htype]
    congr 1
    funext stats
    unfold pushRecords
    simp only [Function.comp_apply, List.flatMap_append, List.flatMap_singleton, List.foldl_append]
  · rw [hframe, List.flatMap_append, List.flatMap_singleton, ← h.labeled_eq]

/-- Recording the labels of a function that was not visited returns. -/
theorem Pruned.returns_record [LawfulCollection S] [ReadableCollection S] {collection : S}
    {regenStats : Option AnomMetrics} {done : List ℕ} {self : ProvDBpruneInterface S J}
    {fid dsetIndex : ℕ} (h : Pruned assess params collection regenStats done self)
    (hfid : fid ∉ done) (had : ∀ e ∈ entriesOf collection fid, self.ad fid = .ok (params fid))
    (hindex : Returns (self.getDataSetModelIndex dsetIndex)) :
    Returns (self.recordDataSetLabelsInternal (labeledElems assess collection fid) dsetIndex) :=
  ProvDBpruneInterface.returns_record assess params (h.fetch_unvisited _ _ hfid) had hindex

/-- Nothing is pruned at first. -/
theorem pruned_new (hashOrder : List ℕ → List ℕ) (ad : ℕ → Except String J)
    (collection : S) (pruneType : EventType)
    (regenStats : Option AnomMetrics) :
    Pruned assess params collection regenStats []
      (ProvDBpruneInterface.new hashOrder ad collection pruneType regenStats) := by
  constructor
  · intro id
    simp only [List.not_mem_nil, if_false]
    exact (Option.bind_fun_some _).symm
  · exact Option.map_id'.symm
  · rfl

/-- The data sets are those of the functions, each once. -/
structure Reads (collection : S) (source : ProvDBpruneInterface S J) :
    Prop where
  nodup : (source.data.map Prod.fst).Nodup
  mem : ∀ id record, fetch collection id = some record → record.fid ∈ source.data.map Prod.fst
  values : ∀ d ∈ source.data, d.2 =
    (entriesOf collection d.1).map fun e => (e.1, (e.2.runtimeExclusive : ℚ))

/-- Only the data sets matter. -/
theorem Reads.of_data {collection : S} {source source' : ProvDBpruneInterface S J}
    (h : Reads collection source) (hdata : source'.data = source.data) :
    Reads collection source' :=
  ⟨hdata ▸ h.nodup, hdata ▸ h.mem, hdata ▸ h.values⟩

/-- The next data set is not about a function that was visited before. -/
theorem Reads.next {collection : S} {source : ProvDBpruneInterface S J}
    (h : Reads collection source) {k : ℕ} {d : ℕ × List (ℕ × ℚ)} {rest : List (ℕ × List (ℕ × ℚ))}
    (hds : source.data.drop k = d :: rest) : source.data[k]? = some d ∧
      (source.data.take k).map Prod.fst ++ [d.1] = (source.data.take (k + 1)).map Prod.fst ∧
      d.1 ∉ (source.data.take k).map Prod.fst := by
  have hd : source.data[k]? = some d := by
    rw [← List.head?_drop, hds]
    rfl
  have htake : (source.data.take k).map Prod.fst ++ [d.1] =
      (source.data.take (k + 1)).map Prod.fst := by
    rw [List.take_add_one, hd, List.map_append]
    rfl
  refine ⟨hd, htake, fun hmem => ?_⟩
  have hnodup := h.nodup.sublist ((List.take_sublist (k + 1) _).map Prod.fst)
  rw [← htake, List.nodup_append] at hnodup
  exact hnodup.2.2 d.1 hmem d.1 List.mem_cons_self rfl

/-- A new interface has read each function once. -/
theorem reads_new [LawfulCollection S] {hashOrder : List ℕ → List ℕ}
    (hhash : ∀ l, (hashOrder l).Perm l) (ad : ℕ → Except String J) (collection : S)
    (pruneType : EventType) (regenStats : Option AnomMetrics) :
    Reads collection (ProvDBpruneInterface.new hashOrder ad collection pruneType regenStats) := by
  have hfst : (ProvDBpruneInterface.new hashOrder ad collection pruneType regenStats).data.map
      Prod.fst = hashOrder (readCollection collection).keys := by
    unfold ProvDBpruneInterface.new
    rw [List.map_map]
    exact List.map_id _
  constructor
  · rw [hfst, (hhash _).nodup_iff]
    exact AList.keys_nodup _
  · intro id record h
    rw [hfst, (hhash _).mem_iff]
    exact mem_keys_readCollection h
  · intro d hd
    obtain ⟨fid, -, rfl⟩ := List.mem_map.mp hd
    exact valueAt_readCollection collection fid

/-- When all functions were visited, every record has its outcome. -/
theorem Pruned.fetch_of_reads {collection : S}
    {regenStats : Option AnomMetrics} {source : ProvDBpruneInterface S J}
    (h : Pruned assess params collection regenStats (source.data.map Prod.fst) source)
    (hreads : Reads collection source) (id : ℕ) :
    fetch source.collection id =
      (fetch collection id).bind (remains assess params source.pruneType) := by
  rw [h.fetch_eq]
  apply Option.bind_congr
  intro record hrecord
  rw [if_pos (hreads.mem id record hrecord)]

end ProvDBpruneInterface

namespace ProvDBprune

open ProvDBpruneInterface

variable {P S J O : Type} [Collection S ℕ (ProvRecord J O)] {A : ReportingAlgorithm P J}
  {assess : P → ℕ → ℚ → Assessment} {params : P → ℕ → J} {hashOrder : List ℕ → List ℕ}

/-- An algorithm whose model is fixed, and assesses like a given one. -/
structure Frozen (assess : P → ℕ → ℚ → Assessment) (params : P → ℕ → J) (model : P)
    (outlier : ADOutlier P) : Prop where
  freq : outlier.globalModelSyncFreq = 0
  assess_eq : assess outlier.param = assess model
  params_eq : params outlier.param = params model

/-- The elements of a data set, before they are labeled. -/
def elemsOf (d : ℕ × List (ℕ × ℚ)) : List Elem := d.2.map fun x => Elem.new x.2 x.1

/-- Gathering puts the values of all data sets into the statistics. Otherwise it just gets them. -/
theorem gather_eq (source : ProvDBpruneInterface S J) (dsetAnom : List DataSetAnomalies) (param : P)
    {n : ℕ} (hn : n ≤ source.data.length) :
    (List.range n).foldlM (ADOutlier.gather A.toADAlgorithm)
      { dataVals := [], param := param, data := { source := source, dsetAnom := dsetAnom } } = (do
        let param ← (source.data.take n).foldlM
          (fun param d => A.addValues param d.1 (d.2.map Prod.snd)) param
        pure { dataVals := (source.data.take n).map elemsOf, param := param
               data := { source := source, dsetAnom := dsetAnom } }) := by
  induction n with
  | zero => rfl
  | succ n ih =>
    have hd : source.data[n]? = some source.data[n] := List.getElem?_eq_getElem hn
    have hget : getDataSet source n = .ok (elemsOf source.data[n], source) := by
      unfold getDataSet
      rw [hd]
      rfl
    have hmodel : getDataSetModelIndex source n = .ok source.data[n].1 := by
      unfold getDataSetModelIndex
      rw [hd]
      rfl
    have hvalues : (elemsOf source.data[n]).map Elem.value = source.data[n].2.map Prod.snd := by
      unfold elemsOf
      rw [List.map_map]
      rfl
    have hstep : ∀ g : ADOutlier.Gathered P (ProvDBpruneInterface S J),
        g.data = { source := source, dsetAnom := dsetAnom } →
        ADOutlier.gather A.toADAlgorithm g n = (do
          let param ← A.addValues g.param source.data[n].1 (source.data[n].2.map Prod.snd)
          pure { dataVals := g.dataVals ++ [elemsOf source.data[n]], param := param
                 data := { source := source, dsetAnom := dsetAnom } }) := by
      intro g hg
      unfold ADOutlier.gather
      rw [hg]
      change ((getDataSet source n >>= _) >>= _) = _
      rw [hget]
      change (getDataSetModelIndex source n >>= _) = _
      rw [hmodel]
      change (A.addValues g.param source.data[n].1 ((elemsOf source.data[n]).map Elem.value) >>=
        _) = _
      rw [hvalues]
    rw [List.range_succ, List.foldlM_append, ih (Nat.le_of_succ_le hn), List.take_add_one, hd,
      List.foldlM_append, List.map_append]
    cases (source.data.take n).foldlM
        (fun param d => A.addValues param d.1 (d.2.map Prod.snd)) param with
    | error e => rfl
    | ok param' =>
      change (ADOutlier.gather A.toADAlgorithm _ n >>= _) = _
      rw [hstep _ rfl]
      change ((A.addValues param' _ _ >>= _) >>= _) = ((A.addValues param' _ _ >>= _) >>= _)
      cases A.addValues param' source.data[n].1 (source.data[n].2.map Prod.snd) <;> rfl

/-- A run with a fixed model merges the values into the local model, and labels the data sets. -/
theorem run_eq {outlier : ADOutlier P} (hfreq : outlier.globalModelSyncFreq = 0)
    (source : ProvDBpruneInterface S J) :
    run A outlier (ADDataInterface.new source) = (do
      let localParam ← (do
        let param ← source.data.foldlM
          (fun param d => A.addValues param d.1 (d.2.map Prod.snd)) A.runParam
        A.update outlier.localParam param)
      (source.data.map elemsOf).zipIdx.foldlM (labelDataSet A)
        ({ outlier with
            localParam := localParam, syncCallCount := outlier.syncCallCount + 1 },
          ADDataInterface.new source)) := by
  have hlength : (ADDataInterface.new source).nDataSets = source.data.length :=
    List.length_replicate
  unfold run
  rw [hlength]
  unfold ADDataInterface.new
  rw [gather_eq source _ _ le_rfl, List.take_length]
  cases source.data.foldlM (fun param d => A.addValues param d.1 (d.2.map Prod.snd)) A.runParam with
  | error e => rfl
  | ok param =>
    change (A.update outlier.localParam param >>= _) = (A.update outlier.localParam param >>= _)
    cases A.update outlier.localParam param with
    | error e => rfl
    | ok localParam =>
      let merged : ADOutlier P := { outlier with localParam := localParam }
      have hfreq' : merged.globalModelSyncFreq ≤ 0 := hfreq.le
      have hsynced : merged.updateGlobalModel A.toADAlgorithm A.new =
          .ok { merged with syncCallCount := merged.syncCallCount + 1 } :=
        ADOutlier.updateGlobalModel_frozen hfreq'
      change (merged.updateGlobalModel A.toADAlgorithm A.new >>= _) = _
      rw [hsynced]
      rfl

/-- The data set of a function has an element for each of its records. -/
theorem elemsOf_eq {collection : S} {d : ℕ × List (ℕ × ℚ)}
    (hvalues : d.2 = (entriesOf collection d.1).map fun e => (e.1, (e.2.runtimeExclusive : ℚ))) :
    elemsOf d = ((entriesOf collection d.1).map fun e =>
      ((e.2.runtimeExclusive : ℚ), e.1)).map fun x => Elem.new x.1 x.2 := by
  unfold elemsOf
  rw [hvalues, List.map_map, List.map_map]
  rfl

/-- What labeling the data set of a function with a fixed model gives. -/
theorem labeled_elemsOf (hA : A.AssessesBy assess params) {model : P} {outlier : ADOutlier P}
    {collection : S} {d : ℕ × List (ℕ × ℚ)} {labeled : Labeled P}
    (hfrozen : Frozen assess params model outlier)
    (hvalues : d.2 = (entriesOf collection d.1).map fun e => (e.1, (e.2.runtimeExclusive : ℚ)))
    (h : A.labelData outlier.param (elemsOf d) d.1 = .ok labeled) :
    labeled.data = labeledElems (assess model) collection d.1 ∧
      ∀ e ∈ entriesOf collection d.1,
        A.getAlgorithmParams labeled.param d.1 = .ok (params model d.1) := by
  have helems := elemsOf_eq hvalues
  constructor
  · have hdata := h
    rw [helems] at hdata
    rw [hA.data hdata, List.map_map, hfrozen.assess_eq]
    rfl
  · intro e he
    rw [← hfrozen.params_eq]
    apply hA.reports h
    intro hnil
    rw [helems, List.map_eq_nil_iff, List.map_eq_nil_iff] at hnil
    rw [hnil] at he
    cases he

/-- Labeling the data set of a function gives its records their outcome. -/
theorem labelDataSet_spec [LawfulCollection S] (hA : A.AssessesBy assess params)
    {model : P} {collection : S} {regenStats : Option AnomMetrics} {done : List ℕ}
    {s t : ADOutlier P × ADDataInterface (ProvDBpruneInterface S J)} {d : ℕ × List (ℕ × ℚ)} {k : ℕ}
    (hfrozen : Frozen assess params model s.1)
    (hpruned : Pruned (assess model) (params model) collection regenStats done s.2.source)
    (hreads : Reads collection s.2.source) (hd : s.2.source.data[k]? = some d) (hdone : d.1 ∉ done)
    (h : labelDataSet A s (elemsOf d, k) = .ok t) :
    Frozen assess params model t.1 ∧
      Pruned (assess model) (params model) collection regenStats (done ++ [d.1]) t.2.source ∧
      t.2.source.data = s.2.source.data ∧ t.2.source.pruneType = s.2.source.pruneType := by
  obtain ⟨modelIdx, hmodel, h⟩ := bind_eq_ok h
  obtain ⟨labeled, hlabeled, h⟩ := bind_eq_ok h
  obtain ⟨data, hrecord, h⟩ := bind_eq_ok h
  obtain ⟨source, hsource, hdata⟩ := bind_eq_ok hrecord
  cases h
  cases hdata
  have hidx : modelIdx = d.1 := by
    change getDataSetModelIndex s.2.source k = _ at hmodel
    unfold getDataSetModelIndex at hmodel
    rw [hd] at hmodel
    cases hmodel
    rfl
  rw [hidx] at hlabeled
  have hassess := hA.assess_eq hlabeled
  have hparams := hA.params_eq hlabeled
  obtain ⟨hlabels, had⟩ :=
    labeled_elemsOf hA hfrozen (hreads.values d (List.mem_of_getElem? hd)) hlabeled
  rw [hlabels] at hsource
  have hbefore : Pruned (assess model) (params model) collection regenStats done
      { s.2.source with ad := A.getAlgorithmParams labeled.param } :=
    ⟨hpruned.fetch_eq, hpruned.stats, hpruned.labeled_eq⟩
  obtain ⟨hafter, hframe⟩ := hbefore.record _ _ hdone had hsource
  have hdata : source.data = s.2.source.data := by rw [hframe]
  have htype : source.pruneType = s.2.source.pruneType := by rw [hframe]
  exact ⟨⟨hfrozen.freq, hassess.trans hfrozen.assess_eq, hparams.trans hfrozen.params_eq⟩,
    hafter, hdata, htype⟩

/-- Labeling the data sets from some position on. -/
private theorem labelDataSets_spec [LawfulCollection S] (hA : A.AssessesBy assess params)
    {model : P} {collection : S} {regenStats : Option AnomMetrics}
    (ds : List (ℕ × List (ℕ × ℚ))) {k : ℕ}
    {s t : ADOutlier P × ADDataInterface (ProvDBpruneInterface S J)}
    (hfrozen : Frozen assess params model s.1)
    (hpruned : Pruned (assess model) (params model) collection regenStats
      ((s.2.source.data.take k).map Prod.fst) s.2.source)
    (hreads : Reads collection s.2.source) (hds : s.2.source.data.drop k = ds)
    (h : ((ds.map elemsOf).zipIdx k).foldlM (labelDataSet A) s = .ok t) :
    Frozen assess params model t.1 ∧
      Pruned (assess model) (params model) collection regenStats
        (t.2.source.data.map Prod.fst) t.2.source ∧
      t.2.source.data = s.2.source.data ∧ t.2.source.pruneType = s.2.source.pruneType := by
  induction ds generalizing k s with
  | nil =>
    cases h
    rw [List.take_of_length_le (List.drop_eq_nil_iff.mp hds)] at hpruned
    exact ⟨hfrozen, hpruned, rfl, rfl⟩
  | cons d rest ih =>
    rw [List.map_cons, List.zipIdx_cons, List.foldlM_cons] at h
    obtain ⟨next, hfirst, hrest⟩ := bind_eq_ok h
    obtain ⟨hd, htake, hdone⟩ := hreads.next hds
    obtain ⟨hfrozen', hpruned', hdata, htype⟩ :=
      labelDataSet_spec hA hfrozen hpruned hreads hd hdone hfirst
    rw [htake, ← hdata] at hpruned'
    have hreads' := hreads.of_data hdata
    have hds' : next.2.source.data.drop (k + 1) = rest := by
      rw [hdata, ← List.drop_drop, hds]
      rfl
    obtain ⟨hfrozen'', hpruned'', hdata', htype'⟩ := ih hfrozen' hpruned' hreads' hds' hrest
    exact ⟨hfrozen'', hpruned'', hdata'.trans hdata, htype'.trans htype⟩

/-- Running the fixed model over a collection gives every record its outcome. -/
theorem runOver_spec [LawfulCollection S] (hA : A.AssessesBy assess params)
    (hhash : ∀ l, (hashOrder l).Perm l) {model : P} {outlier outlier' : ADOutlier P}
    (hfrozen : Frozen assess params model outlier) {collection : S} {pruneType : EventType}
    {regenStats : Option AnomMetrics} {po : ProvDBpruneInterface S J}
    (h : runOver A hashOrder outlier collection pruneType regenStats = .ok (outlier', po)) :
    Frozen assess params model outlier' ∧
      Pruned (assess model) (params model) collection regenStats (po.data.map Prod.fst) po ∧
      Reads collection po ∧ po.pruneType = pruneType := by
  obtain ⟨r, hrun, h⟩ := bind_eq_ok h
  cases h
  rw [run_eq hfrozen.freq] at hrun
  obtain ⟨localParam, -, hrun⟩ := bind_eq_ok hrun
  have hreads := reads_new hhash (A.getAlgorithmParams outlier.param) collection pruneType
    regenStats
  have hstart : Frozen assess params model { outlier with
      localParam := localParam, syncCallCount := outlier.syncCallCount + 1 } :=
    ⟨hfrozen.freq, hfrozen.assess_eq, hfrozen.params_eq⟩
  have hnew := pruned_new (assess model) (params model) hashOrder
    (A.getAlgorithmParams outlier.param) collection pruneType regenStats
  obtain ⟨hfrozen', hpruned, hsource, htype⟩ :=
    labelDataSets_spec hA _ (k := 0) hstart hnew hreads rfl hrun
  exact ⟨hfrozen', hpruned, hreads.of_data hsource, htype⟩

end ProvDBprune

end Chimbuko
