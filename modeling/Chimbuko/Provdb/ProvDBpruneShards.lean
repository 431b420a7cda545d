import Chimbuko.Core.ADOutlierHBOSLabels
import Chimbuko.Provdb.ProvDBpruneRuns

/-!
# Pruning all shards

Pruning a shard gives every record its outcome, and adds the anomalies that remain to the
statistics. After all shards the statistics of a function include exactly the anomalies about it
that remain in any shard, whichever order the shards were pruned in. A record that remains has the
same outcome when everything is pruned again, and the statistics are the same again.
-/

namespace Chimbuko

open Grouping RecordStore Collection LawfulCollection TransitionSystem ProvDBpruneInterface

namespace ProvDBpruneInterface

variable {S J O : Type} [Collection S ℕ (ProvRecord J O)] {assess : ℕ → ℚ → Assessment}
  {params : ℕ → J}

/-- What remains of the records of a collection. -/
def remaining (assess : ℕ → ℚ → Assessment) (params : ℕ → J) (pruneType : EventType)
    (collection : S) : List (ProvRecord J O) :=
  (all collection).filterMap fun e => remains assess params pruneType e.2

/-- What remains of the records of a function is what remains of all that is about it. -/
theorem group_remaining (pruneType : EventType) (collection : S) (fid : ℕ) :
    group ProvRecord.fid (remaining assess params pruneType collection) fid =
      kept assess params pruneType collection fid := by
  unfold remaining kept entriesOf group
  rw [List.filter_filterMap, List.filterMap_filter]
  apply List.filterMap_congr
  intro e _
  cases hremains : remains assess params pruneType e.2 with
  | none => simp
  | some record =>
    have hfid := (remains_eq_some assess params hremains).1
    simp only [Option.filter_some, hfid]

/-- Function by function, one finds what remains. -/
theorem group_flatMap_kept [LawfulCollection S] {pruneType : EventType} {collection : S}
    {fids : List ℕ} (hnodup : fids.Nodup)
    (hmem : ∀ id record, fetch collection id = some record → record.fid ∈ fids) (fid : ℕ) :
    group ProvRecord.fid (fids.flatMap (kept assess params pruneType collection)) fid =
      group ProvRecord.fid (remaining assess params pruneType collection) fid := by
  have hkept : ∀ k ∈ fids, ∀ record ∈ kept assess params pruneType collection k,
      record.fid = k := by
    intro k _ record hrecord
    rw [← group_remaining] at hrecord
    exact ((mem_group _).mp hrecord).2
  rw [group_flatMap ProvRecord.fid hnodup _ hkept, group_remaining]
  split
  · rfl
  · rename_i hfid
    symm
    unfold kept
    rw [List.filterMap_eq_nil_iff]
    intro e he
    obtain ⟨hfetch, hkey⟩ := mem_entriesOf.mp he
    exact absurd (hkey ▸ hmem e.1 e.2 hfetch) hfid

/-- The statistics of each function include exactly the given records about it. -/
def Collects (stats : AnomMetrics) (records : List (ProvRecord J O)) : Prop :=
  ∀ fid, ((stats fid).getD ProvDBpruneGlobalStats.new).Includes
    (group ProvRecord.fid records fid : Multiset (ProvRecord J O))

/-- New statistics include no records. -/
theorem collects_nil : Collects (fun _ => none) ([] : List (ProvRecord J O)) :=
  fun _ => ProvDBpruneGlobalStats.includes_new

/-- Only the records of each function matter. -/
theorem Collects.congr {stats : AnomMetrics} {records records' : List (ProvRecord J O)}
    (h : Collects stats records)
    (hgroup : ∀ fid, (group ProvRecord.fid records fid).Perm (group ProvRecord.fid records' fid)) :
    Collects stats records' := by
  intro fid
  rw [← Multiset.coe_eq_coe.mpr (hgroup fid)]
  exact h fid

/-- A record that is pushed is included. -/
theorem Collects.push {stats : AnomMetrics} {records : List (ProvRecord J O)}
    (h : Collects stats records) (record : ProvRecord J O) :
    Collects (pushRecord record stats) (records ++ [record]) := by
  intro fid
  unfold pushRecord
  rw [group_append]
  by_cases hfid : fid = record.fid
  · have hone : group ProvRecord.fid [record] record.fid = [record] :=
      group_eq_self ProvRecord.fid (by simp)
    rw [hfid, Function.update_self, Option.getD_some, hone]
    rw [Multiset.coe_eq_coe.mpr (List.perm_append_singleton record _), ← Multiset.cons_coe]
    exact (h record.fid).push record
  · have hnone : group ProvRecord.fid [record] fid = [] :=
      group_eq_nil ProvRecord.fid (by simpa using Ne.symm hfid)
    rw [Function.update_of_ne hfid, hnone, List.append_nil]
    exact h fid

/-- Records that are pushed are included. -/
theorem Collects.pushRecords {stats : AnomMetrics} {records : List (ProvRecord J O)}
    (h : Collects stats records) (new : List (ProvRecord J O)) :
    Collects (pushRecords stats new) (records ++ new) := by
  induction new generalizing stats records with
  | nil =>
    rw [List.append_nil]
    exact h
  | cons record rest ih =>
    have hrest := ih (h.push record)
    rwa [List.append_assoc] at hrest

end ProvDBpruneInterface

namespace ProvDBprune

section AnyAlgorithm

variable {P J O G S T : Type} [Collection S ℕ (ProvRecord J O)]
  [Collection T ℕ (FuncStatsRecord G)] {A : ReportingAlgorithm P J}
  {assess : P → ℕ → ℚ → Assessment} {params : P → ℕ → J} {hashOrder : List ℕ → List ℕ}

/-- The records of a shard after pruning are what remains of those before. -/
structure Outcome (assess : ℕ → ℚ → Assessment) (params : ℕ → J) (before after : Shard S) :
    Prop where
  anomalies : ∀ id, fetch after.anomalies id =
    (fetch before.anomalies id).bind (remains assess params .outlier)
  normalexecs : ∀ id, fetch after.normalexecs id =
    (fetch before.normalexecs id).bind (remains assess params .normal)

/-- The anomalies that remain in some shards. -/
def anomaliesLeft (assess : ℕ → ℚ → Assessment) (params : ℕ → J) (shards : ℕ → Shard S)
    (order : List ℕ) : List (ProvRecord J O) :=
  order.flatMap fun i => remaining assess params .outlier (shards i).anomalies

/-- Pruning a shard. -/
theorem pruneImplementation_spec [LawfulCollection S] (hA : A.AssessesBy assess params)
    (hhash : ∀ l, (hashOrder l).Perm l) {model : P} {self self' : ProvDBprune P}
    {db db' : Shard S} {records : List (ProvRecord J O)}
    (hfrozen : Frozen assess params model self.outlier)
    (hcollects : Collects self.anomMetrics records)
    (h : pruneImplementation A hashOrder self db = .ok (self', db')) :
    Frozen assess params model self'.outlier ∧
      Collects self'.anomMetrics
        (records ++ remaining (assess model) (params model) .outlier db.anomalies) ∧
      Outcome (assess model) (params model) db db' := by
  obtain ⟨⟨outlier, po⟩, hanomalies, h⟩ := bind_eq_ok h
  obtain ⟨⟨outlier', pn⟩, hnormal, h⟩ := bind_eq_ok h
  cases h
  obtain ⟨hfrozen', hpruned, hreads, htype⟩ := runOver_spec hA hhash hfrozen hanomalies
  obtain ⟨hfrozen'', hpruned', hreads', htype'⟩ := runOver_spec hA hhash hfrozen' hnormal
  have hstats := hpruned.stats
  rw [htype] at hstats
  refine ⟨hfrozen'', ?_, ⟨fun id => ?_, fun id => ?_⟩⟩
  · rw [hstats]
    apply (hcollects.pushRecords _).congr
    intro fid
    rw [group_append, group_append, group_flatMap_kept hreads.nodup hreads.mem]
  · rw [hpruned.fetch_of_reads _ _ hreads, htype]
  · rw [hpruned'.fetch_of_reads _ _ hreads', htype']

/-- Pruning shards one after another. -/
theorem pruneShards_spec [LawfulCollection S] (hA : A.AssessesBy assess params)
    (hhash : ∀ l, (hashOrder l).Perm l) {model : P} {order : List ℕ} (hnodup : order.Nodup)
    {s t : ProvDBprune P × (ℕ → Shard S)} {records : List (ProvRecord J O)}
    (hfrozen : Frozen assess params model s.1.outlier)
    (hcollects : Collects s.1.anomMetrics records)
    (h : order.foldlM (pruneShard A hashOrder) s = .ok t) :
    Collects t.1.anomMetrics
        (records ++ anomaliesLeft (assess model) (params model) s.2 order) ∧
      (∀ i ∈ order, Outcome (assess model) (params model) (s.2 i) (t.2 i)) ∧
      ∀ i, i ∉ order → t.2 i = s.2 i := by
  induction order generalizing s records with
  | nil =>
    cases h
    refine ⟨?_, fun i hi => absurd hi List.not_mem_nil, fun i _ => rfl⟩
    unfold anomaliesLeft
    rw [List.flatMap_nil, List.append_nil]
    exact hcollects
  | cons i rest ih =>
    rw [List.foldlM_cons] at h
    obtain ⟨next, hfirst, hrest⟩ := bind_eq_ok h
    obtain ⟨⟨self, db⟩, hprune, hfirst⟩ := bind_eq_ok hfirst
    cases hfirst
    rw [List.nodup_cons] at hnodup
    obtain ⟨hfrozen', hcollects', houtcome⟩ :=
      pruneImplementation_spec hA hhash hfrozen hcollects hprune
    obtain ⟨hcollects'', houtcomes, hothers⟩ := ih hnodup.2 hfrozen' hcollects' hrest
    have hkept : ∀ j ∈ rest, Function.update s.2 i db j = s.2 j := by
      intro j hj
      have hne : j ≠ i := by
        rintro rfl
        exact hnodup.1 hj
      exact Function.update_of_ne hne _ _
    refine ⟨?_, fun j hj => ?_, fun j hj => ?_⟩
    · have hleft : anomaliesLeft (assess model) (params model) (Function.update s.2 i db) rest =
          anomaliesLeft (assess model) (params model) s.2 rest := by
        apply List.flatMap_congr
        intro j hj
        rw [hkept j hj]
      change Collects _ (_ ++ anomaliesLeft _ _ (Function.update s.2 i db) rest) at hcollects''
      rwa [hleft, List.append_assoc] at hcollects''
    · rcases List.mem_cons.mp hj with rfl | hmem
      · rw [hothers j hnodup.1]
        change Outcome _ _ _ (Function.update s.2 j db j)
        rw [Function.update_self]
        exact houtcome
      · have hj' := houtcomes j hmem
        change Outcome _ _ (Function.update s.2 i db j) _ at hj'
        rwa [hkept j hmem] at hj'
    · rw [List.mem_cons, not_or] at hj
      rw [hothers j hj.2]
      exact Function.update_of_ne hj.1 _ _

/-- The record of a function with the statistics that are stored for it. -/
def finalized (stats : AnomMetrics) (record : FuncStatsRecord G) : FuncStatsRecord G :=
  let stats := (stats record.fid).getD ProvDBpruneGlobalStats.new
  { record with anomalyMetrics := some stats.summarize }

/-- Moving out the statistics of a function leaves those of the others. -/
private theorem finalizeRecords_spec {entries : List (ℕ × FuncStatsRecord G)}
    (hfids : (entries.map fun e => e.2.fid).Nodup) (stats : AnomMetrics)
    (updates : List (ℕ × FuncStatsRecord G)) :
    (entries.foldl finalizeRecord (stats, updates)).2 =
      updates ++ entries.map fun e => (e.1, finalized stats e.2) := by
  induction entries generalizing stats updates with
  | nil => exact (List.append_nil _).symm
  | cons e rest ih =>
    rw [List.map_cons, List.nodup_cons] at hfids
    rw [List.foldl_cons]
    unfold finalizeRecord at ih ⊢
    rw [ih hfids.2, List.map_cons, List.append_assoc, List.singleton_append]
    have hrest : (rest.map fun e' => (e'.1, finalized (Function.update stats e.2.fid
        ((stats e.2.fid).map ProvDBpruneGlobalStats.movedFrom)) e'.2)) =
      rest.map fun e' => (e'.1, finalized stats e'.2) := by
      apply List.map_congr_left
      intro e' he'
      have hne : e'.2.fid ≠ e.2.fid := by
        intro heq
        exact hfids.1 (heq ▸ List.mem_map_of_mem he')
      unfold finalized
      rw [Function.update_of_ne hne]
    rw [hrest]
    rfl

/-- The global records of functions get what is stored of their statistics. -/
theorem fetch_finalize [LawfulCollection T] (self : ProvDBprune P) {globalDb : T}
    (hfids : ((all globalDb).map fun e => e.2.fid).Nodup) (id : ℕ) :
    fetch (self.finalize globalDb).2 id =
      (fetch globalDb id).map (finalized self.anomMetrics) := by
  unfold finalize
  dsimp only
  rw [finalizeRecords_spec hfids, List.nil_append]
  have hkeys : ((all globalDb).map fun e => (e.1, finalized self.anomMetrics e.2)).map Prod.fst =
      (all globalDb).map Prod.fst := by
    rw [List.map_map]
    rfl
  have hnodup := nodup_all globalDb
  rw [← hkeys] at hnodup
  have hstored : ∀ u ∈ (all globalDb).map fun e => (e.1, finalized self.anomMetrics e.2),
      fetch globalDb u.1 ≠ none := by
    intro u hu
    obtain ⟨e, he, rfl⟩ := List.mem_map.mp hu
    rw [mem_all.mp he]
    exact Option.some_ne_none _
  cases hfetch : fetch globalDb id with
  | none =>
    rw [fetch_updateMulti_of_notMem hnodup hstored, hfetch]
    · rfl
    · rw [hkeys]
      intro hmem
      obtain ⟨e, he, rfl⟩ := List.mem_map.mp hmem
      rw [mem_all.mp he] at hfetch
      cases hfetch
  | some record =>
    exact fetch_updateMulti_of_mem hnodup hstored
      (List.mem_map_of_mem (f := fun e => (e.1, finalized self.anomMetrics e.2))
        (mem_all.mpr hfetch))

/-- The record of a function with the statistics of the given anomalies about it. -/
def withSummary (records : List (ProvRecord J O)) (record : FuncStatsRecord G) :
    FuncStatsRecord G :=
  let summary := ProvDBpruneGlobalStats.summaryOf (group ProvRecord.fid records record.fid)
  { record with anomalyMetrics := some summary }

/-- What is stored for a function is the summary of its records. -/
theorem finalized_eq {stats : AnomMetrics} {records : List (ProvRecord J O)}
    (h : Collects stats records) :
    (finalized stats : FuncStatsRecord G → FuncStatsRecord G) = withSummary records := by
  funext record
  have hrecords := ProvDBpruneGlobalStats.includes_foldl
    (group ProvRecord.fid records record.fid) ProvDBpruneGlobalStats.includes_new
  rw [zero_add] at hrecords
  have hsummary := (h record.fid).summarize_eq hrecords
  unfold finalized withSummary ProvDBpruneGlobalStats.summaryOf
  simp only [hsummary]

/-- What pruning all shards leaves. -/
structure Filtered (assess : ℕ → ℚ → Assessment) (params : ℕ → J) (order : List ℕ)
    (before after : (ℕ → Shard S) × T) : Prop where
  outcome : ∀ i ∈ order, Outcome assess params (before.1 i) (after.1 i)
  others : ∀ i, i ∉ order → after.1 i = before.1 i
  global : ∀ id, fetch after.2 id =
    (fetch before.2 id).map (withSummary (anomaliesLeft assess params before.1 order))

/-- Pruning is a filter. -/
theorem filtered_pruneAll [LawfulCollection S] [LawfulCollection T]
    (hA : A.AssessesBy assess params) (hhash : ∀ l, (hashOrder l).Perm l) {model : P}
    (hassess : assess (A.assign (A.clear A.new) model) = assess model)
    (hparams : params (A.assign (A.clear A.new) model) = params model)
    {shards : ℕ → Shard S} {order : List ℕ} (hnodup : order.Nodup) {globalDb : T}
    (hfids : ((all globalDb).map fun e => e.2.fid).Nodup) {after : (ℕ → Shard S) × T}
    (h : pruneAll A hashOrder model shards order globalDb = .ok after) :
    Filtered (assess model) (params model) order (shards, globalDb) after := by
  obtain ⟨⟨self, shards'⟩, hprune, h⟩ := bind_eq_ok h
  cases h
  have hfrozen : Frozen assess params model (new A model).outlier := ⟨rfl, hassess, hparams⟩
  obtain ⟨hcollects, houtcome, hothers⟩ :=
    pruneShards_spec hA hhash hnodup hfrozen collects_nil hprune
  refine ⟨houtcome, hothers, fun id => ?_⟩
  have hfinalized := finalized_eq (G := G) hcollects
  rw [List.nil_append] at hfinalized
  change fetch (self.finalize globalDb).2 id = _
  rw [fetch_finalize self hfids, hfinalized]

/-- The databases hold the same records. -/
structure Agree (x y : (ℕ → Shard S) × T) : Prop where
  anomalies : ∀ i id, fetch (x.1 i).anomalies id = fetch (y.1 i).anomalies id
  normalexecs : ∀ i id, fetch (x.1 i).normalexecs id = fetch (y.1 i).normalexecs id
  global : ∀ id, fetch x.2 id = fetch y.2 id

/-- The order of the anomalies does not matter for what is stored of them. -/
theorem withSummary_perm {records records' : List (ProvRecord J O)} (h : records.Perm records') :
    (withSummary records : FuncStatsRecord G → FuncStatsRecord G) = withSummary records' := by
  funext record
  have hsummary := ProvDBpruneGlobalStats.summaryOf_perm
    (h.filter fun r => r.fid = record.fid)
  unfold withSummary group
  simp only [hsummary]

/-- What the databases hold does not tell the order. -/
theorem Filtered.of_perm {assess : ℕ → ℚ → Assessment} {params : ℕ → J}
    {order order' : List ℕ} {before after : (ℕ → Shard S) × T}
    (h : Filtered assess params order before after) (hperm : order.Perm order') :
    Filtered assess params order' before after := by
  have hleft : (anomaliesLeft assess params before.1 order).Perm
      (anomaliesLeft assess params before.1 order') := hperm.flatMap_right _
  constructor
  · intro i hi
    exact h.outcome i (hperm.mem_iff.mpr hi)
  · intro i hi
    exact h.others i fun hi' => hi (hperm.mem_iff.mp hi')
  · intro id
    rw [h.global, withSummary_perm hleft]

/-- What is filtered in the same order holds the same records. -/
theorem Filtered.agree {assess : ℕ → ℚ → Assessment} {params : ℕ → J} {order : List ℕ}
    {before after after' : (ℕ → Shard S) × T}
    (h : Filtered assess params order before after)
    (h' : Filtered assess params order before after') : Agree after after' := by
  constructor
  · intro i id
    by_cases hi : i ∈ order
    · rw [(h.outcome i hi).anomalies, (h'.outcome i hi).anomalies]
    · rw [h.others i hi, h'.others i hi]
  · intro i id
    by_cases hi : i ∈ order
    · rw [(h.outcome i hi).normalexecs, (h'.outcome i hi).normalexecs]
    · rw [h.others i hi, h'.others i hi]
  · intro id
    rw [h.global, h'.global]

/-- What remains of what remains. -/
private theorem bind_remains (assess : ℕ → ℚ → Assessment) (params : ℕ → J) (pruneType : EventType)
    (record : Option (ProvRecord J O)) :
    (record.bind (remains assess params pruneType)).bind (remains assess params pruneType) =
      record.bind (remains assess params pruneType) := by
  rw [Option.bind_assoc]
  apply Option.bind_congr
  intro r _
  cases hremains : remains assess params pruneType r with
  | none => rfl
  | some r' => exact remains_remains assess params hremains

/-- Collections hold the same records if they list the same ones. -/
theorem all_perm {V : Type} [Collection T ℕ V] [LawfulCollection T] {collection : T}
    {entries : List (ℕ × V)} (hnodup : (entries.map Prod.fst).Nodup)
    (h : ∀ id record, fetch collection id = some record ↔ (id, record) ∈ entries) :
    (all collection).Perm entries := by
  apply (List.perm_ext_iff_of_nodup (nodup_all collection).of_map hnodup.of_map).mpr
  intro e
  exact mem_all.trans (h e.1 e.2)

/-- The records that remain are those that remain after pruning. -/
theorem remaining_perm [LawfulCollection S] {assess : ℕ → ℚ → Assessment} {params : ℕ → J}
    {pruneType : EventType} {before after : S}
    (h : ∀ id, fetch after id = (fetch before id).bind (remains assess params pruneType)) :
    (remaining assess params pruneType after).Perm
      (remaining assess params pruneType before) := by
  let outcomes := (all before).filterMap fun e =>
    (remains assess params pruneType e.2).map (Prod.mk e.1)
  have hnodup : (outcomes.map Prod.fst).Nodup := by
    unfold List.Nodup
    rw [List.pairwise_map]
    apply (List.pairwise_map.mp (nodup_all before)).filterMap
    intro e e' hne x hx x' hx'
    obtain ⟨r, -, rfl⟩ := Option.map_eq_some_iff.mp hx
    obtain ⟨r', -, rfl⟩ := Option.map_eq_some_iff.mp hx'
    exact hne
  have hperm : (all after).Perm outcomes := by
    apply all_perm hnodup
    intro id record
    rw [h, Option.bind_eq_some_iff, List.mem_filterMap]
    constructor
    · rintro ⟨r, hr, hremains⟩
      refine ⟨(id, r), mem_all.mpr hr, ?_⟩
      rw [hremains]
      rfl
    · rintro ⟨e, he, hmap⟩
      obtain ⟨r', hremains, heq⟩ := Option.map_eq_some_iff.mp hmap
      cases heq
      exact ⟨e.2, mem_all.mp he, hremains⟩
  unfold remaining
  apply (hperm.filterMap _).trans
  apply List.Perm.of_eq
  rw [List.filterMap_filterMap]
  apply List.filterMap_congr
  intro e _
  rw [Option.bind_map]
  exact bind_remains assess params pruneType (some e.2)

/-- Filtering again changes nothing. -/
theorem Filtered.agree_again [LawfulCollection S] {assess : ℕ → ℚ → Assessment} {params : ℕ → J}
    {order : List ℕ} {before after after' : (ℕ → Shard S) × T}
    (h : Filtered assess params order before after)
    (h' : Filtered assess params order after after') : Agree after' after := by
  constructor
  · intro i id
    by_cases hi : i ∈ order
    · rw [(h'.outcome i hi).anomalies, (h.outcome i hi).anomalies, bind_remains]
    · rw [h'.others i hi]
  · intro i id
    by_cases hi : i ∈ order
    · rw [(h'.outcome i hi).normalexecs, (h.outcome i hi).normalexecs, bind_remains]
    · rw [h'.others i hi]
  · intro id
    have hleft : (anomaliesLeft assess params after.1 order).Perm
        (anomaliesLeft assess params before.1 order) :=
      List.Perm.flatMap_left order fun i hi => remaining_perm (h.outcome i hi).anomalies
    rw [h'.global, h.global, Option.map_map, withSummary_perm hleft]
    rfl

/-- The global records are still about distinct functions. -/
theorem Filtered.nodup_fids [LawfulCollection T] {assess : ℕ → ℚ → Assessment} {params : ℕ → J}
    {order : List ℕ} {before after : (ℕ → Shard S) × T}
    (h : Filtered assess params order before after)
    (hfids : ((all before.2).map fun e => e.2.fid).Nodup) :
    ((all after.2).map fun e => e.2.fid).Nodup := by
  let summarized := (all before.2).map fun e =>
    (e.1, withSummary (anomaliesLeft assess params before.1 order) e.2)
  have hkeys : summarized.map Prod.fst = (all before.2).map Prod.fst := by
    rw [List.map_map]
    rfl
  have hperm : (all after.2).Perm summarized := by
    apply all_perm (hkeys ▸ nodup_all before.2)
    intro id record
    rw [h.global, Option.map_eq_some_iff, List.mem_map]
    constructor
    · rintro ⟨r, hr, rfl⟩
      exact ⟨(id, r), mem_all.mpr hr, rfl⟩
    · rintro ⟨e, he, heq⟩
      cases heq
      exact ⟨e.2, mem_all.mp he, rfl⟩
  rw [(hperm.map _).nodup_iff, List.map_map]
  exact hfids

end AnyAlgorithm

section TwoShards

/-- A record of an execution. -/
private def execOf (fid : ℕ) (runtime : ℤ) : ProvRecord RunStats Unit where
  fid := fid
  runtimeTotal := runtime
  runtimeExclusive := runtime
  rid := 0
  ioStep := 3
  entry := 100
  exit := 100 + runtime
  outlierScore := 0
  outlierSeverity := 1
  algoParams := none
  others := ()

/-- A collection of executions of one function. -/
private def execsOf (runtimes : List ℤ) : Store ℕ (ProvRecord RunStats Unit) :=
  runtimes.zipIdx.foldl (fun s x => s.insert x.2 (execOf 7 x.1)) ∅

/-- Two shards with executions of one function. -/
private def twoShards (i : ℕ) : Shard (Store ℕ (ProvRecord RunStats Unit)) :=
  if i = 0 then { anomalies := execsOf [9, 2], normalexecs := execsOf [2, 5] }
  else { anomalies := execsOf [3], normalexecs := ∅ }

/-- A model whose values are all the same. -/
private def sameValues : SstdParam :=
  ⟨(∅ : AList fun _ : ℕ => RunStats).insert 7 (((RunStats.new true).push 2).push 2)⟩

/-- A global database with one function. -/
private def oneFunction : Store ℕ (FuncStatsRecord Unit) :=
  (∅ : AList fun _ : ℕ => FuncStatsRecord Unit).insert 0
    { fid := 7, anomalyMetrics := none, others := () }

/-- The shards and the global database, held in memory. -/
private abbrev StoredShards : Type :=
  (ℕ → Shard (Store ℕ (ProvRecord RunStats Unit))) × Store ℕ (FuncStatsRecord Unit)

/-- Prune the two shards by distance from the mean. -/
private def pruneTwo (hashOrder : List ℕ → List ℕ) (order : List ℕ) (databases : StoredShards) :
    Except String StoredShards :=
  letI := LibM.interpolated
  pruneAll (J := RunStats) (AlgoParams.sstd 3).setAlgorithm hashOrder sameValues databases.1 order
    databases.2

end TwoShards

section Algorithms

variable [LibM] {algo : AlgoParams} {O G S T : Type} [Collection S ℕ (ProvRecord algo.Json O)]
  [Collection T ℕ (FuncStatsRecord G)] {hashOrder hashOrder' : List ℕ → List ℕ}

/-- Installing a model takes over its entries. -/
theorem hbosFparamAt_install (model : HbosParam) :
    (HbosParam.assign (HbosParam.clear HbosParam.new) model).fparamAt = model.fparamAt := by
  funext idx
  change ((model.hbosstats ∪ ∅).lookup idx).getD HbosFuncParam.new = _
  rw [AList.union_empty]
  rfl

/-- Installing a model takes over its entries. -/
theorem copodFparamAt_install (model : CopodParam) :
    (CopodParam.assign (CopodParam.clear CopodParam.new) model).fparamAt = model.fparamAt := by
  funext idx
  change ((model.copodstats ∪ ∅).lookup idx).getD CopodFuncParam.new = _
  rw [AList.union_empty]
  rfl

/-- An installed model assesses values as before. -/
theorem install_eq (model : algo.Param) :
    algo.assess (algo.setAlgorithm.assign (algo.setAlgorithm.clear algo.setAlgorithm.new) model) =
        algo.assess model ∧
      algo.entryAfter
          (algo.setAlgorithm.assign (algo.setAlgorithm.clear algo.setAlgorithm.new) model) =
        algo.entryAfter model := by
  cases algo with
  | sstd sigma =>
    have hstats : SstdParam.assign (SstdParam.clear SstdParam.new) model = model :=
      congrArg SstdParam.mk AList.union_empty
    exact ⟨congrArg _ hstats, congrArg _ hstats⟩
  | hbos thres globThres maxBins =>
    have hstats := hbosFparamAt_install model
    let algorithm := ADOutlierHBOS.new thres globThres maxBins
    exact ⟨congrArg (fun stats idx => algorithm.assessWith (stats idx)) hstats,
      congrArg (fun stats idx => algorithm.keepUsed (stats idx)) hstats⟩
  | copod thres =>
    have hstats := copodFparamAt_install model
    let algorithm := ADOutlierCOPOD.new thres true
    exact ⟨congrArg (fun stats idx => algorithm.assessWith (stats idx)) hstats,
      congrArg (fun stats idx => algorithm.keepUsed (stats idx)) hstats⟩

/-- Pruning with a fixed model is a filter, for every algorithm and every order of the shards. -/
theorem pruneAll_filters [LawfulCollection S] [LawfulCollection T]
    (hhash : ∀ l, (hashOrder l).Perm l) {model : algo.Param} {shards : ℕ → Shard S}
    {order : List ℕ} (hnodup : order.Nodup) {globalDb : T}
    (hfids : ((all globalDb).map fun e => e.2.fid).Nodup) {after : (ℕ → Shard S) × T}
    (h : pruneAll algo.setAlgorithm hashOrder model shards order globalDb = .ok after) :
    Filtered (algo.assess model) (algo.entryAfter model) order (shards, globalDb) after :=
  filtered_pruneAll algo.assessesBy hhash (install_eq model).1 (install_eq model).2 hnodup hfids h

omit [LibM] in
/-- The two shards are filtered. -/
theorem pruneAll_filters_twoShards : letI := LibM.interpolated; ∃ after,
    pruneTwo id [1, 0] (twoShards, oneFunction) = .ok after ∧
      Filtered ((AlgoParams.sstd 3).assess sameValues) ((AlgoParams.sstd 3).entryAfter sameValues)
        [1, 0] (twoShards, oneFunction) after := by
  let _ := LibM.interpolated
  obtain ⟨after, h⟩ :=
    exists_ok (x := pruneTwo id [1, 0] (twoShards, oneFunction)) (by decide +kernel)
  exact ⟨after, h, pruneAll_filters (fun _ => .refl _) (by decide)
    (by decide) h⟩

end Algorithms

end ProvDBprune

end Chimbuko
