import Chimbuko.Core.ADOutlierReturns
import Chimbuko.Provdb.ProvDBpruneShards

/-!
# When pruning returns

Pruning ends with an exception, half way through the shards, if a record has no score by the
model. It also merges the values that it sees into the local model, which it never reads, and ends
if this fails. Otherwise it returns.

So pruning is a filter that depends on no order, and that changes nothing when it is repeated,
exactly if all records have scores and their values can be merged, those of all records as well as
those of the records that stay.
-/

namespace Chimbuko

open Filing Grouping RecordStore Collection LawfulCollection TransitionSystem ProvDBpruneInterface

namespace ProvDBpruneInterface

variable {S J O : Type} [Collection S ℕ (ProvRecord J O)]

/-- The values of a function in a collection. -/
def runtimesOf (collection : S) (fid : ℕ) : List ℚ :=
  (entriesOf collection fid).map fun e => (e.2.runtimeExclusive : ℚ)

/-- A function that was read has a record. -/
private theorem exists_of_mem_keys {collection : S} {fid : ℕ}
    (h : fid ∈ (readCollection collection).keys) : ∃ e ∈ all collection, e.2.fid = fid := by
  have hread : ∀ (entries : List (ℕ × ProvRecord J O)) (m : AList fun _ : ℕ => List (ℕ × ℚ)),
      fid ∈ entries.foldl (fun m e => modifyAt e.2.fid
        (fun records => records ++ [(e.1, (e.2.runtimeExclusive : ℚ))]) m) m →
      fid ∈ m ∨ ∃ e ∈ entries, e.2.fid = fid := by
    intro entries
    induction entries with
    | nil => exact fun m hm => Or.inl hm
    | cons e rest ih =>
      intro m hm
      rw [List.foldl_cons] at hm
      rcases ih _ hm with hmodified | ⟨e', he', hfid⟩
      · rcases (AList.mem_insert _).mp hmodified with hkey | hm
        · exact Or.inr ⟨e, List.mem_cons_self, hkey.symm⟩
        · exact Or.inl hm
      · exact Or.inr ⟨e', List.mem_cons_of_mem _ he', hfid⟩
  rcases hread _ ∅ h with hempty | hentry
  · exact absurd hempty (AList.notMem_empty fid)
  · exact hentry

/-- A function has values if it has records. -/
theorem mem_keys_iff [LawfulCollection S] {collection : S} {fid : ℕ} :
    fid ∈ (readCollection collection).keys ↔ runtimesOf collection fid ≠ [] := by
  have hnil : runtimesOf collection fid ≠ [] ↔ ∃ e, e ∈ entriesOf collection fid := by
    unfold runtimesOf
    rw [ne_eq, List.map_eq_nil_iff]
    exact ⟨List.exists_mem_of_ne_nil _, fun ⟨_, he⟩ => List.ne_nil_of_mem he⟩
  rw [hnil]
  constructor
  · intro hkey
    obtain ⟨e, he, hfid⟩ := exists_of_mem_keys hkey
    exact ⟨e, (mem_group _).mpr ⟨he, hfid⟩⟩
  · rintro ⟨e, he⟩
    obtain ⟨hfetch, rfl⟩ := mem_entriesOf.mp he
    exact mem_keys_readCollection hfetch

/-- The data sets that a collection is read as. -/
def dataSets [LawfulCollection S] {hashOrder : List ℕ → List ℕ}
    (hhash : ∀ l, (hashOrder l).Perm l) (collection : S) : DataSets where
  fids := hashOrder (readCollection collection).keys
  values := runtimesOf collection
  nodup := (hhash _).nodup_iff.mpr (AList.keys_nodup _)
  mem_iff _ := (hhash _).mem_iff.trans mem_keys_iff

end ProvDBpruneInterface

namespace ProvDBprune

section AnyAlgorithm

variable {P J O G S T : Type} [Collection S ℕ (ProvRecord J O)]
  [Collection T ℕ (FuncStatsRecord G)] {A : ReportingAlgorithm P J}
  {assess : P → ℕ → ℚ → Assessment} {params : P → ℕ → J} {Counted : P → Prop}
  {HasScore : P → ℕ → ℚ → Prop} {hashOrder : List ℕ → List ℕ}

/-- All records of a collection have scores. -/
def AllScored (hasScore : ℕ → ℚ → Prop) (collection : S) : Prop :=
  ∀ id record, fetch collection id = some record → hasScore record.fid record.runtimeExclusive

/-- An algorithm whose model is fixed, and gives the same scores as a given one. -/
structure Installed (assess : P → ℕ → ℚ → Assessment) (params : P → ℕ → J) (Counted : P → Prop)
    (HasScore : P → ℕ → ℚ → Prop) (model : P) (outlier : ADOutlier P) : Prop
    extends Frozen assess params model outlier where
  counted : Counted outlier.param
  hasScore_eq : HasScore outlier.param = HasScore model

/-- What labeling a data set does to the algorithm. -/
private theorem installed_labelDataSet (hS : A.ScoresBy Counted HasScore) {model : P}
    {s t : ADOutlier P × ADDataInterface (ProvDBpruneInterface S J)} {dset : List Elem × ℕ}
    (hinstalled : Installed assess params Counted HasScore model s.1)
    (hfrozen : Frozen assess params model t.1) (h : labelDataSet A s dset = .ok t) :
    Installed assess params Counted HasScore model t.1 ∧ t.1.localParam = s.1.localParam := by
  obtain ⟨modelIdx, -, h⟩ := bind_eq_ok h
  obtain ⟨labeled, hlabeled, h⟩ := bind_eq_ok h
  obtain ⟨data, -, h⟩ := bind_eq_ok h
  cases h
  refine ⟨⟨hfrozen, ?_, (hS.hasScore_eq hlabeled).trans hinstalled.hasScore_eq⟩, rfl⟩
  change Counted labeled.param
  rw [hS.counted_eq hlabeled]
  exact hinstalled.counted

/-- Labeling the data set of a function returns if its values have scores. -/
private theorem returns_labelDataSet [LawfulCollection S] [ReadableCollection S]
    (hA : A.AssessesBy assess params) (hS : A.ScoresBy Counted HasScore) {model : P}
    {collection : S} {regenStats : Option AnomMetrics} {done : List ℕ}
    {s : ADOutlier P × ADDataInterface (ProvDBpruneInterface S J)} {d : ℕ × List (ℕ × ℚ)} {k : ℕ}
    (hinstalled : Installed assess params Counted HasScore model s.1)
    (hpruned : Pruned (assess model) (params model) collection regenStats done s.2.source)
    (hreads : Reads collection s.2.source) (hd : s.2.source.data[k]? = some d)
    (hdone : d.1 ∉ done) : Returns (labelDataSet A s (elemsOf d, k)) ↔
      ∀ e ∈ entriesOf collection d.1, HasScore model d.1 e.2.runtimeExclusive := by
  have hvalues := hreads.values d (List.mem_of_getElem? hd)
  have hmodel : s.2.getDataSetModelIndex k = .ok d.1 := by
    change getDataSetModelIndex s.2.source k = _
    unfold getDataSetModelIndex
    rw [hd]
    rfl
  have hlabel : Returns (A.labelData s.1.param (elemsOf d) d.1) ↔
      ∀ e ∈ entriesOf collection d.1, HasScore model d.1 e.2.runtimeExclusive := by
    rw [elemsOf_eq hvalues, hS.returns_labelData hinstalled.counted, List.forall_mem_map,
      hinstalled.hasScore_eq]
  rw [← hlabel]
  constructor
  · intro h
    obtain ⟨modelIdx, hmodel', h⟩ := returns_bind.mp h
    obtain rfl := Except.ok.inj (hmodel.symm.trans hmodel')
    obtain ⟨labeled, hlabeled, -⟩ := returns_bind.mp h
    exact ⟨labeled, hlabeled⟩
  · rintro ⟨labeled, hlabeled⟩
    obtain ⟨hlabels, had⟩ := labeled_elemsOf hA hinstalled.toFrozen hvalues hlabeled
    have hbefore : Pruned (assess model) (params model) collection regenStats done
        { s.2.source with ad := A.getAlgorithmParams labeled.param } :=
      ⟨hpruned.fetch_eq, hpruned.stats, hpruned.labeled_eq⟩
    obtain ⟨source, hrecord⟩ := hbefore.returns_record _ _ hdone had ⟨d.1, hmodel⟩
    rw [← hlabels] at hrecord
    refine returns_bind.mpr ⟨d.1, hmodel, returns_bind.mpr ⟨labeled, hlabeled, ?_⟩⟩
    refine (returns_bind_of_returns fun _ => ⟨_, rfl⟩).mpr ?_
    exact returns_bind.mpr ⟨source, hrecord, ⟨_, rfl⟩⟩

/-- Labeling the data sets from some position on returns if their values have scores. -/
private theorem returns_labelDataSets [LawfulCollection S] [ReadableCollection S]
    (hA : A.AssessesBy assess params) (hS : A.ScoresBy Counted HasScore) {model : P}
    {collection : S} {regenStats : Option AnomMetrics} (ds : List (ℕ × List (ℕ × ℚ))) {k : ℕ}
    {s : ADOutlier P × ADDataInterface (ProvDBpruneInterface S J)}
    (hinstalled : Installed assess params Counted HasScore model s.1)
    (hpruned : Pruned (assess model) (params model) collection regenStats
      ((s.2.source.data.take k).map Prod.fst) s.2.source)
    (hreads : Reads collection s.2.source) (hds : s.2.source.data.drop k = ds) :
    (Returns (((ds.map elemsOf).zipIdx k).foldlM (labelDataSet A) s) ↔
      ∀ d ∈ ds, ∀ e ∈ entriesOf collection d.1, HasScore model d.1 e.2.runtimeExclusive) ∧
    ∀ t, ((ds.map elemsOf).zipIdx k).foldlM (labelDataSet A) s = .ok t →
      Installed assess params Counted HasScore model t.1 ∧ t.1.localParam = s.1.localParam := by
  induction ds generalizing k s with
  | nil =>
    refine ⟨iff_of_true ⟨s, rfl⟩ fun d hd => absurd hd List.not_mem_nil, fun t h => ?_⟩
    cases h
    exact ⟨hinstalled, rfl⟩
  | cons d rest ih =>
    obtain ⟨hd, htake, hdone⟩ := hreads.next hds
    have hfirst := returns_labelDataSet hA hS hinstalled hpruned hreads hd hdone
    have hnext : ∀ next, labelDataSet A s (elemsOf d, k) = .ok next →
        Installed assess params Counted HasScore model next.1 ∧
        next.1.localParam = s.1.localParam ∧ Pruned (assess model) (params model) collection
          regenStats ((next.2.source.data.take (k + 1)).map Prod.fst) next.2.source ∧
        Reads collection next.2.source ∧ next.2.source.data.drop (k + 1) = rest := by
      intro next hlabel
      obtain ⟨hfrozen, hpruned', hdata, -⟩ :=
        labelDataSet_spec hA hinstalled.toFrozen hpruned hreads hd hdone hlabel
      obtain ⟨hinstalled', hlocal⟩ := installed_labelDataSet hS hinstalled hfrozen hlabel
      rw [htake, ← hdata] at hpruned'
      refine ⟨hinstalled', hlocal, hpruned', hreads.of_data hdata, ?_⟩
      rw [hdata, ← List.drop_drop, hds]
      rfl
    rw [List.map_cons, List.zipIdx_cons, List.foldlM_cons, List.forall_mem_cons, ← hfirst]
    refine ⟨?_, fun t h => ?_⟩
    · rw [returns_bind]
      constructor
      · rintro ⟨next, hlabel, hrest⟩
        obtain ⟨hinstalled', -, hpruned', hreads', hds'⟩ := hnext next hlabel
        exact ⟨⟨next, hlabel⟩, (ih hinstalled' hpruned' hreads' hds').1.mp hrest⟩
      · rintro ⟨⟨next, hlabel⟩, hrest⟩
        obtain ⟨hinstalled', -, hpruned', hreads', hds'⟩ := hnext next hlabel
        exact ⟨next, hlabel, (ih hinstalled' hpruned' hreads' hds').1.mpr hrest⟩
    · obtain ⟨next, hlabel, hrest⟩ := bind_eq_ok h
      obtain ⟨hinstalled', hlocal, hpruned', hreads', hds'⟩ := hnext next hlabel
      obtain ⟨hinstalled'', hlocal'⟩ := (ih hinstalled' hpruned' hreads' hds').2 t hrest
      exact ⟨hinstalled'', hlocal'.trans hlocal⟩

/-- Reading a collection and merging its values into the local model. -/
private theorem updateLocal_dataSets [LawfulCollection S] (hhash : ∀ l, (hashOrder l).Perm l)
    (localParam : P) (ad : ℕ → Except String J) (collection : S) (pruneType : EventType)
    (regenStats : Option AnomMetrics) : (do
      let param ← (ProvDBpruneInterface.new hashOrder ad collection pruneType
        regenStats).data.foldlM (fun param d => A.addValues param d.1 (d.2.map Prod.snd)) A.runParam
      A.update localParam param) = A.updateLocal localParam (dataSets hhash collection) := by
  have hvalues : ∀ fid, (valueAt (readCollection collection) fid).map Prod.snd =
      runtimesOf collection fid := by
    intro fid
    rw [valueAt_readCollection, List.map_map]
    rfl
  unfold ProvDBpruneInterface.new ADAlgorithm.updateLocal
  rw [List.foldlM_map]
  simp only [hvalues]
  rfl

/-- Running the fixed model over a collection returns if its records have scores and their values
can be merged, and it merges them into the local model. -/
theorem returns_runOver [LawfulCollection S] [ReadableCollection S]
    (hA : A.AssessesBy assess params) (hS : A.ScoresBy Counted HasScore)
    (hhash : ∀ l, (hashOrder l).Perm l) {model : P} {outlier : ADOutlier P}
    (hinstalled : Installed assess params Counted HasScore model outlier) (collection : S)
    (pruneType : EventType) (regenStats : Option AnomMetrics) :
    (Returns (runOver A hashOrder outlier collection pruneType regenStats) ↔
      Returns (A.updateLocal outlier.localParam (dataSets hhash collection)) ∧
        AllScored (HasScore model) collection) ∧
    ∀ outlier' po, runOver A hashOrder outlier collection pruneType regenStats =
        .ok (outlier', po) →
      Installed assess params Counted HasScore model outlier' ∧
        A.updateLocal outlier.localParam (dataSets hhash collection) = .ok outlier'.localParam := by
  let source := ProvDBpruneInterface.new hashOrder (A.getAlgorithmParams outlier.param) collection
    pruneType regenStats
  let synced (localParam : P) : ADOutlier P :=
    { outlier with localParam := localParam, syncCallCount := outlier.syncCallCount + 1 }
  have hrun : run A outlier (ADDataInterface.new source) = (do
      let localParam ← A.updateLocal outlier.localParam (dataSets hhash collection)
      (source.data.map elemsOf).zipIdx.foldlM (labelDataSet A)
        (synced localParam, ADDataInterface.new source)) := by
    rw [run_eq hinstalled.freq, updateLocal_dataSets hhash]
  have hreads := reads_new hhash (A.getAlgorithmParams outlier.param) collection pruneType
    regenStats
  have hscored : AllScored (HasScore model) collection ↔
      ∀ d ∈ source.data, ∀ e ∈ entriesOf collection d.1,
        HasScore model d.1 e.2.runtimeExclusive := by
    constructor
    · intro h d _ e he
      obtain ⟨hfetch, hfid⟩ := mem_entriesOf.mp he
      rw [← hfid]
      exact h e.1 e.2 hfetch
    · intro h id record hfetch
      obtain ⟨d, hd, hfid⟩ := List.mem_map.mp (hreads.mem id record hfetch)
      have he : (id, record) ∈ entriesOf collection d.1 := mem_entriesOf.mpr ⟨hfetch, hfid.symm⟩
      rw [← hfid]
      exact h d hd _ he
  have hlabels := fun localParam : P =>
    returns_labelDataSets hA hS source.data (k := 0)
      (s := (synced localParam, ADDataInterface.new source))
      ⟨⟨hinstalled.freq, hinstalled.assess_eq, hinstalled.params_eq⟩, hinstalled.counted,
        hinstalled.hasScore_eq⟩
      (pruned_new (assess model) (params model) hashOrder _ collection pruneType regenStats)
      hreads rfl
  constructor
  · have hover : Returns (runOver A hashOrder outlier collection pruneType regenStats) ↔
        Returns (run A outlier (ADDataInterface.new source)) :=
      returns_bind_of_returns fun _ => ⟨_, rfl⟩
    rw [hover, hrun, returns_bind, hscored]
    constructor
    · rintro ⟨localParam, hlocal, hrest⟩
      exact ⟨⟨localParam, hlocal⟩, (hlabels localParam).1.mp hrest⟩
    · rintro ⟨⟨localParam, hlocal⟩, hrest⟩
      exact ⟨localParam, hlocal, (hlabels localParam).1.mpr hrest⟩
  · intro outlier' po h
    obtain ⟨r, hr, h⟩ := bind_eq_ok h
    cases h
    change run A outlier (ADDataInterface.new source) = _ at hr
    rw [hrun] at hr
    obtain ⟨localParam, hlocal, hrest⟩ := bind_eq_ok hr
    obtain ⟨hinstalled', hkept⟩ := (hlabels localParam).2 r hrest
    rw [hlocal, hkept]
    exact ⟨hinstalled', rfl⟩

/-- All records of a shard have scores. -/
def ShardScored (hasScore : ℕ → ℚ → Prop) (db : Shard S) : Prop :=
  AllScored hasScore db.anomalies ∧ AllScored hasScore db.normalexecs

/-- The data sets that a shard is read as. -/
def shardSets [LawfulCollection S] (hhash : ∀ l, (hashOrder l).Perm l) (db : Shard S) :
    List DataSets :=
  [dataSets hhash db.anomalies, dataSets hhash db.normalexecs]

/-- Pruning a shard returns if its records have scores and their values can be merged. -/
theorem returns_pruneImplementation [LawfulCollection S] [ReadableCollection S]
    (hA : A.AssessesBy assess params) (hS : A.ScoresBy Counted HasScore)
    (hhash : ∀ l, (hashOrder l).Perm l) {model : P} {self : ProvDBprune P}
    (hinstalled : Installed assess params Counted HasScore model self.outlier) (db : Shard S) :
    (Returns (pruneImplementation A hashOrder self db) ↔
      Returns ((shardSets hhash db).foldlM A.updateLocal self.outlier.localParam) ∧
        ShardScored (HasScore model) db) ∧
    ∀ self' db', pruneImplementation A hashOrder self db = .ok (self', db') →
      Installed assess params Counted HasScore model self'.outlier ∧
        (shardSets hhash db).foldlM A.updateLocal self.outlier.localParam =
          .ok self'.outlier.localParam := by
  obtain ⟨hfirst, hfirst'⟩ := returns_runOver hA hS hhash hinstalled db.anomalies .outlier
    (some self.anomMetrics)
  have hsets : ∀ p, (shardSets hhash db).foldlM A.updateLocal p =
      A.updateLocal p (dataSets hhash db.anomalies) >>= fun p =>
        A.updateLocal p (dataSets hhash db.normalexecs) := by
    intro p
    unfold shardSets
    rw [List.foldlM_cons]
    simp only [List.foldlM_cons, List.foldlM_nil, bind_pure]
  constructor
  · rw [hsets, returns_bind]
    unfold pruneImplementation
    rw [returns_bind]
    constructor
    · rintro ⟨⟨outlier, po⟩, hanomalies, hrest⟩
      obtain ⟨hinstalled', hlocal⟩ := hfirst' outlier po hanomalies
      obtain ⟨hsecond, -⟩ := returns_runOver hA hS hhash hinstalled' db.normalexecs .normal none
      have hnormal := hsecond.mp ((returns_bind_of_returns fun _ => ⟨_, rfl⟩).mp hrest)
      exact ⟨⟨_, hlocal, hnormal.1⟩, (hfirst.mp ⟨_, hanomalies⟩).2, hnormal.2⟩
    · rintro ⟨⟨localParam, hlocal, hlocal'⟩, hscored, hscored'⟩
      obtain ⟨⟨outlier, po⟩, hanomalies⟩ := hfirst.mpr ⟨⟨localParam, hlocal⟩, hscored⟩
      obtain ⟨hinstalled', hlocal''⟩ := hfirst' outlier po hanomalies
      obtain ⟨hsecond, -⟩ := returns_runOver hA hS hhash hinstalled' db.normalexecs .normal none
      obtain rfl := Except.ok.inj (hlocal.symm.trans hlocal'')
      exact ⟨_, hanomalies,
        (returns_bind_of_returns fun _ => ⟨_, rfl⟩).mpr (hsecond.mpr ⟨hlocal', hscored'⟩)⟩
  · intro self' db' h
    obtain ⟨⟨outlier, po⟩, hanomalies, h⟩ := bind_eq_ok h
    obtain ⟨⟨outlier', pn⟩, hnormal, h⟩ := bind_eq_ok h
    cases h
    obtain ⟨hinstalled', hlocal⟩ := hfirst' outlier po hanomalies
    obtain ⟨-, hsecond⟩ := returns_runOver hA hS hhash hinstalled' db.normalexecs .normal none
    obtain ⟨hinstalled'', hlocal'⟩ := hsecond outlier' pn hnormal
    rw [hsets, hlocal]
    exact ⟨hinstalled'', hlocal'⟩

/-- Pruning shards one after another returns if all their records have scores and the values can
be merged one after another. -/
theorem returns_pruneShards [LawfulCollection S] [ReadableCollection S]
    (hA : A.AssessesBy assess params) (hS : A.ScoresBy Counted HasScore)
    (hhash : ∀ l, (hashOrder l).Perm l) {model : P} {order : List ℕ} (hnodup : order.Nodup)
    {s : ProvDBprune P × (ℕ → Shard S)}
    (hinstalled : Installed assess params Counted HasScore model s.1.outlier) :
    Returns (order.foldlM (pruneShard A hashOrder) s) ↔
      Returns ((order.flatMap fun i => shardSets hhash (s.2 i)).foldlM A.updateLocal
        s.1.outlier.localParam) ∧ ∀ i ∈ order, ShardScored (HasScore model) (s.2 i) := by
  induction order generalizing s with
  | nil => exact iff_of_true ⟨s, rfl⟩ ⟨⟨_, rfl⟩, fun i hi => absurd hi List.not_mem_nil⟩
  | cons i rest ih =>
    rw [List.nodup_cons] at hnodup
    obtain ⟨hone, hone'⟩ := returns_pruneImplementation hA hS hhash hinstalled (s.2 i)
    have hsame : ∀ db j, j ∈ rest → Function.update s.2 i db j = s.2 j := by
      intro db j hj
      have hne : j ≠ i := by
        rintro rfl
        exact hnodup.1 hj
      exact Function.update_of_ne hne _ _
    have hrest : ∀ self db, Installed assess params Counted HasScore model self.outlier →
        (Returns (rest.foldlM (pruneShard A hashOrder) (self, Function.update s.2 i db)) ↔
          Returns ((rest.flatMap fun j => shardSets hhash (s.2 j)).foldlM A.updateLocal
            self.outlier.localParam) ∧ ∀ j ∈ rest, ShardScored (HasScore model) (s.2 j)) := by
      intro self db hself
      have hsets : (rest.flatMap fun j => shardSets hhash (Function.update s.2 i db j)) =
          rest.flatMap fun j => shardSets hhash (s.2 j) := by
        apply List.flatMap_congr
        intro j hj
        rw [hsame db j hj]
      have hscored : (∀ j ∈ rest, ShardScored (HasScore model) (Function.update s.2 i db j)) ↔
          ∀ j ∈ rest, ShardScored (HasScore model) (s.2 j) := by
        refine forall₂_congr fun j hj => ?_
        rw [hsame db j hj]
      rw [ih hnodup.2 (s := (self, Function.update s.2 i db)) hself, hsets, hscored]
    rw [List.foldlM_cons, returns_bind, List.flatMap_cons, List.foldlM_append, returns_bind,
      List.forall_mem_cons]
    constructor
    · rintro ⟨next, hfirst, hnext⟩
      obtain ⟨⟨self, db⟩, hprune, hfirst⟩ := bind_eq_ok hfirst
      cases hfirst
      obtain ⟨hself, hlocal⟩ := hone' self db hprune
      obtain ⟨hlocal', hscored⟩ := (hrest self db hself).mp hnext
      exact ⟨⟨_, hlocal, hlocal'⟩, (hone.mp ⟨_, hprune⟩).2, hscored⟩
    · rintro ⟨⟨localParam, hlocal, hlocal'⟩, hscored, hscored'⟩
      obtain ⟨⟨self, db⟩, hprune⟩ := hone.mpr ⟨⟨localParam, hlocal⟩, hscored⟩
      obtain ⟨hself, hlocal''⟩ := hone' self db hprune
      obtain rfl := Except.ok.inj (hlocal.symm.trans hlocal'')
      refine ⟨_, ?_, (hrest self db hself).mpr ⟨hlocal', hscored'⟩⟩
      unfold pruneShard
      rw [hprune]
      rfl

/-- Pruning returns if all records have scores and their values can be merged. -/
theorem returns_pruneAll [LawfulCollection S] [ReadableCollection S]
    (hA : A.AssessesBy assess params) (hS : A.ScoresBy Counted HasScore)
    (hhash : ∀ l, (hashOrder l).Perm l) {model : P}
    (hinstalled : Installed assess params Counted HasScore model (new A model).outlier)
    {order : List ℕ} (hnodup : order.Nodup) (shards : ℕ → Shard S) (globalDb : T) :
    Returns (pruneAll A hashOrder model shards order globalDb) ↔
      Returns ((order.flatMap fun i => shardSets hhash (shards i)).foldlM A.updateLocal A.new) ∧
        ∀ i ∈ order, ShardScored (HasScore model) (shards i) := by
  refine (returns_bind_of_returns fun _ => ⟨_, rfl⟩).trans ?_
  exact returns_pruneShards hA hS hhash hnodup (s := (new A model, shards)) hinstalled

end AnyAlgorithm

section Algorithms

variable [LibM] {algo : AlgoParams} {O G S T : Type} [Collection S ℕ (ProvRecord algo.Json O)]
  [Collection T ℕ (FuncStatsRecord G)]

/-- Installing a model keeps its scores. -/
theorem installed_new {model : algo.Param} (hcounted : algo.Counted model) :
    Installed algo.assess algo.entryAfter algo.Counted algo.HasScore model
      (new algo.setAlgorithm model).outlier := by
  refine ⟨⟨rfl, (install_eq model).1, (install_eq model).2⟩, ?_, ?_⟩
  · cases algo with
    | sstd sigma => exact trivial
    | hbos thres globThres maxBins =>
      intro idx
      have hsame := congrFun (hbosFparamAt_install model) idx
      exact (congrArg (fun fparam => fparam.histogram.Counted) hsame).mpr (hcounted idx)
    | copod thres =>
      intro idx
      have hsame := congrFun (copodFparamAt_install model) idx
      exact (congrArg (fun fparam => fparam.histogram.Counted) hsame).mpr (hcounted idx)
  · cases algo with
    | sstd sigma => rfl
    | hbos thres globThres maxBins =>
      exact congrArg (fun fparamAt idx => ADOutlierHBOS.HasScore (fparamAt idx).histogram)
        (hbosFparamAt_install model)
    | copod thres =>
      exact congrArg (fun fparamAt idx => ADOutlierCOPOD.HasScore (fparamAt idx).histogram)
        (copodFparamAt_install model)

/-- The values of a function that pruning sees, collection by collection. -/
def runtimesSeen (shards : ℕ → Shard S) (order : List ℕ) (fid : ℕ) : List (List ℚ) :=
  order.flatMap fun i =>
    [runtimesOf (shards i).anomalies fid, runtimesOf (shards i).normalexecs fid]

/-- Pruning with a fixed model returns if all records have scores and their values can be merged. -/
theorem returns_pruneAll_iff [LawfulCollection S] [ReadableCollection S] {model : algo.Param}
    (hcounted : algo.Counted model) {hashOrder : List ℕ → List ℕ}
    (hhash : ∀ l, (hashOrder l).Perm l) {order : List ℕ} (hnodup : order.Nodup)
    (shards : ℕ → Shard S) (globalDb : T) :
    Returns (pruneAll algo.setAlgorithm hashOrder model shards order globalDb) ↔
      (∀ i ∈ order, ShardScored (algo.HasScore model) (shards i)) ∧
        ∀ fid, algo.CanMerge (runtimesSeen shards order fid) := by
  rw [returns_pruneAll algo.assessesBy algo.scoresBy hhash (installed_new hcounted) hnodup,
    algo.returns_updateLocals, and_comm]
  simp only [List.map_flatMap]
  exact Iff.rfl

/-- The values of a function that are left in a collection of a type. -/
def runtimesLeft (model : algo.Param) (pruneType : EventType) (collection : S) (fid : ℕ) :
    List ℚ :=
  (kept (algo.assess model) (algo.entryAfter model) pruneType collection fid).map
    fun record => (record.runtimeExclusive : ℚ)

/-- The values of a function that pruning sees when it is repeated. -/
def runtimesSeenAgain (model : algo.Param) (shards : ℕ → Shard S) (order : List ℕ) (fid : ℕ) :
    List (List ℚ) :=
  order.flatMap fun i => [runtimesLeft model .outlier (shards i).anomalies fid,
    runtimesLeft model .normal (shards i).normalexecs fid]

/-- What is left in a collection has the values that are left. -/
theorem runtimesOf_perm [LawfulCollection S] {model : algo.Param} {pruneType : EventType}
    {before after : S} (h : ∀ id, fetch after id =
      (fetch before id).bind (remains (algo.assess model) (algo.entryAfter model) pruneType))
    (fid : ℕ) : (runtimesOf after fid).Perm (runtimesLeft model pruneType before fid) := by
  have hkept : kept (algo.assess model) (algo.entryAfter model) pruneType after fid =
      (entriesOf after fid).map Prod.snd := by
    unfold kept
    rw [← List.filterMap_eq_map]
    apply List.filterMap_congr
    intro e he
    have hfetch := (mem_entriesOf.mp he).1
    rw [h] at hfetch
    obtain ⟨record, -, hremains⟩ := Option.bind_eq_some_iff.mp hfetch
    exact remains_remains _ _ hremains
  have hperm : (kept (algo.assess model) (algo.entryAfter model) pruneType after fid).Perm
      (kept (algo.assess model) (algo.entryAfter model) pruneType before fid) := by
    rw [← group_remaining, ← group_remaining]
    exact (remaining_perm h).filter _
  rw [hkept] at hperm
  have hvalues := hperm.map fun record => (record.runtimeExclusive : ℚ)
  rwa [List.map_map] at hvalues

omit [LibM] in
/-- What is left has scores if everything had. -/
theorem AllScored.left {hasScore : ℕ → ℚ → Prop} {assess : ℕ → ℚ → Assessment}
    {params : ℕ → algo.Json} {pruneType : EventType} {before after : S}
    (h : AllScored hasScore before)
    (hleft : ∀ id, fetch after id = (fetch before id).bind (remains assess params pruneType)) :
    AllScored hasScore after := by
  intro id record hfetch
  rw [hleft] at hfetch
  obtain ⟨old, hold, hremains⟩ := Option.bind_eq_some_iff.mp hfetch
  obtain ⟨hfid, hvalue⟩ := remains_eq_some assess params hremains
  rw [hfid, hvalue]
  exact h id old hold

/-- Pruning returns, filters the databases, leaves the same records in any order of the shards and
of the functions, and repeating it in any order changes nothing. -/
structure PrunesAsFilter (algo : AlgoParams) [Collection S ℕ (ProvRecord algo.Json O)]
    (model : algo.Param) (shards : ℕ → Shard S) (order : List ℕ) (globalDb : T) : Prop where
  filters : ∀ {hashOrder order'}, (∀ l, (hashOrder l).Perm l) → order.Perm order' →
    ∃ after, pruneAll algo.setAlgorithm hashOrder model shards order' globalDb = .ok after ∧
      Filtered (algo.assess model) (algo.entryAfter model) order' (shards, globalDb) after
  agree : ∀ {hashOrder hashOrder' order' order'' after after'}, (∀ l, (hashOrder l).Perm l) →
    (∀ l, (hashOrder' l).Perm l) → order.Perm order' → order.Perm order'' →
    pruneAll algo.setAlgorithm hashOrder model shards order' globalDb = .ok after →
    pruneAll algo.setAlgorithm hashOrder' model shards order'' globalDb = .ok after' →
    Agree after after'
  again : ∀ {hashOrder hashOrder' order' order'' after}, (∀ l, (hashOrder l).Perm l) →
    (∀ l, (hashOrder' l).Perm l) → order.Perm order' → order.Perm order'' →
    pruneAll algo.setAlgorithm hashOrder model shards order' globalDb = .ok after →
    ∃ after', pruneAll algo.setAlgorithm hashOrder' model after.1 order'' after.2 = .ok after' ∧
      Agree after' after

/-- All records have scores by the model, and the values of each function, of all records and of
those that are left, can be merged in any order of the shards. -/
structure Prunable (algo : AlgoParams) [Collection S ℕ (ProvRecord algo.Json O)]
    (model : algo.Param) (shards : ℕ → Shard S) (order : List ℕ) : Prop where
  scored : ∀ i ∈ order, ShardScored (algo.HasScore model) (shards i)
  canMerge : ∀ {order'}, order.Perm order' → ∀ fid,
    algo.CanMerge (runtimesSeen shards order' fid)
  canMerge_again : ∀ {order'}, order.Perm order' → ∀ fid,
    algo.CanMerge (runtimesSeenAgain model shards order' fid)

/-- With statistics, and with histograms of a fixed number of bins, only the scores matter. -/
theorem prunable_iff_scored (hproper : algo.Proper) (hcopod : ∀ thres, algo ≠ .copod thres)
    {model : algo.Param} {shards : ℕ → Shard S} {order : List ℕ} :
    Prunable algo model shards order ↔
      ∀ i ∈ order, ShardScored (algo.HasScore model) (shards i) :=
  ⟨fun h => h.scored, fun h => ⟨h, fun _ _ => AlgoParams.canMerge hproper hcopod _,
    fun _ _ => AlgoParams.canMerge hproper hcopod _⟩⟩

end Algorithms

section Gap

/-- The histogram based algorithm. -/
private abbrev gapAlgo : AlgoParams := .hbos (99 / 100) true 200

/-- A histogram whose bin ends at 200000000, below the largest value. -/
private def gapHistogram : Histogram :=
  { counts := [1], start := 0, binWidth := 200000000, min := (1 : ℚ), max := (400000003 / 2 : ℚ) }

/-- A model with this histogram. -/
private def gapModel : HbosParam :=
  { hbosstats := (∅ : AList fun _ : ℕ => HbosFuncParam).insert 7
      { histogram := gapHistogram, internalGlobalThreshold := 0 }
    maxbins := 200 }

/-- A collection with one execution. -/
private def oneExecution (runtime : ℤ) : Store ℕ (ProvRecord gapAlgo.Json Unit) :=
  (∅ : AList fun _ : ℕ => ProvRecord gapAlgo.Json Unit).insert 0
    { fid := 7, runtimeTotal := runtime, runtimeExclusive := runtime, rid := 0, ioStep := 3
      entry := 100, exit := 100 + runtime, outlierScore := 0, outlierSeverity := 1
      algoParams := none, others := () }

/-- Two shards with an anomaly each. -/
private def twoAnomalies (runtime : ℤ) (i : ℕ) :
    Shard (Store ℕ (ProvRecord gapAlgo.Json Unit)) :=
  { anomalies := oneExecution (if i = 0 then 5 else runtime), normalexecs := ∅ }

/-- A global database with the function. -/
private def gapFunction : Store ℕ (FuncStatsRecord Unit) :=
  (∅ : AList fun _ : ℕ => FuncStatsRecord Unit).insert 0
    { fid := 7, anomalyMetrics := none, others := () }

/-- The anomalies are scored if their values are. -/
private theorem shardScored_twoAnomalies {hasScore : ℕ → ℚ → Prop} {runtime : ℤ}
    (hfive : hasScore 7 (5 : ℤ)) (hruntime : hasScore 7 runtime) (i : ℕ) :
    ShardScored hasScore (twoAnomalies runtime i) := by
  have hone : ∀ runtime : ℤ, hasScore 7 runtime → AllScored hasScore (oneExecution runtime) := by
    intro runtime hruntime id record hfetch
    by_cases hid : id = 0
    · subst hid
      have hrecord := (AList.lookup_insert _).symm.trans hfetch
      obtain rfl := Option.some.inj hrecord
      exact hruntime
    · have hnone := (AList.lookup_insert_ne hid).symm.trans hfetch
      cases hnone
  constructor
  · by_cases hi : i = 0
    · rw [twoAnomalies, if_pos hi]
      exact hone 5 hfive
    · rw [twoAnomalies, if_neg hi]
      exact hone runtime hruntime
  · intro id record hfetch
    cases hfetch

/-- The model has counts. -/
private theorem counted_gapModel [LibM] : gapAlgo.Counted gapModel := by
  intro idx
  by_cases hidx : idx = 7
  · subst hidx
    have hlookup : gapModel.fparamAt 7 =
        { histogram := gapHistogram, internalGlobalThreshold := 0 } := rfl
    rw [hlookup]
    decide
  · have hlookup : gapModel.fparamAt idx = HbosFuncParam.new := by
      unfold HbosParam.fparamAt gapModel
      rw [AList.lookup_insert_ne hidx]
      rfl
    rw [hlookup]
    exact fun hbins => absurd rfl hbins

end Gap

end ProvDBprune

end Chimbuko
