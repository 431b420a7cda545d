import Chimbuko.AD.ADExecDataInterface
import Chimbuko.Core.ADOutlierAssess
import Chimbuko.Library.Filing
import Chimbuko.Library.RecordStore
import Chimbuko.Provdb.ProvDBpruneGlobalStats

/-!
# Pruning the provenance database

After a run the records of a shard are labeled again with the final model, which stays fixed. An
anomaly that is normal now is erased, and so is a normal execution that is an anomaly now. The other
records get their new score and what the model holds for their function. From the anomalies that
stay, statistics are collected for each function, with which the global records are updated.

The collections of the database are a parameter, which results assume to be maps from identifiers
to records. The order in which a hash map visits keys that were inserted one after another is a
parameter too.
-/

namespace Chimbuko

open Filing RecordStore Collection

/-- The statistics of each function. -/
abbrev AnomMetrics := ℕ → Option ProvDBpruneGlobalStats

/-- One collection of a shard as a source of data. -/
structure ProvDBpruneInterface (S J : Type) where
  collection : S
  /-- What the algorithm tells at present that its model holds for a function. -/
  ad : ℕ → Except String J
  /-- The type of events in the collection. -/
  pruneType : EventType
  regenStats : Option AnomMetrics
  /-- The function index of each data set, with the identifiers and values of its records. -/
  data : List (ℕ × List (ℕ × ℚ))
  /-- The elements that were labeled so far. -/
  labeled : List Elem

/-- What amending records needs and collects. -/
structure AmendState (J : Type) where
  jsonParamCache : AList fun _ : ℕ => J
  regenStats : Option AnomMetrics

namespace ProvDBpruneInterface

variable {S J O : Type} [Collection S ℕ (ProvRecord J O)]

/-- The identifiers and values of the records, by function index. -/
def readCollection (collection : S) : AList fun _ : ℕ => List (ℕ × ℚ) :=
  (all collection).foldl (fun m e =>
    modifyAt e.2.fid (fun records => records ++ [(e.1, (e.2.runtimeExclusive : ℚ))]) m) ∅

/-- Read a collection. -/
def new (hashOrder : List ℕ → List ℕ) (ad : ℕ → Except String J)
    (collection : S) (pruneType : EventType) (regenStats : Option AnomMetrics) :
    ProvDBpruneInterface S J where
  collection := collection
  ad := ad
  pruneType := pruneType
  regenStats := regenStats
  data := (hashOrder (readCollection collection).keys).map fun fid =>
    (fid, valueAt (readCollection collection) fid)
  labeled := []

/-- The elements of a data set. -/
def getDataSet (self : ProvDBpruneInterface S J) (dsetIndex : ℕ) :
    Except String (List Elem × ProvDBpruneInterface S J) :=
  match self.data[dsetIndex]? with
  | none => throw "undefined: past the end"
  | some d => pure (d.2.map fun x => Elem.new x.2 x.1, self)

/-- The function of a data set. -/
def getDataSetModelIndex (self : ProvDBpruneInterface S J) (dsetIndex : ℕ) : Except String ℕ :=
  match self.data[dsetIndex]? with
  | none => throw "undefined: past the end"
  | some d => pure d.1

/-- Include a record in the statistics of its function, which are created if there are none. -/
def pushRecord (record : ProvRecord J O) (stats : AnomMetrics) : AnomMetrics :=
  Function.update stats record.fid
    (some (((stats record.fid).getD ProvDBpruneGlobalStats.new).push record))

/-- Amend a record, and include it in the statistics if they are collected. -/
def amendRecord (ad : ℕ → Except String J) (updateScores : List ℚ) (s : AmendState J)
    (record : ProvRecord J O) (i : ℕ) : Except String (AmendState J × ProvRecord J O) := do
  let record := { record with outlierScore := updateScores.getD i 0 }
  let (params, cache) ← match s.jsonParamCache.lookup record.fid with
    | some params => pure (params, s.jsonParamCache)
    | none => do
      let params ← ad record.fid
      pure (params, s.jsonParamCache.insert record.fid params)
  let record := { record with algoParams := some params }
  pure ({ jsonParamCache := cache, regenStats := s.regenStats.map (pushRecord record) }, record)

/-- Amend records in batches of 500. -/
def batchAmendRecords (collection : S) (ids : List ℕ)
    (op : AmendState J → ProvRecord J O → ℕ → Except String (AmendState J × ProvRecord J O))
    (s : AmendState J) : Except String (AmendState J × S) :=
  amendBatches op 500 ids.length collection 0 s ids

/-- The label of events that are not of the type of the collection any more. -/
def typeToRemove (pruneType : EventType) : EventType :=
  if pruneType = .outlier then .normal else .outlier

/-- Erase the records whose label is not that of the collection, and amend the others. -/
def recordDataSetLabelsInternal (self : ProvDBpruneInterface S J) (data : List Elem)
    (dsetIndex : ℕ) : Except String (ProvDBpruneInterface S J) := do
  let _ ← self.getDataSetModelIndex dsetIndex
  let toPrune := data.filter fun e => e.label = typeToRemove self.pruneType
  let toUpdate := data.filter fun e => e.label ≠ typeToRemove self.pruneType
  let collection := eraseMulti self.collection (toPrune.map Elem.index)
  let (s, collection) ← batchAmendRecords collection (toUpdate.map Elem.index)
    (amendRecord self.ad (toUpdate.map Elem.score))
    { jsonParamCache := ∅, regenStats := self.regenStats }
  pure { self with
    collection := collection
    regenStats := s.regenStats
    labeled := self.labeled ++ data }

instance : DataSource (ProvDBpruneInterface S J) where
  nDataSets self := self.data.length
  getDataSet := getDataSet
  getDataSetModelIndex := getDataSetModelIndex
  recordDataSetLabelsInternal := recordDataSetLabelsInternal

end ProvDBpruneInterface

/-- Two collections of a shard. -/
structure Shard (S : Type) where
  anomalies : S
  normalexecs : S

/-- What is stored about a function. -/
structure FuncStatsRecord (O : Type) where
  fid : ℕ
  anomalyMetrics : Option AnomalyMetrics
  /-- The other fields. -/
  others : O

/-- The algorithm with its fixed model, and the statistics collected so far. -/
structure ProvDBprune (P : Type) where
  outlier : ADOutlier P
  anomMetrics : AnomMetrics

namespace ProvDBprune

variable {P J O G S T : Type} [Collection S ℕ (ProvRecord J O)]
  [Collection T ℕ (FuncStatsRecord G)] (A : ReportingAlgorithm P J)

/-- An algorithm with a fixed model, on rank 0 and without a parameter server. -/
def new (model : P) : ProvDBprune P where
  outlier := (((ADOutlier.new A.toADAlgorithm 0 false).setGlobalParameters A.toADAlgorithm
    model).setGlobalModelSyncFrequency 0)
  anomMetrics := fun _ => none

/-- Label a data set and record the labels. The interface refers to the algorithm, whose model
labeling may change. -/
def labelDataSet (s : ADOutlier P × ADDataInterface (ProvDBpruneInterface S J))
    (dset : List Elem × ℕ) :
    Except String (ADOutlier P × ADDataInterface (ProvDBpruneInterface S J)) := do
  let modelIdx ← s.2.getDataSetModelIndex dset.2
  let labeled ← A.labelData s.1.param dset.1 modelIdx
  let data : ADDataInterface (ProvDBpruneInterface S J) :=
    { s.2 with source := { s.2.source with ad := A.getAlgorithmParams labeled.param } }
  let data ← data.recordDataSetLabels labeled.data dset.2
  let used := labeled.threshold.map fun t => (modelIdx, t)
  pure ({ s.1 with param := labeled.param, thresholds := s.1.thresholds ++ used.toList }, data)

/-- `ADOutlier::run` with an interface that refers to the algorithm. The server is not asked, so
its reply does not matter. -/
def run (outlier : ADOutlier P) (data : ADDataInterface (ProvDBpruneInterface S J)) :
    Except String (ADOutlier P × ADDataInterface (ProvDBpruneInterface S J)) := do
  let g ← (List.range data.nDataSets).foldlM (ADOutlier.gather A.toADAlgorithm)
    { dataVals := [], param := A.runParam, data := data }
  let localParam ← A.update outlier.localParam g.param
  let outlier ← { outlier with localParam := localParam }.updateGlobalModel A.toADAlgorithm A.new
  g.dataVals.zipIdx.foldlM (labelDataSet A) (outlier, g.data)

variable (hashOrder : List ℕ → List ℕ)

/-- Run the algorithm over one collection. -/
def runOver (outlier : ADOutlier P) (collection : S) (pruneType : EventType)
    (regenStats : Option AnomMetrics) : Except String (ADOutlier P × ProvDBpruneInterface S J) := do
  let source := ProvDBpruneInterface.new hashOrder (A.getAlgorithmParams outlier.param) collection
    pruneType regenStats
  let r ← run A outlier (ADDataInterface.new source)
  pure (r.1, r.2.source)

/-- Prune the anomalies and then the normal executions of a shard. -/
def pruneImplementation (self : ProvDBprune P) (db : Shard S) :
    Except String (ProvDBprune P × Shard S) := do
  let (outlier, po) ← runOver A hashOrder self.outlier db.anomalies .outlier (some self.anomMetrics)
  let (outlier, pn) ← runOver A hashOrder outlier db.normalexecs .normal none
  pure ({ outlier := outlier, anomMetrics := po.regenStats.getD self.anomMetrics },
    { anomalies := po.collection, normalexecs := pn.collection })

/-- Update the statistics in the record of a function. -/
def finalizeRecord (s : AnomMetrics × List (ℕ × FuncStatsRecord G))
    (entry : ℕ × FuncStatsRecord G) : AnomMetrics × List (ℕ × FuncStatsRecord G) :=
  let stats := (s.1 entry.2.fid).getD ProvDBpruneGlobalStats.new
  (Function.update s.1 entry.2.fid ((s.1 entry.2.fid).map ProvDBpruneGlobalStats.movedFrom),
    s.2 ++ [(entry.1, { entry.2 with anomalyMetrics := some stats.summarize })])

/-- Update the statistics of all functions in the global database. -/
def finalize (self : ProvDBprune P) (globalDb : T) : ProvDBprune P × T :=
  let s := (all globalDb).foldl finalizeRecord (self.anomMetrics, [])
  ({ self with anomMetrics := s.1 }, updateMulti globalDb s.2)

/-- Prune one of the shards. -/
def pruneShard (s : ProvDBprune P × (ℕ → Shard S)) (i : ℕ) :
    Except String (ProvDBprune P × (ℕ → Shard S)) := do
  let (self, db) ← pruneImplementation A hashOrder s.1 (s.2 i)
  pure (self, Function.update s.2 i db)

/-- Prune shards in some order with one object, and then update the global database. -/
def pruneAll (model : P) (shards : ℕ → Shard S) (order : List ℕ) (globalDb : T) :
    Except String ((ℕ → Shard S) × T) := do
  let (self, shards) ← order.foldlM (pruneShard A hashOrder) (new A model, shards)
  pure (shards, (self.finalize globalDb).2)

end ProvDBprune

end Chimbuko
