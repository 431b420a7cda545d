import Chimbuko.AD.AnalysisDriverModels
import Chimbuko.Provdb.ProvDBpruneShards

/-!
# Pruning what a run recorded

While a run keeps its model fixed, every label is what this model gives the value that the analysis
looked at. Pruning with the model looks at the exclusive runtime of each record. If that is the
value that the analysis looked at too, every record keeps its place; if it was the inclusive
runtime, a record is erased exactly if the model gives the exclusive one the other label.
-/

namespace Chimbuko

open ADExecDataInterface ADOutlier RecordStore Collection LawfulCollection TransitionSystem

namespace AnalysisDriver

variable [LibM] {params : AnalysisParams} {model : params.algo.Param}
  {s t : AnalysisDriver params.algo.Param}

/-- A model that is not synchronised, and the labels that it gave. -/
structure FixedModel (params : AnalysisParams) (model : params.algo.Param)
    (s : AnalysisDriver params.algo.Param) : Prop where
  freq : s.outlier.globalModelSyncFreq = params.globalModelSyncFreq
  assess_eq : params.algo.assess s.outlier.param = params.algo.assess model
  labels : ∀ g ∈ s.given, ∀ e ∈ g,
    e.label = (labelCode (params.algo.assess model e.fid e.value).1).getD 0

/-- An analysis labels by the installed model and leaves it. -/
theorem FixedModel.analyse (hfreq : params.globalModelSyncFreq ≤ 0) {skipped : List CallRef}
    (haccounted : Accounted params s.driver.manager s.funcSeen s.given skipped)
    (h : FixedModel params model s) {input : AnalysisInput params.algo.Param}
    (hlists : ListsFunctions input.fids s.driver.manager) (hanalyse : s.analyse input = .ok t) :
    FixedModel params model t := by
  obtain ⟨presented, done, ignored, synced, hanalysed, -, -, hgiven, -⟩ :=
    analyse_analysed haccounted.executions hlists hanalyse
  have hsetup := params.setupInterface_eq s.funcSeen s.driver.manager input.fids
  generalize params.setupInterface s.funcSeen s.driver.manager input.fids = iface at *
  have hvalid : ExecsValid iface.manager := by
    rw [hsetup]
    exact haccounted.executions.execsValid
  obtain ⟨param, localParam, -, -, hsync⟩ := hanalysed.updated
  have hkept := hanalysed.kept
  have hsynced : synced.param = s.outlier.param := by
    rcases (updateGlobalModel_cases hsync).2 with ⟨-, hparam, -⟩ | ⟨hsyncs, -⟩
    · exact hparam
    · have hpos : 0 < s.outlier.globalModelSyncFreq := hsyncs.1
      rw [h.freq] at hpos
      exact absurd hpos (not_lt.mpr hfreq)
  refine ⟨?_, ?_, fun g hg e he => ?_⟩
  · rw [hkept]
    exact (updateGlobalModel_calls hsync).2.1.trans h.freq
  · rw [hanalysed.assess_eq, hsynced]
    exact h.assess_eq
  · rw [hgiven] at hg
    rcases List.mem_append.mp hg with hold | hnew
    · exact h.labels g hold e he
    · rw [List.mem_singleton.mp hnew] at he
      rw [hanalysed.label_eq hvalid he, hsynced, h.assess_eq]

/-- In every run whose model is not synchronised each label is what the installed model gives. -/
theorem fixedModel (hfreq : params.globalModelSyncFreq ≤ 0)
    (hrun : Runs (StepOf exec) Lists (start params model) s) : FixedModel params model s := by
  refine (hrun.invariant (fun s => (∃ skipped,
      Accounted params s.driver.manager s.funcSeen s.given skipped) ∧ FixedModel params model s)
    ⟨⟨[], accounted_new params⟩, rfl, (ProvDBprune.install_eq model).1, fun _ hg => nomatch hg⟩
    ?_).2
  rintro s a t ⟨⟨skipped, haccounted⟩, h⟩ hlists hexec
  refine ⟨accounted_exec haccounted hlists hexec, ?_⟩
  cases a with
  | endRun =>
    cases hexec
    exact ⟨h.freq, h.assess_eq, h.labels⟩
  | runFrame input =>
    obtain ⟨⟨t', haveData⟩, hframe, hexec⟩ := bind_eq_ok hexec
    cases hexec
    obtain ⟨driver, hread, hcase⟩ := runFrame_cases hframe
    have hread' := (Driver.readStep_cases hread).1
    unfold Lists at hlists
    dsimp only at hlists
    rw [hread] at hlists
    rcases hcase with ⟨-, rfl⟩ | ⟨-, u, ⟨-, hanalyse⟩ | ⟨-, rfl⟩, rfl⟩
    · exact ⟨h.freq, h.assess_eq, h.labels⟩
    · have hbefore : FixedModel params model { s with driver := driver } :=
        ⟨h.freq, h.assess_eq, h.labels⟩
      have hcompleted : Accounted params driver.manager s.funcSeen s.given skipped :=
        haccounted.completes hread'
      have hafter := hbefore.analyse hfreq hcompleted hlists hanalyse
      exact ⟨hafter.freq, hafter.assess_eq, hafter.labels⟩
    · exact ⟨h.freq, h.assess_eq, h.labels⟩

end AnalysisDriver

namespace ProvDBprune

/-- The records of executions that analyses gave some label. -/
def RecordsOf {P S J O : Type} [Collection S ℕ (ProvRecord J O)] (s : AnalysisDriver P) (label : ℤ)
    (collection : S) : Prop :=
  ∀ id record, fetch collection id = some record → ∃ g ∈ s.given, ∃ e ∈ g, e.label = label ∧
    ∃ step severity algoParams others, record =
      ProvRecord.getEventProvenance (s.driver.manager.calls e.call) step severity algoParams others

/-- Nothing is erased: the records only get their scores and the entries of their functions. -/
def KeepsAll {S J O : Type} [Collection S ℕ (ProvRecord J O)] (assess : ℕ → ℚ → Assessment)
    (params : ℕ → J) (order : List ℕ) (before after : ℕ → Shard S) : Prop :=
  ∀ i ∈ order, ∀ id,
    fetch (after i).anomalies id = (fetch (before i).anomalies id).map
        (ProvDBpruneInterface.scored assess params) ∧
      fetch (after i).normalexecs id = (fetch (before i).normalexecs id).map
        (ProvDBpruneInterface.scored assess params)

variable {O G S T : Type} [Collection T ℕ (FuncStatsRecord G)] {hashOrder : List ℕ → List ℕ}

/-- Pruning keeps a record unless the model gives its exclusive runtime the other label. -/
theorem Filtered.keepsAll_iff {J : Type} [Collection S ℕ (ProvRecord J O)]
    {assess : ℕ → ℚ → Assessment} {params : ℕ → J} {order : List ℕ}
    {before after : (ℕ → Shard S) × T}
    (h : Filtered assess params order before after) :
    KeepsAll assess params order before.1 after.1 ↔ ∀ i ∈ order,
      (∀ id record, fetch (before.1 i).anomalies id = some record →
        (assess record.fid record.runtimeExclusive).1 ≠ .normal) ∧
      ∀ id record, fetch (before.1 i).normalexecs id = some record →
        (assess record.fid record.runtimeExclusive).1 ≠ .outlier := by
  have hremains : ∀ (pruneType : EventType) (found : Option (ProvRecord J O)),
      found.bind (ProvDBpruneInterface.remains assess params pruneType) =
          found.map (ProvDBpruneInterface.scored assess params) ↔
        ∀ record, found = some record → (assess record.fid record.runtimeExclusive).1 ≠
          ProvDBpruneInterface.typeToRemove pruneType := by
    intro pruneType found
    cases found with
    | none => exact iff_of_true rfl fun _ h => nomatch h
    | some record =>
      rw [Option.bind_some, Option.map_some]
      unfold ProvDBpruneInterface.remains
      by_cases hremove : (assess record.fid record.runtimeExclusive).1 =
          ProvDBpruneInterface.typeToRemove pruneType
      · rw [if_pos hremove]
        exact iff_of_false (fun h => nomatch h) fun h => h record rfl hremove
      · rw [if_neg hremove]
        refine iff_of_true rfl fun record' heq => ?_
        rw [← Option.some.inj heq]
        exact hremove
  unfold KeepsAll
  apply forall₂_congr
  intro i hi
  have houtcome := h.outcome i hi
  rw [← forall_and]
  apply forall_congr'
  intro id
  rw [houtcome.anomalies, houtcome.normalexecs, hremains, hremains]
  rfl

/-- Pruning with the model of a run that kept it fixed erases no record of the run, if the run
looked at the exclusive runtimes. -/
theorem prune_keepsAll [LibM] {params : AnalysisParams}
    [Collection S ℕ (ProvRecord params.algo.Json O)] [LawfulCollection S] [LawfulCollection T]
    {model : params.algo.Param} {s : AnalysisDriver params.algo.Param}
    (hfreq : params.globalModelSyncFreq ≤ 0)
    (hstatistic : params.outlierStatistic = .exclusiveRuntime)
    (hrun : Runs (StepOf AnalysisDriver.exec) AnalysisDriver.Lists
      (AnalysisDriver.start params model) s)
    (hhash : ∀ l, (hashOrder l).Perm l) {shards : ℕ → Shard S} {order : List ℕ}
    (hnodup : order.Nodup) {globalDb : T} (hfids : ((all globalDb).map fun e => e.2.fid).Nodup)
    (hanomalies : ∀ i ∈ order, RecordsOf s (-1) (shards i).anomalies)
    (hnormalexecs : ∀ i ∈ order, RecordsOf s 1 (shards i).normalexecs)
    {after : (ℕ → Shard S) × T}
    (h : pruneAll params.algo.setAlgorithm hashOrder model shards order globalDb = .ok after) :
    KeepsAll (params.algo.assess model) (params.algo.entryAfter model) order shards after.1 := by
  have hfixed := AnalysisDriver.fixedModel hfreq hrun
  obtain ⟨skipped, haccounted⟩ := hrun.invariant
    (fun s => ∃ skipped, Accounted params s.driver.manager s.funcSeen s.given skipped)
    ⟨[], accounted_new params⟩ fun s a t ⟨skipped, h⟩ hlists hexec =>
      AnalysisDriver.accounted_exec h hlists hexec
  -- the model gives the exclusive runtime of a record the label of its execution
  have hlabel : ∀ {label} {collection : S}, RecordsOf s label collection →
      ∀ id (record : ProvRecord params.algo.Json O), fetch collection id = some record →
        (labelCode (params.algo.assess model record.fid record.runtimeExclusive).1).getD 0 =
          label := by
    intro label collection hrecords id record hrecord
    obtain ⟨g, hg, e, he, hlabel, step, severity, algoParams, others, rfl⟩ :=
      hrecords id record hrecord
    obtain ⟨-, hfid, hvalue⟩ := haccounted.taken g hg e he
    have hexclusive : ((s.driver.manager.calls e.call).exclusive : ℚ) = e.value := by
      rw [← hvalue]
      unfold AnalysisParams.valueOf
      rw [hstatistic]
    change (labelCode (params.algo.assess model (s.driver.manager.calls e.call).fid
      ((s.driver.manager.calls e.call).exclusive : ℚ)).1).getD 0 = label
    rw [hfid, hexclusive, ← hfixed.labels g hg e he, hlabel]
  have hfiltered := pruneAll_filters hhash hnodup hfids h
  rw [hfiltered.keepsAll_iff]
  intro i hi
  constructor
  · intro id record hrecord hnormal
    have hcode := hlabel (hanomalies i hi) id record hrecord
    rw [hnormal] at hcode
    exact absurd hcode (by decide)
  · intro id record hrecord houtlier
    have hcode := hlabel (hnormalexecs i hi) id record hrecord
    rw [houtlier] at hcode
    exact absurd hcode (by decide)

section OneCall

/-- A model of values around that of a call, and the shard with the record of this call. -/
private def aroundFifty : SstdParam :=
  ⟨(∅ : AList fun _ : ℕ => RunStats).insert 5 (((RunStats.new true).push 49).push 51)⟩

/-- Every step is analysed with a fixed model. -/
private def frozenCall (outlierStatistic : OutlierStatistic) : AnalysisParams :=
  { AnalysisDriver.everyCall (.sstd 6) true with
    outlierStatistic := outlierStatistic, globalModelSyncFreq := 0 }

/-- A collection with the record of the first call. -/
private def recordOf (s : AnalysisDriver SstdParam) : Store ℕ (ProvRecord RunStats Unit) :=
  (∅ : AList fun _ : ℕ => ProvRecord RunStats Unit).insert 0
    (ProvRecord.getEventProvenance (s.driver.manager.calls 0) 0 0 none ())

/-- A shard whose normal execution is the first call. -/
private def shardOf (s : AnalysisDriver SstdParam) (_ : ℕ) :
    Shard (Store ℕ (ProvRecord RunStats Unit)) :=
  { anomalies := ∅, normalexecs := recordOf s }

/-- A call that a run labeled as normal keeps its record. -/
theorem prune_keepsAll_oneCall : letI := LibM.interpolated
    ∃ (s : AnalysisDriver SstdParam)
      (after : (ℕ → Shard (Store ℕ (ProvRecord RunStats Unit))) × Store ℕ (FuncStatsRecord Unit)),
      s.given.map (fun g => g.map GivenExec.label) = [[1]] ∧
      KeepsAll ((AlgoParams.sstd 6).assess aroundFifty) ((AlgoParams.sstd 6).entryAfter aroundFifty)
        [0] (shardOf s) after.1 := by
  let _ := LibM.interpolated
  let params := frozenCall .exclusiveRuntime
  have hrun : ∃ s ∈ runAll (@AnalysisDriver.exec _ params) AnalysisDriver.Lists
      (AnalysisDriver.start params aroundFifty) (AnalysisDriver.oneCallPerStep aroundFifty 1),
      s.given.map (fun g => g.map GivenExec.label) = [[1]] ∧
        (∃ g ∈ s.given, ∃ e ∈ g, e.call = 0 ∧ e.label = 1) ∧
        (pruneAll (J := RunStats) (AlgoParams.sstd 6).setAlgorithm id aroundFifty (shardOf s) [0]
          (∅ : Store ℕ (FuncStatsRecord Unit))).isOk = true := by
    decide +kernel
  obtain ⟨s, hs, hgiven, ⟨g, hg, e, he, hcall, hlabel⟩, hprune⟩ := hrun
  obtain ⟨after, hafter⟩ := exists_ok hprune
  have hruns : Runs (StepOf (@AnalysisDriver.exec _ params)) AnalysisDriver.Lists
      (AnalysisDriver.start params aroundFifty) s := runs_of_runAll _ hs
  have hanomalies : ∀ i ∈ [0], RecordsOf s (-1) (shardOf s i).anomalies :=
    fun _ _ id record hrecord => nomatch hrecord
  have hnormalexecs : ∀ i ∈ [0], RecordsOf s 1 (shardOf s i).normalexecs := by
    intro i _ id record hrecord
    refine ⟨g, hg, e, he, hlabel, 0, 0, none, (), ?_⟩
    change AList.lookup id (recordOf s) = some record at hrecord
    unfold recordOf at hrecord
    by_cases hid : id = 0
    · rw [hid, AList.lookup_insert] at hrecord
      rw [hcall, ← Option.some.inj hrecord]
    · rw [AList.lookup_insert_ne hid] at hrecord
      cases hrecord
  exact ⟨s, after, hgiven, prune_keepsAll le_rfl rfl hruns (fun _ => .refl _) (by decide)
    (by decide) hanomalies hnormalexecs hafter⟩

end OneCall

end ProvDBprune

end Chimbuko
