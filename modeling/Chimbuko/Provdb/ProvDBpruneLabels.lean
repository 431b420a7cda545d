import Chimbuko.AD.ADExecDataInterfaceRuns
import Chimbuko.Core.ADOutlierHolds
import Chimbuko.Provdb.ProvDBpruneReturns

/-!
# Labels of executions and of their records

A rank labels an execution by the statistic that it was told to look at, and pruning labels its
record by the exclusive runtime, whatever the rank looked at. With one frozen model the two agree
about every execution if the rank looks at the exclusive runtime too. If it looks at the inclusive
one, they agree about executions for which both runtimes are the same; for any other execution
there is a model that makes only one of the two an outlier.
-/

namespace Chimbuko

open ADExecDataInterface RecordStore Collection LawfulCollection TransitionSystem

/-- The runtime of an execution that a statistic is about. -/
def OutlierStatistic.runtimeOf (statistic : OutlierStatistic) (call : ExecData) : ℤ :=
  match statistic with
  | .exclusiveRuntime => call.exclusive
  | .inclusiveRuntime => call.runtime

/-- An interface looks at the runtime that its statistic is about. -/
theorem ADExecDataInterface.getStatisticValue_eq (self : ADExecDataInterface) (call : ExecData) :
    self.getStatisticValue call = self.statistic.runtimeOf call := by
  unfold getStatisticValue OutlierStatistic.runtimeOf
  cases self.statistic <;> rfl

section AnyAlgorithm

variable {P J : Type} (A : ReportingAlgorithm P J)

/-- The label that a rank gives an execution with a frozen model, when it gets the data set of its
function and looks at some statistic. -/
inductive LabeledOnline (model : P) (statistic : OutlierStatistic) : ExecData → EventType → Prop
  | labelData {iface iface' : ADExecDataInterface} {dsetIndex fid : ℕ} {data : List Elem}
      {labeled : Labeled P} {e : Elem} {it : CallRef} :
      ExecsValid iface.manager → iface.statistic = statistic → iface.dsetCache = ∅ →
      iface.getDataSetModelIndex dsetIndex = .ok fid →
      iface.getDataSet dsetIndex = .ok (data, iface') →
      A.labelData model data fid = .ok labeled → e ∈ labeled.data →
      iface.getExecDataEntry dsetIndex e.index = .ok it →
      LabeledOnline model statistic (iface.manager.calls it) e.label

/-- The algorithm between the collections that are pruned with a frozen model. -/
inductive Pruning (hashOrder : List ℕ → List ℕ) (model : P) : ADOutlier P → Prop
  | new : Pruning hashOrder model (ProvDBprune.new A model).outlier
  | runOver {S O : Type} [Collection S ℕ (ProvRecord J O)] [LawfulCollection S]
      {outlier outlier' : ADOutlier P} {collection : S} {pruneType : EventType}
      {regenStats : Option AnomMetrics} {source : ProvDBpruneInterface S J} :
      Pruning hashOrder model outlier →
      ProvDBprune.runOver A hashOrder outlier collection pruneType regenStats =
        .ok (outlier', source) →
      Pruning hashOrder model outlier'

/-- The label that pruning with a frozen model gives a record of an execution, which may have got
a label and a score since. -/
inductive LabeledByPruning (hashOrder : List ℕ → List ℕ) (model : P) :
    ExecData → EventType → Prop
  | runOver {S O : Type} [Collection S ℕ (ProvRecord J O)] [LawfulCollection S]
      {outlier outlier' : ADOutlier P} {collection : S} {pruneType : EventType}
      {regenStats : Option AnomMetrics} {source : ProvDBpruneInterface S J} {e : Elem}
      {call : ExecData} {given : Assessment} {step : ℤ} {severity : ℚ} {algoParams : Option J}
      {others : O} :
      Pruning A hashOrder model outlier →
      ProvDBprune.runOver A hashOrder outlier collection pruneType regenStats =
        .ok (outlier', source) →
      e ∈ source.labeled →
      fetch collection e.index = some (ProvRecord.getEventProvenance (assessed given call) step
        severity algoParams others) →
      LabeledByPruning hashOrder model call e.label

variable {A} {assess : P → ℕ → ℚ → Assessment} {params : P → ℕ → J}
  {hashOrder : List ℕ → List ℕ} {model : P} {statistic : OutlierStatistic} {call : ExecData}
  {label : EventType}

/-- A rank labels an execution by the runtime that its statistic is about. -/
theorem LabeledOnline.eq_assess (hA : A.AssessesBy assess params)
    (h : LabeledOnline A model statistic call label) :
    label = (assess model call.fid (statistic.runtimeOf call)).1 := by
  cases h with
  | @labelData iface iface' dsetIndex fid data labeled e it hvalid hstatistic hcache hmodel hget
      hlabeled he hentry =>
    have hfid : iface.dsetFidMap[dsetIndex]? = some fid := by
      unfold getDataSetModelIndex at hmodel
      cases hfid : iface.dsetFidMap[dsetIndex]? with
      | none =>
        rw [hfid] at hmodel
        cases hmodel
      | some fid' =>
        rw [hfid] at hmodel
        exact congrArg some (Except.ok.inj hmodel)
    have hnone : iface.dsetCache.lookup dsetIndex = none := by
      rw [hcache]
      exact AList.lookup_empty _
    obtain ⟨ignored, hignoring, -, -, -, hdata, -⟩ := getDataSet_spec hvalid hfid hnone hget
    have helems : data = ((unlabeled iface'.manager fid).map fun entry =>
        ((iface.getStatisticValue (iface.manager.calls entry.1)), entry.2)).map
          fun x => Elem.new x.1 x.2 := by
      rw [hdata, dataSetOf, hignoring.elemOf_eq, List.map_map]
      rfl
    rw [helems] at hlabeled
    rw [hA.data hlabeled, List.map_map] at he
    obtain ⟨entry, hmem, rfl⟩ := List.mem_map.mp he
    -- the element stands for the execution at its position
    have hpos : (iface.manager.execDataMap fid)[entry.2]? = some entry.1 := by
      have hin := List.mem_zipIdx_iff_getElem?.mp (List.mem_filter.mp hmem).1
      rwa [hignoring.execDataMap] at hin
    have hit : entry.1 = it := by
      have hindex : (assessElem (assess model fid)
        (iface.getStatisticValue (iface.manager.calls entry.1), entry.2)).index = entry.2 := rfl
      unfold getExecDataEntry at hentry
      rw [hfid] at hentry
      simp only [Function.comp_apply, hindex, hpos] at hentry
      exact Except.ok.inj hentry
    have hfunc : (iface.manager.calls it).fid = fid :=
      hvalid.fid_eq fid it (hit ▸ List.mem_of_getElem? hpos)
    rw [← hit] at hfunc ⊢
    rw [hfunc, ← hstatistic, ← getStatisticValue_eq]
    rfl

/-- The model stays frozen. -/
theorem Pruning.frozen (hA : A.AssessesBy assess params) (hhash : ∀ l, (hashOrder l).Perm l)
    (hassess : assess (A.assign (A.clear A.new) model) = assess model)
    (hparams : params (A.assign (A.clear A.new) model) = params model) {outlier : ADOutlier P}
    (h : Pruning A hashOrder model outlier) : ProvDBprune.Frozen assess params model outlier := by
  induction h with
  | new => exact ⟨rfl, hassess, hparams⟩
  | runOver _ hrun ih => exact (ProvDBprune.runOver_spec hA hhash ih hrun).1

/-- Pruning labels a record by the exclusive runtime. -/
theorem LabeledByPruning.eq_assess (hA : A.AssessesBy assess params)
    (hhash : ∀ l, (hashOrder l).Perm l)
    (hassess : assess (A.assign (A.clear A.new) model) = assess model)
    (hparams : params (A.assign (A.clear A.new) model) = params model)
    (h : LabeledByPruning A hashOrder model call label) :
    label = (assess model call.fid call.exclusive).1 := by
  cases h with
  | runOver hpruning hrun he hfetch =>
    obtain ⟨-, hpruned, -⟩ := ProvDBprune.runOver_spec hA hhash
      (hpruning.frozen hA hhash hassess hparams) hrun
    rw [hpruned.labeled_eq] at he
    obtain ⟨fid, -, he⟩ := List.mem_flatMap.mp he
    obtain ⟨entry, hentry, rfl⟩ := List.mem_map.mp he
    obtain ⟨hstored, hfid⟩ := ProvDBpruneInterface.mem_entriesOf.mp hentry
    have hrecord := Option.some.inj (hstored.symm.trans hfetch)
    have hkept : ∀ given : Assessment, (assessed given call).fid = call.fid ∧
        (assessed given call).exclusive = call.exclusive := by
      intro given
      unfold assessed
      split <;> exact ⟨rfl, rfl⟩
    change (assess model fid entry.2.runtimeExclusive).1 = _
    rw [← hfid, hrecord]
    change (assess model (assessed _ call).fid (assessed _ call).exclusive).1 = _
    rw [(hkept _).1, (hkept _).2]

end AnyAlgorithm

/-- A manager with one execution, which waits to be analysed. -/
private def waitingCall (call : ExecData) : ADEvent :=
  { ADEvent.new with
    execDataMap := fun fid => if fid = call.fid then [0] else []
    calls := fun _ => call }

/-- The one execution is a call of its function. -/
private theorem execsValid_waitingCall (call : ExecData) : ExecsValid (waitingCall call) := by
  constructor
  · intro fid
    unfold waitingCall
    dsimp only
    split
    · exact List.nodup_singleton 0
    · exact List.nodup_nil
  · intro fid it hit
    unfold waitingCall at hit
    dsimp only at hit
    split at hit
    · rename_i hfid
      exact hfid.symm
    · cases hit

/-- The data set with the one execution. -/
private theorem getDataSet_waitingCall (statistic : OutlierStatistic) {call : ExecData}
    (hcall : call.label = 0) :
    ∃ iface', (ADExecDataInterface.new (waitingCall call) [call.fid] statistic).getDataSet 0 =
      .ok ([Elem.new (statistic.runtimeOf call) 0], iface') := by
  let iface := ADExecDataInterface.new (waitingCall call) [call.fid] statistic
  have hadd : addElem call.fid false (iface, []) (0, 0) =
      (iface, [Elem.new (statistic.runtimeOf call) 0]) := by
    unfold addElem
    change (if call.label = 0 then _ else _) = _
    rw [if_pos hcall]
    change (iface, [Elem.new (iface.getStatisticValue call) 0]) = _
    rw [getStatisticValue_eq]
    rfl
  have hcache : iface.dsetCache.lookup 0 = none := AList.lookup_empty _
  have hfid : iface.dsetFidMap[0]? = some call.fid := rfl
  have hmap : iface.manager.execDataMap call.fid = [0] := if_pos rfl
  have hfolded : [(0 : CallRef)].zipIdx.foldl (addElem call.fid (decide
      ((iface.manager.calls 0).funcname ∈ iface.funcIgnore))) (iface, []) =
        (iface, [Elem.new (statistic.runtimeOf call) 0]) := hadd
  change ∃ iface', iface.getDataSet 0 = .ok (_, iface')
  unfold ADExecDataInterface.getDataSet
  simp only [hcache, hfid, hmap, hfolded]
  exact ⟨_, rfl⟩

/-- A collection with the record of one execution. -/
private def oneRecord (call : ExecData) : Store ℕ (ProvRecord RunStats Unit) :=
  (∅ : AList fun _ : ℕ => ProvRecord RunStats Unit).insert 0
    (ProvRecord.getEventProvenance (assessed Assessment.none call) 0 0 none ())

/-- The one record is about the function of the execution. -/
private theorem entriesOf_oneRecord (call : ExecData) :
    ProvDBpruneInterface.entriesOf (oneRecord call) call.fid =
      [(0, ProvRecord.getEventProvenance (assessed Assessment.none call) 0 0 none ())] :=
  Grouping.group_eq_self _ fun e he => by
    rw [List.mem_singleton.mp he]
    rfl

namespace ADOutlierSSTD

variable [LibM] (self : ADOutlierSSTD)

/-- One value gets what it is assessed as. -/
theorem data_labelData_one {model : SstdParam} {fid : ℕ} {value : ℚ} {i : ℕ}
    {labeled : Labeled SstdParam}
    (h : self.labelData model [Elem.new value i] fid = .ok labeled) :
    labeled.data = [assessElem (self.assess model fid) (value, i)] := by
  have hone : self.reporting.labelData model ([(value, i)].map fun x => Elem.new x.1 x.2) fid =
      .ok labeled := h
  exact self.assessesBy.data hone

/-- A rank labels an execution with whatever model. -/
theorem exists_labeledOnline (model : SstdParam) (statistic : OutlierStatistic)
    {call : ExecData} (hcall : call.label = 0) :
    ∃ label, LabeledOnline self.reporting model statistic call label := by
  let iface := ADExecDataInterface.new (waitingCall call) [call.fid] statistic
  let value : ℚ := statistic.runtimeOf call
  obtain ⟨iface', hget⟩ := getDataSet_waitingCall statistic hcall
  obtain ⟨labeled, hlabeled⟩ := self.returns_labelData model [Elem.new value 0] call.fid
  have hentry : iface.getExecDataEntry 0 0 = .ok 0 := by
    have hfid : iface.dsetFidMap[0]? = some call.fid := rfl
    have hmap : iface.manager.execDataMap call.fid = [0] := if_pos rfl
    unfold getExecDataEntry
    simp only [hfid, hmap]
    rfl
  have hmem : assessElem (self.assess model call.fid) (value, 0) ∈ labeled.data := by
    rw [self.data_labelData_one hlabeled]
    exact List.mem_cons_self
  exact ⟨_, .labelData (execsValid_waitingCall call) rfl rfl rfl hget hlabeled hmem hentry⟩

/-- Pruning labels a record of an execution by its exclusive runtime. -/
theorem labeledByPruning (model : SstdParam) (call : ExecData) :
    LabeledByPruning self.reporting id model call
      (self.assess model call.fid call.exclusive).1 := by
  let outlier := (ProvDBprune.new self.reporting model).outlier
  have hhash : ∀ l : List ℕ, (id l).Perm l := fun _ => .refl _
  have hparam : outlier.param = model := congrArg SstdParam.mk AList.union_empty
  have hfrozen : ProvDBprune.Frozen self.assess statsAt model outlier :=
    ⟨rfl, congrArg self.assess hparam, congrArg statsAt hparam⟩
  obtain ⟨hreturns, -⟩ := ProvDBprune.returns_runOver self.assessesBy self.scoresBy hhash
    ⟨hfrozen, trivial, rfl⟩ (oneRecord call) .outlier none
  obtain ⟨result, hrun⟩ := hreturns.mpr
    ⟨self.returns_updateLocal _ _, fun _ _ _ => trivial⟩
  obtain ⟨-, hpruned, hreads, -⟩ := ProvDBprune.runOver_spec self.assessesBy hhash hfrozen hrun
  have hmem : assessElem (self.assess model call.fid) ((call.exclusive : ℚ), 0) ∈
      result.2.labeled := by
    rw [hpruned.labeled_eq]
    refine List.mem_flatMap.mpr ⟨call.fid, hreads.mem 0 _ rfl, ?_⟩
    unfold ProvDBpruneInterface.labeledElems
    rw [entriesOf_oneRecord]
    exact List.mem_cons_self
  have hfetch : fetch (oneRecord call) 0 =
      some (ProvRecord.getEventProvenance (assessed Assessment.none call) 0 0 none ()) := rfl
  exact .runOver .new hrun hmem hfetch

/-- Statistics of a value that was seen twice. -/
def seenTwice (value : ℚ) : RunStats := [value, value].foldl RunStats.push default

omit [LibM] in
/-- The mean is the value, and there is no variance. -/
theorem seenTwice_eq (value : ℚ) : (seenTwice value).count = 2 ∧ (seenTwice value).mean = value ∧
    (seenTwice value).variance 1 = 0 := by
  have hdefault : (default : RunStats) = RunStats.new false := rfl
  unfold seenTwice RunStats.mean RunStats.variance
  rw [List.foldl_cons, List.foldl_cons, List.foldl_nil, hdefault]
  refine ⟨?_, ?_, ?_⟩
  · norm_num [RunStats.push, RunStats.new]
  · norm_num [RunStats.push, RunStats.new]
  · norm_num [RunStats.push, RunStats.new]

/-- By statistics of a value that was seen twice just this value is normal. -/
theorem assess_seenTwice (hsqrt : LibM.sqrt 0 = 0) (fid : ℕ) (seen value : ℚ) :
    (self.assess ⟨(∅ : AList fun _ : ℕ => RunStats).insert fid (seenTwice seen)⟩ fid value).1 =
      if value = seen then .normal else .outlier := by
  obtain ⟨hcount, hmean, hvariance⟩ := seenTwice_eq seen
  have hstats : statsAt ⟨(∅ : AList fun _ : ℕ => RunStats).insert fid (seenTwice seen)⟩ fid =
      seenTwice seen := by
    unfold statsAt
    rw [AList.lookup_insert]
    rfl
  have hstddev : (seenTwice seen).stddev 1 = 0 := by
    unfold RunStats.stddev
    rw [hvariance, abs_zero, hsqrt]
  unfold assess
  rw [hstats, hcount, if_neg (lt_irrefl 2)]
  unfold labelElem
  dsimp only
  rw [hmean, hstddev, mul_zero, add_zero, sub_zero]
  change (if value < seen ∨ seen < value then EventType.outlier else .normal) = _
  by_cases heq : value = seen
  · rw [if_pos heq, if_neg]
    rw [heq]
    exact fun h => h.elim (lt_irrefl _) (lt_irrefl _)
  · rw [if_neg heq, if_pos (lt_or_gt_of_ne heq)]

/-- Statistics of a value that was seen twice are made of it. -/
theorem madeOf_seenTwice (fid : ℕ) (value : ℚ) :
    (AlgoParams.sstd self.sigma).MadeOf
      (⟨(∅ : AList fun _ : ℕ => RunStats).insert fid (seenTwice value)⟩ : SstdParam)
      (Function.update (fun _ => []) fid [value, value]) :=
  (holdsAt_empty collects_default).insert fid (collects_default.pushAll [value, value])

end ADOutlierSSTD

variable [LibM]

/-- A rank and pruning give an execution the same label, if both use a model that is frozen. -/
def LabelsAgree (algo : AlgoParams) (model : algo.Param) (statistic : OutlierStatistic)
    (call : ExecData) : Prop :=
  ∀ hashOrder : List ℕ → List ℕ, (∀ l, (hashOrder l).Perm l) → ∀ label label' : EventType,
    LabeledOnline algo.setAlgorithm model statistic call label →
      LabeledByPruning algo.setAlgorithm hashOrder model call label' → label = label'

/-- They agree if both look at the same runtime. -/
theorem labelsAgree_of_eq {statistic : OutlierStatistic} {call : ExecData}
    (h : statistic = .exclusiveRuntime ∨ call.runtime = call.exclusive) (algo : AlgoParams)
    (model : algo.Param) : LabelsAgree algo model statistic call := by
  intro hashOrder hhash label label' honline hpruned
  have hinstall := ProvDBprune.install_eq model
  rw [honline.eq_assess algo.assessesBy,
    hpruned.eq_assess algo.assessesBy hhash hinstall.1 hinstall.2]
  have hruntime : statistic.runtimeOf call = call.exclusive := by
    rcases h with rfl | heq
    · rfl
    · cases statistic
      · rfl
      · exact heq
  rw [hruntime]

/-- A rank and pruning give an execution the same label with every model that is made of values,
whatever the algorithm, exactly if the rank looks at the exclusive runtime or both runtimes of the
execution are the same. Otherwise each number of standard deviations has a model for which the
labels differ. -/
theorem labelsAgree_iff (hsqrt : LibM.sqrt 0 = 0) {call : ExecData} (hcall : call.label = 0)
    (statistic : OutlierStatistic) :
    ((∀ (algo : AlgoParams) (model : algo.Param), (∃ pushed, algo.MadeOf model pushed) →
        LabelsAgree algo model statistic call) ↔
      statistic = .exclusiveRuntime ∨ call.runtime = call.exclusive) ∧
    ∀ sigma, (∀ model : (AlgoParams.sstd sigma).Param,
        (∃ pushed, (AlgoParams.sstd sigma).MadeOf model pushed) →
          LabelsAgree (.sstd sigma) model statistic call) →
      statistic = .exclusiveRuntime ∨ call.runtime = call.exclusive := by
  have hsstd : ∀ sigma, (∀ model : (AlgoParams.sstd sigma).Param,
        (∃ pushed, (AlgoParams.sstd sigma).MadeOf model pushed) →
          LabelsAgree (.sstd sigma) model statistic call) →
      statistic = .exclusiveRuntime ∨ call.runtime = call.exclusive := by
    intro sigma hagree
    -- the exclusive runtime was seen twice, so any other value is an outlier
    let self := ADOutlierSSTD.mk sigma
    let model : SstdParam :=
      ⟨(∅ : AList fun _ : ℕ => RunStats).insert call.fid
        (ADOutlierSSTD.seenTwice call.exclusive)⟩
    have hmodel := self.madeOf_seenTwice call.fid call.exclusive
    have hnormal : (self.assess model call.fid call.exclusive).1 = .normal := by
      rw [self.assess_seenTwice hsqrt, if_pos rfl]
    obtain ⟨label, honline⟩ := self.exists_labeledOnline model statistic hcall
    have hlabel := honline.eq_assess self.assessesBy
    have hpruned := self.labeledByPruning model call
    rw [hnormal] at hpruned
    have hsame := hagree model ⟨_, hmodel⟩ id (fun _ => .refl _) label .normal honline hpruned
    rw [hsame, self.assess_seenTwice hsqrt] at hlabel
    have heq : (statistic.runtimeOf call : ℚ) = call.exclusive := by
      by_contra hne
      rw [if_neg hne] at hlabel
      cases hlabel
    cases statistic with
    | exclusiveRuntime => exact Or.inl rfl
    | inclusiveRuntime => exact Or.inr (Int.cast_injective heq)
  exact ⟨⟨fun hagree => hsstd 6 (hagree (.sstd 6)), fun h algo model _ =>
    labelsAgree_of_eq h algo model⟩, hsstd⟩

omit [LibM]

/-- A call of which some time is spent in its children. -/
private def parentCall : ExecData :=
  { (default : ExecData) with fid := 5, runtime := 90, exclusive := 50 }

/-- For a call with children the labels agree only if the rank looks at the exclusive runtime. -/
theorem labelsAgree_iff_parentCall : letI := LibM.interpolated
    (∀ (algo : AlgoParams) (model : algo.Param), (∃ pushed, algo.MadeOf model pushed) →
      LabelsAgree algo model .exclusiveRuntime parentCall) ∧
    ¬∀ (algo : AlgoParams) (model : algo.Param), (∃ pushed, algo.MadeOf model pushed) →
      LabelsAgree algo model .inclusiveRuntime parentCall := by
  let _ := LibM.interpolated
  constructor
  · exact (labelsAgree_iff rfl rfl .exclusiveRuntime).1.mpr (Or.inl rfl)
  · intro hagree
    rcases (labelsAgree_iff rfl rfl .inclusiveRuntime).1.mp hagree with h | h
    · cases h
    · exact absurd h (by decide)

/-- If two calls took 50, a call that took 90 including its children is an outlier to a rank that
looks at the inclusive runtime. Its record is normal to pruning, as its exclusive runtime is 50. -/
theorem not_labelsAgree_parentCall : letI := LibM.interpolated
    ∃ model : (AlgoParams.sstd 6).Param,
      (AlgoParams.sstd 6).MadeOf model (Function.update (fun _ => []) 5 [50, 50]) ∧
      LabeledOnline (AlgoParams.sstd 6).setAlgorithm model .inclusiveRuntime parentCall .outlier ∧
      LabeledByPruning (AlgoParams.sstd 6).setAlgorithm id model parentCall .normal := by
  let _ := LibM.interpolated
  let self := ADOutlierSSTD.mk 6
  refine ⟨(⟨(∅ : AList fun _ : ℕ => RunStats).insert 5 (ADOutlierSSTD.seenTwice 50)⟩ :
    SstdParam), self.madeOf_seenTwice 5 50, ?_, ?_⟩
  · have hcall : parentCall.label = 0 := rfl
    obtain ⟨label, honline⟩ := self.exists_labeledOnline
      ⟨(∅ : AList fun _ : ℕ => RunStats).insert 5 (ADOutlierSSTD.seenTwice 50)⟩
      .inclusiveRuntime hcall
    have hlabel := honline.eq_assess self.assessesBy
    have houtlier := self.assess_seenTwice rfl 5 50 90
    rw [if_neg (by norm_num)] at houtlier
    change label = (self.assess _ 5 ((90 : ℤ) : ℚ)).1 at hlabel
    rw [Int.cast_ofNat, houtlier] at hlabel
    rw [hlabel] at honline
    exact honline
  · have hpruned := self.labeledByPruning
      ⟨(∅ : AList fun _ : ℕ => RunStats).insert 5 (ADOutlierSSTD.seenTwice 50)⟩ parentCall
    change LabeledByPruning _ _ _ _ (self.assess _ 5 ((50 : ℤ) : ℚ)).1 at hpruned
    rw [Int.cast_ofNat, self.assess_seenTwice rfl, if_pos rfl] at hpruned
    exact hpruned

end Chimbuko
