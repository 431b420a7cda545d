import Chimbuko.AD.ADEvent
import Chimbuko.Core.ADDataInterface

/-!
# Executions as data sets

`ad/ADExecDataInterface`: the executions of one function are a data set, whose values are their
runtimes. Executions of ignored functions are labeled normal right away, and so is the first one
of every function on a thread if that is enabled.
-/

namespace Chimbuko

/-- Which statistic outlier detection looks at. -/
inductive OutlierStatistic
  | exclusiveRuntime
  | inclusiveRuntime
deriving DecidableEq

/-- The executions as a source of data sets. -/
structure ADExecDataInterface where
  /-- The owner of the exec-data map and of the executions in it. -/
  manager : ADEvent
  statistic : OutlierStatistic
  funcIgnore : List String
  /-- The function index of every data set. -/
  dsetFidMap : List ℕ
  ignoreFirstFuncCall : Bool
  /-- The functions seen on each thread. -/
  localFuncExecSeen : List (Thread × ℕ)
  dsetCache : AList fun _ : ℕ => List Elem

namespace ADExecDataInterface

/-- An interface to an exec-data map whose keys are given in the order of the hash map. -/
def new (manager : ADEvent) (fids : List ℕ) (statistic : OutlierStatistic) :
    ADExecDataInterface :=
  { manager := manager, statistic := statistic, funcIgnore := [], dsetFidMap := fids
    ignoreFirstFuncCall := false, localFuncExecSeen := [], dsetCache := ∅ }

/-- Ignore a function. -/
def setIgnoreFunction (self : ADExecDataInterface) (func : String) : ADExecDataInterface :=
  { self with funcIgnore := func :: self.funcIgnore }

/-- Ignore the first call of each function on a thread, unless it was seen. -/
def setIgnoreFirstFunctionCall (self : ADExecDataInterface) (functionsSeen : List (Thread × ℕ)) :
    ADExecDataInterface :=
  { self with ignoreFirstFuncCall := true, localFuncExecSeen := functionsSeen }

/-- The value of an execution. -/
def getStatisticValue (self : ADExecDataInterface) (e : ExecData) : ℚ :=
  match self.statistic with
  | .exclusiveRuntime => e.exclusive
  | .inclusiveRuntime => e.runtime

/-- Label an execution normal without an analysis. -/
def labelNormal (self : ADExecDataInterface) (it : CallRef) : ADExecDataInterface :=
  { self with manager := self.manager.modifyCall it fun e => e.setLabel 1 }

/-- Pass an execution on unless it was analyzed before or is ignored. -/
def addElem (fid : ℕ) (ignoreFunc : Bool) (s : ADExecDataInterface × List Elem)
    (entry : CallRef × ℕ) : ADExecDataInterface × List Elem :=
  let (self, out) := s
  let (it, i) := entry
  let e := self.manager.calls it
  if e.label = 0 then
    if ignoreFunc then (self.labelNormal it, out)
    else if self.ignoreFirstFuncCall ∧ (e.thread, fid) ∉ self.localFuncExecSeen then
      ({ self.labelNormal it with
        localFuncExecSeen := (e.thread, fid) :: self.localFuncExecSeen }, out)
    else (self, out ++ [Elem.new (self.getStatisticValue e) i])
  else (self, out)

/-- The executions of a function that were not analyzed. The data set is kept, since getting it
marks functions as seen. -/
def getDataSet (self : ADExecDataInterface) (dsetIndex : ℕ) :
    Except String (List Elem × ADExecDataInterface) :=
  match self.dsetCache.lookup dsetIndex with
  | some out => pure (out, self)
  | none =>
    match self.dsetFidMap[dsetIndex]? with
    | none => throw "Invalid dset_index"
    | some fid =>
      match self.manager.execDataMap fid with
      | [] => pure ([], self)
      | front :: rest =>
        let ignoreFunc := decide ((self.manager.calls front).funcname ∈ self.funcIgnore)
        let (self, out) := (front :: rest).zipIdx.foldl (addElem fid ignoreFunc) (self, [])
        pure (out, { self with dsetCache := self.dsetCache.insert dsetIndex out })

/-- The execution that an element of a data set stands for. -/
def getExecDataEntry (self : ADExecDataInterface) (dsetIndex elemIndex : ℕ) :
    Except String CallRef :=
  match self.dsetFidMap[dsetIndex]? with
  | none => throw "Invalid dset_idx"
  | some fid =>
    match (self.manager.execDataMap fid)[elemIndex]? with
    | none => throw "Invalid elem_index"
    | some it => pure it

/-- The function of a data set. -/
def getDataSetModelIndex (self : ADExecDataInterface) (dsetIndex : ℕ) : Except String ℕ :=
  match self.dsetFidMap[dsetIndex]? with
  | none => throw "Invalid dset_index"
  | some fid => pure fid

/-- The label that an assigned label becomes. -/
def labelCode : EventType → Option ℤ
  | .outlier => some (-1)
  | .normal => some 1
  | .unassigned => none

/-- Record the score of an element, and its label if it has one. -/
def recordElem (its : List CallRef) (manager : ADEvent) (e : Elem) : Except String ADEvent :=
  match its[e.index]? with
  | none => throw "Invalid element index"
  | some it => pure (manager.modifyCall it fun d =>
      let d := d.setOutlierScore e.score
      match labelCode e.label with
      | none => d
      | some label => d.setLabel label)

/-- Record the scores and labels of a data set. -/
def recordDataSetLabelsInternal (self : ADExecDataInterface) (data : List Elem)
    (dsetIndex : ℕ) : Except String ADExecDataInterface :=
  match self.dsetFidMap[dsetIndex]? with
  | none => throw "Invalid dset_idx"
  | some fid => do
    let manager ← data.foldlM (recordElem (self.manager.execDataMap fid)) self.manager
    pure { self with manager := manager }

instance : DataSource ADExecDataInterface where
  nDataSets self := self.dsetFidMap.length
  getDataSet := getDataSet
  getDataSetModelIndex := getDataSetModelIndex
  recordDataSetLabelsInternal := recordDataSetLabelsInternal

end ADExecDataInterface

end Chimbuko
