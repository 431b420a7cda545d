import Chimbuko.AD.ADEventClosedCalls
import Chimbuko.AD.ADOutlierRuns
import Chimbuko.AD.DriverProfile

/-!
# The driver and its algorithm

A frame that is analysed goes through the anomaly detection: an interface to the exec-data map is
set up, the algorithm runs over it, and the rest of the step works on the executions as they are
labeled then. The functions seen on each thread outlive the interfaces. The order of the functions
in the exec-data map is that of a hash map, so a frame is given it.

To the rest of the driver the algorithm is one way to label executions: a run of the driver with
its algorithm is a run of the driver that is given labels.
-/

namespace Chimbuko

open ADExecDataInterface TransitionSystem

/-- What the driver and its analysis depend on. -/
structure AnalysisParams where
  driver : DriverParams
  algo : AlgoParams
  outlierStatistic : OutlierStatistic
  /-- Whether `CHIMBUKO_DISABLE_CUDA_JIT_WORKAROUND` is set. -/
  disableJitWorkaround : Bool
  globalModelSyncFreq : ℤ

/-- What a step is given: a frame if there is one, the functions of the exec-data map and the
threads of the call list in their orders, and the model that the parameter server replies. -/
structure AnalysisInput (P : Type) where
  parsed : Option ParsedStep
  fids : List ℕ
  threads : List Thread
  reply : P

/-- An execution whose value an analysis put into the local model, and the label it got. -/
structure GivenExec where
  call : CallRef
  fid : ℕ
  value : ℚ
  label : ℤ
deriving DecidableEq

/-- The driver with its algorithm, and what analyses took. -/
structure AnalysisDriver (P : Type) where
  driver : Driver
  outlier : ADOutlier P
  /-- The functions seen on each thread. -/
  funcSeen : List (Thread × ℕ)
  /-- The executions whose values went into the local model, for each analysis so far. -/
  given : List (List GivenExec)

namespace AnalysisParams

variable (params : AnalysisParams)

/-- The first call of a function on a thread may include its compilation at run time. One
algorithm leaves it out, unless that is disabled. -/
def ignoresFirst : Bool :=
  match params.algo with
  | .sstd _ => !params.disableJitWorkaround
  | _ => false

/-- The value that the anomaly detection looks at. -/
def valueOf (d : ExecData) : ℚ :=
  match params.outlierStatistic with
  | .exclusiveRuntime => d.exclusive
  | .inclusiveRuntime => d.runtime

/-- An interface to the exec-data map. -/
def setupInterface (funcSeen : List (Thread × ℕ)) (manager : ADEvent) (fids : List ℕ) :
    ADExecDataInterface :=
  let iface := ADExecDataInterface.new manager fids params.outlierStatistic
  if params.ignoresFirst then iface.setIgnoreFirstFunctionCall funcSeen else iface

/-- What the interface is set up with. -/
theorem setupInterface_eq (funcSeen : List (Thread × ℕ)) (manager : ADEvent) (fids : List ℕ) :
    params.setupInterface funcSeen manager fids =
      { manager := manager, statistic := params.outlierStatistic, funcIgnore := []
        dsetFidMap := fids, ignoreFirstFuncCall := params.ignoresFirst
        localFuncExecSeen := if params.ignoresFirst then funcSeen else [], dsetCache := ∅ } := by
  unfold setupInterface
  cases params.ignoresFirst <;> rfl

/-- The interface looks at the value that is asked for. -/
theorem getStatisticValue_setupInterface (funcSeen : List (Thread × ℕ)) (manager : ADEvent)
    (fids : List ℕ) :
    (params.setupInterface funcSeen manager fids).getStatisticValue = params.valueOf := by
  rw [setupInterface_eq]
  rfl

end AnalysisParams

/-- The executions of the data sets that an algorithm got, and their labels. -/
def givenOf (iface : ADExecDataInterface) : List GivenExec :=
  iface.dsetFidMap.zipIdx.flatMap fun dset =>
    ((iface.dsetCache.lookup dset.2).getD []).map fun e =>
      let it := (iface.manager.execDataMap dset.1).getD e.index 0
      { call := it, fid := dset.1, value := e.value, label := (iface.manager.calls it).label }

namespace AnalysisDriver

variable [LibM] {params : AnalysisParams}

/-- The driver before its first step, with some model as its copy of the global model. -/
def start (params : AnalysisParams) (model : params.algo.Param) :
    AnalysisDriver params.algo.Param :=
  let A := params.algo.setAlgorithm.toADAlgorithm
  { driver := Driver.new
    outlier := (ADOutlier.start A params.driver.rank params.driver.usePS
      params.globalModelSyncFreq).setGlobalParameters A model
    funcSeen := []
    given := [] }

/-- Run the algorithm over the exec-data map, and do with the labeled executions what the end of
an analysis does. -/
def analyse (self : AnalysisDriver params.algo.Param) (input : AnalysisInput params.algo.Param) :
    Except String (AnalysisDriver params.algo.Param) := do
  let iface := params.setupInterface self.funcSeen self.driver.manager input.fids
  let (outlier, data) ← self.outlier.run params.algo.setAlgorithm.toADAlgorithm
    (ADDataInterface.new iface) input.reply
  let driver ← { self.driver with manager := data.source.manager }.analyse params.driver
    { parsed := input.parsed, labels := [], threads := input.threads }
  pure { driver := driver
         outlier := outlier
         funcSeen := if params.ignoresFirst then data.source.localFuncExecSeen else self.funcSeen
         given := self.given ++ [givenOf data.source] }

/-- One step, and whether there were data. -/
def runFrame (self : AnalysisDriver params.algo.Param) (input : AnalysisInput params.algo.Param) :
    Except String (AnalysisDriver params.algo.Param × Bool) := do
  let (driver, haveData) ← self.driver.readStep
    { parsed := input.parsed, labels := [], threads := input.threads }
  let self := { self with driver := driver }
  if haveData then do
    let self ← if Driver.doAnalysisOnStep params.driver self.driver.step then self.analyse input
      else pure self
    let driver := self.driver.sendPSdata params.driver false
    pure ({ self with driver := { driver with step := driver.step + 1 } }, true)
  else pure (self, false)

end AnalysisDriver

/-- The driver takes a step, or a run ends. -/
inductive AnalysisAction (P : Type)
  | runFrame (input : AnalysisInput P)
  | endRun

namespace AnalysisDriver

/-- A list of functions has each function once, and all of those with completed executions. -/
def ListsFunctions (fids : List ℕ) (manager : ADEvent) : Prop :=
  fids.Nodup ∧ ∀ fid ∈ manager.functions, manager.execDataMap fid ≠ [] → fid ∈ fids

instance (fids : List ℕ) (manager : ADEvent) : Decidable (ListsFunctions fids manager) :=
  inferInstanceAs (Decidable (_ ∧ _))

variable [LibM] {params : AnalysisParams}

/-- What the driver does in successive runs. -/
def exec (self : AnalysisDriver params.algo.Param) :
    AnalysisAction params.algo.Param → Except String (AnalysisDriver params.algo.Param)
  | .runFrame input => do
    let (self, _) ← self.runFrame input
    pure self
  | .endRun => pure { self with driver := self.driver.sendPSdata params.driver true }

omit [LibM] in
/-- A step is given the functions that the exec-data map has after reading the frame. -/
def Lists (self : AnalysisDriver params.algo.Param) : AnalysisAction params.algo.Param → Prop
  | .runFrame input =>
    match self.driver.readStep
      { parsed := input.parsed, labels := [], threads := input.threads } with
    | .ok (driver, _) => ListsFunctions input.fids driver.manager
    | .error _ => True
  | .endRun => True

omit [LibM] in
instance (self : AnalysisDriver params.algo.Param) (a : AnalysisAction params.algo.Param) :
    Decidable (self.Lists a) := by
  unfold Lists
  cases a with
  | runFrame input =>
    dsimp only
    split
    · exact inferInstance
    · exact isTrue trivial
  | endRun => exact isTrue trivial

/-- What a step does: it reads a frame if there is one, and if there are data, it analyses them on
some steps, and sends statistics if that is due. -/
theorem runFrame_cases {self t : AnalysisDriver params.algo.Param}
    {input : AnalysisInput params.algo.Param} {haveData : Bool}
    (h : self.runFrame input = .ok (t, haveData)) :
    ∃ driver, self.driver.readStep
        { parsed := input.parsed, labels := [], threads := input.threads } =
          .ok (driver, haveData) ∧
      (haveData = false ∧ t = { self with driver := driver } ∨
        haveData = true ∧ ∃ s : AnalysisDriver params.algo.Param,
          (Driver.doAnalysisOnStep params.driver driver.step = true ∧
              { self with driver := driver }.analyse input = .ok s ∨
            Driver.doAnalysisOnStep params.driver driver.step = false ∧
              s = { self with driver := driver }) ∧
          t = { s with driver := { s.driver.sendPSdata params.driver false with
            step := (s.driver.sendPSdata params.driver false).step + 1 } }) := by
  unfold runFrame at h
  obtain ⟨⟨driver, data⟩, hread, h⟩ := bind_eq_ok h
  dsimp only at h
  cases data with
  | false =>
    cases h
    exact ⟨driver, hread, Or.inl ⟨rfl, rfl⟩⟩
  | true =>
    rw [if_pos rfl] at h
    by_cases hdo : Driver.doAnalysisOnStep params.driver driver.step = true
    · rw [if_pos hdo] at h
      obtain ⟨s, hs, h⟩ := bind_eq_ok h
      cases h
      exact ⟨driver, hread, Or.inr ⟨rfl, s, Or.inl ⟨hdo, hs⟩, rfl⟩⟩
    · rw [if_neg hdo] at h
      obtain ⟨s, hs, h⟩ := bind_eq_ok h
      cases h
      cases hs
      exact ⟨driver, hread, Or.inr ⟨rfl, _, Or.inr ⟨Bool.eq_false_iff.mpr hdo, rfl⟩, rfl⟩⟩

/-- What an analysis does: the algorithm runs, and the driver goes on with what it labeled. -/
theorem analyse_cases {self t : AnalysisDriver params.algo.Param}
    {input : AnalysisInput params.algo.Param} (h : self.analyse input = .ok t) :
    ∃ data : ADDataInterface ADExecDataInterface,
      self.outlier.run params.algo.setAlgorithm.toADAlgorithm (ADDataInterface.new
          (params.setupInterface self.funcSeen self.driver.manager input.fids)) input.reply =
        .ok (t.outlier, data) ∧
      { self.driver with manager := data.source.manager }.analyse params.driver
          { parsed := input.parsed, labels := [], threads := input.threads } = .ok t.driver ∧
      t.funcSeen = (if params.ignoresFirst then data.source.localFuncExecSeen
        else self.funcSeen) ∧
      t.given = self.given ++ [givenOf data.source] := by
  unfold analyse at h
  obtain ⟨⟨outlier, data⟩, hrun, h⟩ := bind_eq_ok h
  obtain ⟨driver, hdriver, h⟩ := bind_eq_ok h
  cases h
  exact ⟨data, hrun, hdriver, rfl, rfl⟩

end AnalysisDriver

end Chimbuko
