import Chimbuko.AD.ADEventPurge
import Chimbuko.AD.ADLocalFuncStatistics
import Chimbuko.AD.ADParser
import Mathlib.Data.PNat.Basic

/-!
# The driver of a rank

Each step the driver reads the events of a frame into the event manager. On the steps on which it
analyses, the executions completed since are labeled, as far as the anomaly detection has a model
for them; provenance and statistics are gathered together with the window of time that the data
cover, and labeled calls are purged. Statistics are buffered and sent to the parameter server
every few steps, and at the end of a run.

Reading the trace and detecting anomalies are not part of this: a step is given what the parser
holds after reading, and the labels of the analysis. A purge reads the labels of calls that it has
just deleted; the driver is modelled as long as these are read as they were before.
-/

namespace Chimbuko

open EventDataType

/-- The parameters of the driver. -/
structure DriverParams where
  programIdx : ℕ
  rank : ℕ
  /-- The number of latest calls of each thread that are kept. -/
  anomWinSize : ℕ
  analysisStepFreq : ℕ+
  psSendStatsFreq : ℕ+
  usePS : Bool

/-- What is read of a frame. -/
structure ParsedStep where
  parser : ADParser
  funcMap : AList fun _ : ℤ => String
  eventType : AList fun _ : ℤ => String
  counterMap : AList fun _ : ℤ => String
  gpuThreadMap : List ℕ
  /-- The counters that the node's state is taken from. -/
  monitored : List ℤ

/-- The score that an analysis gives to a call, and the label if it gives one. -/
structure CallLabel where
  call : CallRef
  score : ℚ
  label : Option ℤ

/-- What a step is given: a frame, if there is one, the outcome of the analysis, and the threads of
the call list in their order. -/
structure StepInput where
  parsed : Option ParsedStep
  labels : List CallLabel
  threads : List Thread

/-- What an analysis worked on: its time window, the steps parsed and the events registered since
the previous one, and the completed executions. -/
structure AnalysisRecord where
  firstEventTs : ℕ
  lastEventTs : ℕ
  parsed : List ADParser
  registered : List Event
  execData : ℕ → List CallRef

/-- The driver without its algorithm. -/
structure Driver where
  manager : ADEvent
  execIgnoreCounters : List ℤ
  execdataFirstEventTs : ℕ
  execdataLastEventTs : ℕ
  execdataFirstEventTsSet : Bool
  funcstatsBuf : List ADLocalFuncStatistics
  step : ℕ
  /-- The statistics sent so far. -/
  sent : List ADLocalFuncStatistics
  /-- The steps parsed and the events registered since the previous analysis. -/
  parsed : List ADParser
  registered : List Event
  analyses : List AnalysisRecord

namespace Driver

/-- The driver before the first frame. -/
def new : Driver where
  manager := ADEvent.new
  execIgnoreCounters := []
  execdataFirstEventTs := 0
  execdataLastEventTs := 0
  execdataFirstEventTsSet := false
  funcstatsBuf := []
  step := 0
  sent := []
  parsed := []
  registered := []
  analyses := []

/-- Whether an event is put into the event manager. -/
def Registers (self : Driver) (e : Event) : Prop :=
  e.type ≠ COUNT ∨ toInt e.counterId ∉ self.execIgnoreCounters

instance (self : Driver) (e : Event) : Decidable (self.Registers e) :=
  inferInstanceAs (Decidable (_ ∨ _))

/-- Put the events of a frame into the event manager, and give the times of the first and the
last one. Without events both are -1. -/
def extractEvents (self : Driver) (parser : ADParser) : Except String (Driver × ℕ × ℕ) := do
  let events ← parser.getEvents
  let registered := events.filter fun e => self.Registers e
  let manager ← registered.foldlM (fun (manager : ADEvent) e => do
    let (manager, _) ← manager.addEvent e
    pure manager) self.manager
  pure ({ self with
      manager := manager
      parsed := self.parsed ++ [parser]
      registered := self.registered ++ registered },
    (events.head?.map Event.ts).getD ADParser.maxTs,
    (events.getLast?.map Event.ts).getD ADParser.maxTs)

/-- The counters that monitoring watches are not attached to executions. -/
def extractNodeState (self : Driver) (monitored : List ℤ) : Driver :=
  { self with execIgnoreCounters := monitored ++ self.execIgnoreCounters }

/-- The event manager looks up names in the parser's maps. -/
def link (self : Driver) (p : ParsedStep) : Driver :=
  { self with manager := { self.manager with
      funcMap := some p.funcMap
      eventType := some p.eventType
      counterMap := some p.counterMap
      gpuThreadMap := some p.gpuThreadMap } }

/-- Read a frame and update the time window. -/
def readFrame (self : Driver) (p : ParsedStep) : Except String Driver := do
  let (self, first, last) ← ((self.link p).extractNodeState p.monitored).extractEvents p.parser
  pure { self with
    execdataLastEventTs := last
    execdataFirstEventTs := if self.execdataFirstEventTsSet then self.execdataFirstEventTs
      else first
    execdataFirstEventTsSet := true }

/-- Read a frame if there is one, and tell whether there are data to analyse. -/
def readStep (self : Driver) (input : StepInput) : Except String (Driver × Bool) := do
  let self ← match input.parsed with
    | none => pure self
    | some p => self.readFrame p
  pure (self, self.manager.functions.any fun fid => 0 < (self.manager.execDataMap fid).length)

/-- Record the outcome of the analysis for one call. -/
def recordLabel (manager : ADEvent) (r : CallLabel) : ADEvent :=
  manager.modifyCall r.call fun d =>
    let d := d.setOutlierScore r.score
    match r.label with
    | none => d
    | some label => d.setLabel label

/-- Gather the function statistics for the parameter server. -/
def bufferStorePSdata (params : DriverParams) (self : Driver) : Driver :=
  if params.usePS then
    let funcStats := (ADLocalFuncStatistics.new params.programIdx params.rank self.step)
      |>.gatherStatistics self.manager
    { self with funcstatsBuf := self.funcstatsBuf ++ [funcStats] }
  else self

/-- Purge the call list, and let the next frame start a new time window. -/
def performEndStepAction (params : DriverParams) (self : Driver) (threads : List Thread) :
    Except String Driver := do
  let (manager, _) ← self.manager.purgeCallList threads params.anomWinSize
  pure { self with manager := manager, execdataFirstEventTsSet := false }

/-- Label the executions, hand them over with their time window, and gather statistics. -/
def analyse (params : DriverParams) (self : Driver) (input : StepInput) : Except String Driver :=
  let self := { self with manager := input.labels.foldl recordLabel self.manager }
  let record : AnalysisRecord :=
    { firstEventTs := self.execdataFirstEventTs, lastEventTs := self.execdataLastEventTs
      parsed := self.parsed, registered := self.registered
      execData := self.manager.execDataMap }
  let self := self.bufferStorePSdata params
  { self with
      parsed := [], registered := []
      analyses := self.analyses ++ [record] }.performEndStepAction params input.threads

/-- Send the buffered statistics on the steps on which that is due, or if it is forced. -/
def sendPSdata (params : DriverParams) (self : Driver) (force : Bool) : Driver :=
  if params.usePS ∧ ((self.step + params.rank) % (params.psSendStatsFreq : ℕ) = 0 ∨ force) then
    if self.funcstatsBuf.length ≠ 0 then
      { self with sent := self.sent ++ self.funcstatsBuf, funcstatsBuf := [] }
    else self
  else self

/-- Whether a step is analysed. -/
def doAnalysisOnStep (params : DriverParams) (step : ℕ) : Bool :=
  step % (params.analysisStepFreq : ℕ) = 0

/-- One step, and whether there were data. -/
def runFrame (params : DriverParams) (self : Driver) (input : StepInput) :
    Except String (Driver × Bool) := do
  let (self, haveData) ← self.readStep input
  if haveData then do
    let self ← if doAnalysisOnStep params self.step then self.analyse params input else pure self
    let self := self.sendPSdata params false
    pure ({ self with step := self.step + 1 }, true)
  else pure (self, false)

end Driver

/-- The driver takes a step, which is the last one of a run if there are no data, or a run ends. -/
inductive DriverAction
  | runFrame (input : StepInput)
  | endRun

namespace Driver

/-- What the driver does in successive runs. -/
def exec (params : DriverParams) (self : Driver) : DriverAction → Except String Driver
  | .runFrame input => do
    let (self, _) ← self.runFrame params input
    pure self
  | .endRun => pure (self.sendPSdata params true)

/-- Events go into the event manager one by one. -/
def addEvents (manager : ADEvent) (events : List Event) : Except String ADEvent :=
  events.foldlM (fun (manager : ADEvent) e => do
    let (manager, _) ← manager.addEvent e
    pure manager) manager

/-- Extracting events adds those that are registered. -/
theorem extractEvents_ok {self t : Driver} {parser : ADParser} {first last : ℕ}
    (h : self.extractEvents parser = .ok (t, first, last)) : ∃ events manager,
      parser.getEvents = .ok events ∧
      addEvents self.manager (events.filter fun e => self.Registers e) = .ok manager ∧
      t = { self with
        manager := manager
        parsed := self.parsed ++ [parser]
        registered := self.registered ++ events.filter fun e => self.Registers e } ∧
      first = (events.head?.map Event.ts).getD ADParser.maxTs ∧
      last = (events.getLast?.map Event.ts).getD ADParser.maxTs := by
  rw [extractEvents] at h
  cases hevents : parser.getEvents with
  | error e =>
    rw [hevents] at h
    cases h
  | ok events =>
    rw [hevents] at h
    change (addEvents self.manager (events.filter fun e => self.Registers e) >>= _) = _ at h
    cases hmanager : addEvents self.manager (events.filter fun e => self.Registers e) with
    | error e =>
      rw [hmanager] at h
      cases h
    | ok manager =>
      rw [hmanager] at h
      cases h
      exact ⟨events, manager, rfl, hmanager, rfl, rfl, rfl⟩

/-- What reading a frame does. -/
theorem readFrame_ok {self t : Driver} {p : ParsedStep} (h : self.readFrame p = .ok t) :
    ∃ events manager registered, p.parser.getEvents = .ok events ∧ registered.Sublist events ∧
      addEvents (self.link p).manager registered = .ok manager ∧
      t = { (self.link p).extractNodeState p.monitored with
        manager := manager
        parsed := self.parsed ++ [p.parser]
        registered := self.registered ++ registered
        execdataLastEventTs := (events.getLast?.map Event.ts).getD ADParser.maxTs
        execdataFirstEventTs := if self.execdataFirstEventTsSet then self.execdataFirstEventTs
          else (events.head?.map Event.ts).getD ADParser.maxTs
        execdataFirstEventTsSet := true } := by
  rw [readFrame] at h
  cases hextract : ((self.link p).extractNodeState p.monitored).extractEvents p.parser with
  | error e =>
    rw [hextract] at h
    cases h
  | ok result =>
    obtain ⟨u, first, last⟩ := result
    rw [hextract] at h
    cases h
    obtain ⟨events, manager, hevents, hmanager, rfl, rfl, rfl⟩ := extractEvents_ok hextract
    exact ⟨events, manager, _, hevents, List.filter_sublist, hmanager, rfl⟩

/-- What an analysis does. -/
theorem analyse_ok {params : DriverParams} {self t : Driver} {input : StepInput}
    (h : self.analyse params input = .ok t) : ∃ manager report,
      (input.labels.foldl recordLabel self.manager).purgeCallList input.threads
        params.anomWinSize = .ok (manager, report) ∧
      t = { { self with manager := input.labels.foldl recordLabel self.manager }.bufferStorePSdata
          params with
        manager := manager
        execdataFirstEventTsSet := false
        parsed := []
        registered := []
        analyses := self.analyses ++ [
          { firstEventTs := self.execdataFirstEventTs, lastEventTs := self.execdataLastEventTs
            parsed := self.parsed, registered := self.registered
            execData := (input.labels.foldl recordLabel self.manager).execDataMap }] } := by
  have hbuffer : ∀ u : Driver, (u.bufferStorePSdata params).manager = u.manager ∧
      (u.bufferStorePSdata params).analyses = u.analyses := by
    intro u
    rw [bufferStorePSdata]
    split <;> exact ⟨rfl, rfl⟩
  rw [analyse, performEndStepAction] at h
  simp only [hbuffer] at h
  cases hpurge : (input.labels.foldl recordLabel self.manager).purgeCallList input.threads
      params.anomWinSize with
  | error e =>
    rw [hpurge] at h
    cases h
  | ok result =>
    rw [hpurge] at h
    exact ⟨result.1, result.2, rfl, (Except.ok.inj h).symm⟩

/-- What a step does: it reads a frame if there is one, and if there are data, it analyses them
on some steps, and sends statistics if that is due. -/
theorem runFrame_ok {params : DriverParams} {self t : Driver} {input : StepInput}
    (h : exec params self (.runFrame input) = .ok t) : ∃ self₁,
      (input.parsed = none ∧ self₁ = self ∨
        ∃ p, input.parsed = some p ∧ self.readFrame p = .ok self₁) ∧
      (t = self₁ ∧ (∀ fid ∈ self₁.manager.functions, self₁.manager.execDataMap fid = []) ∨
        ∃ self₂,
          (self₁.analyse params input = .ok self₂ ∧ doAnalysisOnStep params self₁.step = true ∨
            self₂ = self₁ ∧ doAnalysisOnStep params self₁.step = false) ∧
          t = { self₂.sendPSdata params false with
            step := (self₂.sendPSdata params false).step + 1 }) := by
  have hread : ∃ self₁, (input.parsed = none ∧ self₁ = self ∨
      ∃ p, input.parsed = some p ∧ self.readFrame p = .ok self₁) ∧
      self.readStep input = .ok (self₁,
        self₁.manager.functions.any fun fid => 0 < (self₁.manager.execDataMap fid).length) := by
    change (self.runFrame params input >>= _) = _ at h
    rw [runFrame] at h
    cases hparsed : input.parsed with
    | none =>
      refine ⟨self, Or.inl ⟨rfl, rfl⟩, ?_⟩
      rw [readStep, hparsed]
      rfl
    | some p =>
      cases hframe : self.readFrame p with
      | error e =>
        rw [readStep, hparsed] at h
        simp only [hframe] at h
        cases h
      | ok self₁ =>
        refine ⟨self₁, Or.inr ⟨p, rfl, hframe⟩, ?_⟩
        rw [readStep, hparsed]
        simp only [hframe]
        rfl
  obtain ⟨self₁, hself₁, hstep⟩ := hread
  refine ⟨self₁, hself₁, ?_⟩
  change (self.runFrame params input >>= _) = _ at h
  rw [runFrame, hstep] at h
  cases hdata : self₁.manager.functions.any fun fid =>
      0 < (self₁.manager.execDataMap fid).length with
  | false =>
    rw [hdata] at h
    cases h
    refine Or.inl ⟨rfl, fun fid hfid => List.eq_nil_of_length_eq_zero ?_⟩
    have hnone := List.any_eq_false.mp hdata fid hfid
    simpa using hnone
  | true =>
    rw [hdata] at h
    by_cases hdo : doAnalysisOnStep params self₁.step = true
    · cases hanalyse : self₁.analyse params input with
      | error e =>
        simp only [bind, Except.bind, hdo, if_true, hanalyse] at h
        cases h
      | ok self₂ =>
        simp only [bind, Except.bind, hdo, if_true, hanalyse] at h
        cases h
        exact Or.inr ⟨self₂, Or.inl ⟨rfl, hdo⟩, rfl⟩
    · simp only [bind, Except.bind, hdo] at h
      cases h
      exact Or.inr ⟨self₁, Or.inr ⟨rfl, Bool.eq_false_iff.mpr hdo⟩, rfl⟩

end Driver

end Chimbuko
