import Chimbuko.AD.ExecData
import Chimbuko.Library.PinStore
import Mathlib.Data.List.AList
import Mathlib.Logic.Function.Basic

/-!
# The event manager

`ADEvent` builds the call trees of all threads from the stream of events, attaches messages and
counters to the calls they belong to, and pairs calls that share a GPU correlation identifier.
A call is a node of a linked list and other members hold iterators to it, so here a call is a
reference into a store of execution data. Maps that create an entry on access are functions.

A call and its ancestors are protected from deletion while something still refers to them. What
a protection covers is not kept by the code but found again when the protection is lifted; the
model records it beside the call.
-/

namespace Chimbuko

/-- An iterator to a call of a call list. -/
abbrev CallRef := ℕ

/-- The outcome of adding an event. -/
inductive EventError
  | OK
  | UnknownEvent
  | UnknownFunc
  | CallStackViolation
  | EmptyCallStack
deriving DecidableEq

/-- A call that is protected together with its ancestors and those of its GPU partner, if that
was to be protected too; and the calls whose references were counted up. -/
abbrev Protection := Pin EventID

/-- The event manager. -/
structure ADEvent where
  funcMap : Option (AList fun _ : ℤ => String)
  eventType : Option (AList fun _ : ℤ => String)
  counterMap : Option (AList fun _ : ℤ => String)
  /-- The threads of the GPU, if they are known. -/
  gpuThreadMap : Option (List ℕ)
  eidxFuncEntry : ℤ
  eidxFuncExit : ℤ
  eidxCommSend : ℤ
  eidxCommRecv : ℤ
  cidxCorrId : ℤ
  commStack : Thread → List CommData
  counterStack : Thread → List CounterData
  callStack : Thread → List CallRef
  callList : Thread → List CallRef
  execDataMap : ℕ → List CallRef
  callIDMap : EventID → Option CallRef
  unmatchedCorrelationID : AList fun _ : ℕ => Protection
  stackLockedUnlabeled : AList fun _ : EventID => Protection
  ignoreCorrelationID : List String
  /-- The store of execution data, and the first reference not yet in use. -/
  calls : CallRef → ExecData
  nextRef : CallRef

namespace ADEvent

open FuncEventType

/-- The event manager before the first event. -/
def new : ADEvent where
  funcMap := none
  eventType := none
  counterMap := none
  gpuThreadMap := none
  eidxFuncEntry := -1
  eidxFuncExit := -1
  eidxCommSend := -1
  eidxCommRecv := -1
  cidxCorrId := -1
  commStack _ := []
  counterStack _ := []
  callStack _ := []
  callList _ := []
  execDataMap _ := []
  callIDMap _ := none
  unmatchedCorrelationID := ∅
  stackLockedUnlabeled := ∅
  ignoreCorrelationID := []
  calls _ := default
  nextRef := 0

/-- Change the data of one call. -/
def modifyCall (self : ADEvent) (it : CallRef) (f : ExecData → ExecData) : ADEvent :=
  { self with calls := Function.update self.calls it (f (self.calls it)) }

/-- The calls from an identifier on up to the root, or up to one that is not in the list. -/
def parentLine (self : ADEvent) (event : EventID) : List CallRef :=
  ParentLine.walk EventID.root self.callIDMap (fun x => (self.calls x).parent) self.nextRef event

/-- The partner of a GPU call, if it is on a known GPU thread and has exactly one. -/
def gpuPartner (self : ADEvent) (it : CallRef) : Option EventID :=
  let d := self.calls it
  if (self.gpuThreadMap.any fun threads => d.tid ∈ threads) ∧
      d.gpuCorrelationIDpartner.length = 1 then d.gpuCorrelationIDpartner.head?
  else none

/-- The calls whose references a protection of a call counts. -/
def coveredCalls (self : ADEvent) (it : CallRef) : List CallRef :=
  it :: (self.parentLine (self.calls it).parent ++
    ((self.gpuPartner it).map self.parentLine).getD [])

/-- Only the call is changed. -/
@[simp] theorem modifyCall_calls (self : ADEvent) (it : CallRef) (f : ExecData → ExecData) :
    (self.modifyCall it f).calls = Function.update self.calls it (f (self.calls it)) := rfl

/-- Register a reference to a call. -/
def registerReference (self : ADEvent) (it : CallRef) : ADEvent :=
  self.modifyCall it ExecData.registerReference

/-- Take a reference to a call back, if there is one. -/
def deregisterReference (self : ADEvent) (it : CallRef) : Except String ADEvent := do
  let d ← (self.calls it).deregisterReference
  pure (self.modifyCall it fun _ => d)

/-- Ensure that a call and the calls it refers to are not deleted. -/
def stackProtectGC (self : ADEvent) (it : CallRef) : ADEvent × Protection :=
  let covers := self.coveredCalls it
  (covers.foldl registerReference self,
    { start := it, partner := self.gpuPartner it, covers := covers })

/-- Allow a call and the calls it refers to now to be deleted. -/
def stackUnProtectGC (self : ADEvent) (it : CallRef) : Except String ADEvent :=
  (self.coveredCalls it).foldlM deregisterReference self

/-- Whether a counter of a call is a correlation identifier. -/
def isCorrelationID (self : ADEvent) (c : CounterData) : Bool :=
  self.cidxCorrId ≠ -1 ∧ (c.cid : ℤ) = self.cidxCorrId % 18446744073709551616 ∨
    self.cidxCorrId = -1 ∧ c.countername = "Correlation ID"

/-- Record that two calls are partners. -/
def setPartners (self : ADEvent) (it partner : CallRef) : ADEvent :=
  let currentEventId := (self.calls it).id
  let partnerEventId := (self.calls partner).id
  (self.modifyCall it fun d => d.setGPUcorrelationIDpartner partnerEventId).modifyCall partner
    fun d => d.setGPUcorrelationIDpartner currentEventId

/-- Pair a call with the one that waits for its correlation identifier, or let it wait. -/
def matchCorrelationID (it : CallRef) (self : ADEvent) (c : CounterData) :
    Except String ADEvent :=
  if self.isCorrelationID c then
    let self := { self with cidxCorrId := toInt c.cid }
    match self.unmatchedCorrelationID.lookup c.value with
    | some p =>
      if self.callIDMap (self.calls p.start).id = none then
        throw "Correlation ID partner event is not in the call list!"
      else do
        let self ← (self.setPartners it p.start).stackUnProtectGC p.start
        pure { self with
          unmatchedCorrelationID := self.unmatchedCorrelationID.erase c.value }
    | none =>
      let (self, p) := self.stackProtectGC it
      pure { self with
        unmatchedCorrelationID := self.unmatchedCorrelationID.insert c.value p }
  else pure self

/-- Match every correlation identifier among the counters of a call. -/
def checkAndMatchCorrelationID (self : ADEvent) (it : CallRef) : Except String ADEvent :=
  if (self.calls it).funcname ∈ self.ignoreCorrelationID then pure self
  else (self.calls it).counters.foldlM (matchCorrelationID it) self

/-- The name for an index of type `int`. -/
def findInt (map : AList fun _ : ℤ => String) (idx : ℕ) : Option String := map.lookup (toInt idx)

/-- What a function event does, remembering the indices of entry and exit events once they are
known. -/
def funcEventKind (self : ADEvent) (eventType : AList fun _ : ℤ => String) (eid : ℤ) :
    Option (ADEvent × FuncEventType) :=
  if eid = self.eidxFuncEntry then some (self, ENTRY)
  else if eid = self.eidxFuncExit then some (self, EXIT)
  else
    match eventType.lookup eid with
    | none => none
    | some name =>
      if self.eidxFuncEntry = -1 ∧ name = "ENTRY" then
        some ({ self with eidxFuncEntry := eid }, ENTRY)
      else if self.eidxFuncExit = -1 ∧ name = "EXIT" then
        some ({ self with eidxFuncExit := eid }, EXIT)
      else some (self, NA)

/-- Put a new call on the call list and the call stack of its thread. -/
def addEntry (self : ADEvent) (ev : Event) (funcName : String) : ADEvent :=
  let thr := ev.thread
  let stack := self.callStack thr
  let parent := (stack.head?.map fun top => (self.calls top).id).getD EventID.root
  let it := self.nextRef
  let self := match stack with
    | [] => self
    | top :: _ => self.modifyCall top ExecData.incNChildren
  { self with
    calls := Function.update self.calls it
      { ExecData.ofEvent ev with parent := parent, funcname := funcName }
    nextRef := it + 1
    callList := Function.update self.callList thr (self.callList thr ++ [it])
    callStack := Function.update self.callStack thr (it :: stack)
    callIDMap := Function.update self.callIDMap ev.id (some it) }

/-- Take the elements that belong to a call off a stack, down to the first one before its entry,
which is compared with their times as an unsigned long. Elements after the exit are put back. -/
def flushStack {α : Type} (ts : α → ℕ) (exit : ℕ) (accept : ExecData → α → ExecData) :
    List α → ExecData → ExecData × List α
  | [], d => (d, [])
  | top :: rest, d =>
    if ts top < toUnsignedLong d.entry then (d, top :: rest)
    else if exit < ts top then
      let (d, stack) := flushStack ts exit accept rest d
      (d, top :: stack)
    else flushStack ts exit accept rest (accept d top)

/-- Associate the communication events on the stack with a call. -/
def attachComms (self : ADEvent) (it : CallRef) (ev : Event) : ADEvent :=
  let (d, stack) := flushStack CommData.ts ev.ts ExecData.addMessage (self.commStack ev.thread)
    (self.calls it)
  { self.modifyCall it (fun _ => d) with
    commStack := Function.update self.commStack ev.thread stack }

/-- Associate the counter events on the stack with a call. -/
def attachCounters (self : ADEvent) (it : CallRef) (ev : Event) : ADEvent :=
  let (d, stack) := flushStack CounterData.ts ev.ts ExecData.addCounter
    (self.counterStack ev.thread) (self.calls it)
  { self.modifyCall it (fun _ => d) with
    counterStack := Function.update self.counterStack ev.thread stack }

/-- Take an ended call off the call stack and tell its parent its runtime. -/
def popCall (self : ADEvent) (thr : Thread) (it : CallRef) (d : ExecData)
    (stack : List CallRef) : ADEvent :=
  let self := { self.modifyCall it (fun _ => d) with
    callStack := Function.update self.callStack thr stack }
  match stack with
  | [] => self
  | top :: _ => self.modifyCall top fun p => p.updateExclusive d.runtime

/-- Add a call to the completed calls of its function. -/
def pushExecData (self : ADEvent) (fid : ℕ) (it : CallRef) : ADEvent :=
  { self with execDataMap := Function.update self.execDataMap fid (self.execDataMap fid ++ [it]) }

/-- The functions of the exec-data map, as far as they have calls; their order is that of a hash
map and does not matter. -/
def functions (self : ADEvent) : List ℕ :=
  ((List.range self.nextRef).map fun it => (self.calls it).fid).dedup

/-- Take an ended call off the call stack and give it the messages and counters that belong to
it. -/
def endCall (self : ADEvent) (ev : Event) (it : CallRef) (d : ExecData) (stack : List CallRef) :
    ADEvent :=
  let self := self.popCall ev.thread it d stack
  let self := self.attachComms it ev
  let self := self.attachCounters it ev
  self.pushExecData ev.fid it

/-- Attaching messages changes the call and its thread's messages. -/
theorem attachComms_eq (self : ADEvent) (it : CallRef) (ev : Event) :
    self.attachComms it ev = { self.modifyCall it (fun _ => (flushStack CommData.ts ev.ts
      ExecData.addMessage (self.commStack ev.thread) (self.calls it)).1) with
      commStack := Function.update self.commStack ev.thread (flushStack CommData.ts ev.ts
        ExecData.addMessage (self.commStack ev.thread) (self.calls it)).2 } := rfl

/-- Attaching counters changes the call and its thread's counters. -/
theorem attachCounters_eq (self : ADEvent) (it : CallRef) (ev : Event) :
    self.attachCounters it ev = { self.modifyCall it (fun _ => (flushStack CounterData.ts ev.ts
      ExecData.addCounter (self.counterStack ev.thread) (self.calls it)).1) with
      counterStack := Function.update self.counterStack ev.thread (flushStack CounterData.ts ev.ts
        ExecData.addCounter (self.counterStack ev.thread) (self.calls it)).2 } := rfl

/-- A call that ends leaves its stack, takes its messages and counters, and waits. -/
theorem endCall_eq (self : ADEvent) (ev : Event) (it : CallRef) (d : ExecData)
    (stack : List CallRef) : self.endCall ev it d stack =
      (((self.popCall ev.thread it d stack).attachComms it ev).attachCounters it ev).pushExecData
        ev.fid it := rfl

/-- End the call at the top of the call stack. -/
def addExit (self : ADEvent) (ev : Event) : Except String (ADEvent × EventError) :=
  match self.callStack ev.thread with
  | [] => pure (self, .EmptyCallStack)
  | it :: stack =>
    match (self.calls it).updateExit ev with
    | none => pure (self, .CallStackViolation)
    | some d => do
      let self ← (self.endCall ev it d stack).checkAndMatchCorrelationID it
      pure (self, .OK)

/-- Determine what a function event does and the name of its function. -/
def resolveFunc (self : ADEvent) (ev : Event) :
    ADEvent × Except EventError (FuncEventType × String) :=
  match self.eventType with
  | none => (self, .error .UnknownEvent)
  | some eventType =>
    match self.funcEventKind eventType (toInt ev.eid) with
    | none => (self, .error .UnknownEvent)
    | some (self, kind) =>
      match self.funcMap with
      | none => (self, .error .UnknownEvent)
      | some funcMap =>
        match findInt funcMap ev.fid with
        | none => (self, .error .UnknownFunc)
        | some funcName => (self, .ok (kind, funcName))

/-- Add a function event, which starts or ends a call. -/
def addFunc (self : ADEvent) (ev : Event) : Except String (ADEvent × EventError) :=
  match self.resolveFunc ev with
  | (self, .error err) => pure (self, err)
  | (self, .ok (ENTRY, funcName)) => pure (self.addEntry ev funcName, .OK)
  | (self, .ok (EXIT, _)) => self.addExit ev
  | (self, .ok (NA, _)) => pure (self, .UnknownEvent)

/-- The type of a communication event, remembering the indices once they are known. -/
def commEventKind (self : ADEvent) (eventType : AList fun _ : ℤ => String) (eid : ℤ) :
    Option (ADEvent × Option String) :=
  if eid = self.eidxCommSend then some (self, some "SEND")
  else if eid = self.eidxCommRecv then some (self, some "RECV")
  else
    match eventType.lookup eid with
    | none => none
    | some name =>
      if self.eidxCommSend = -1 ∧ name = "SEND" then
        some ({ self with eidxCommSend := eid }, some "SEND")
      else if self.eidxCommRecv = -1 ∧ name = "RECV" then
        some ({ self with eidxCommRecv := eid }, some "RECV")
      else some (self, none)

/-- Add a message, which waits for the call that it is attached to. -/
def addComm (self : ADEvent) (ev : Event) : ADEvent × EventError :=
  match self.eventType with
  | none => (self, .UnknownEvent)
  | some eventType =>
    match self.commEventKind eventType (toInt ev.eid) with
    | none => (self, .UnknownEvent)
    | some (self, none) => (self, .UnknownEvent)
    | some (self, some commType) =>
      let stack := CommData.ofEvent ev commType :: self.commStack ev.thread
      ({ self with commStack := Function.update self.commStack ev.thread stack }, .OK)

/-- Add a counter, which waits for the call that it is attached to. -/
def addCounter (self : ADEvent) (ev : Event) : ADEvent × EventError :=
  match self.counterMap with
  | none => (self, .UnknownEvent)
  | some counterMap =>
    match findInt counterMap ev.counterId with
    | none => (self, .UnknownEvent)
    | some counterName =>
      let stack := CounterData.ofEvent ev counterName :: self.counterStack ev.thread
      ({ self with counterStack := Function.update self.counterStack ev.thread stack }, .OK)

/-- Add an event of any type. -/
def addEvent (self : ADEvent) (ev : Event) : Except String (ADEvent × EventError) :=
  match ev.type with
  | .FUNC => self.addFunc ev
  | .COMM => pure (self.addComm ev)
  | .COUNT => pure (self.addCounter ev)

/-- Add a complete function call. -/
def addCall (self : ADEvent) (exec : ExecData) : Except String ADEvent :=
  let it := self.nextRef
  let self := { self with
    calls := Function.update self.calls it exec
    nextRef := it + 1
    callList := Function.update self.callList exec.thread (self.callList exec.thread ++ [it])
    callIDMap := Function.update self.callIDMap exec.id (some it) }
  (self.pushExecData exec.fid it).checkAndMatchCorrelationID it

end ADEvent

end Chimbuko
