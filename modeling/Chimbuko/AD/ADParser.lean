import Chimbuko.AD.Event
import Chimbuko.Param.ParamInterface
import Mathlib.Data.Fin.VecNotation
import Mathlib.Data.List.Sort

/-!
# The parser's event stream

`ADParser::getEvents` turns the function, communication and counter arrays of a step into one
list of events: invalid rows are dropped, the rows are separated by thread, and the three arrays
of each thread are interwoven in time order. Ties are resolved by a priority that depends on the
type of the next function event.
-/

namespace Chimbuko

/-- The parser's data of the current step and the metadata that it orders events by. -/
structure ADParser where
  rank : ℤ
  programIdx : ℕ
  currentStep : ℤ
  eventType : ModelMap String
  correlationIDcounterIdx : ℤ
  eventTimestamps : List ℕ
  timerEventCount : ℕ
  commTimestamps : List ℕ
  commCount : ℕ
  counterTimestamps : List ℕ
  counterCount : ℕ

namespace ADParser

open EventDataType FuncEventType

/-- The array of one type of events. -/
def array (self : ADParser) : EventDataType → List ℕ
  | FUNC => self.eventTimestamps
  | COMM => self.commTimestamps
  | COUNT => self.counterTimestamps

/-- The number of events of one type. -/
def numEvents (self : ADParser) : EventDataType → ℕ
  | FUNC => self.timerEventCount
  | COMM => self.commCount
  | COUNT => self.counterCount

/-- A row of an array as an event. -/
def event (self : ADParser) (type : EventDataType) (i : ℕ) : Event where
  data := ((self.array type).drop (i * type.dim)).take type.dim
  type := type
  idx := i
  id := { rank := self.rank, step := self.currentStep, idx := i }

/-- Whether a row is of this program and rank and its identifiers are plausible. -/
def validateEvent (self : ADParser) (ev : Event) : Bool :=
  !(1000000 < ev.pid || toInt ev.rid != self.rank || 1000000 ≤ ev.tid || ev.pid != self.programIdx)

/-- The valid events of one type in the order of their array. -/
def validEvents (self : ADParser) (type : EventDataType) : List Event :=
  ((List.range (self.numEvents type)).map (self.event type)).filter self.validateEvent

/-- The events separated by type and thread, and the threads in ascending order. -/
structure ThreadData where
  data : EventDataType → ℕ → List Event
  tids : List ℕ

namespace ThreadData

/-- No data of any thread. -/
def empty : ThreadData := { data := fun _ _ => [], tids := [] }

/-- Insert into an ordered set. -/
def insertTid (tid : ℕ) (tids : List ℕ) : List ℕ :=
  if tid ∈ tids then tids else tids.orderedInsert (· ≤ ·) tid

/-- Push an event onto the array of its type and thread, which must be in time order. -/
def push (self : ThreadData) (ev : Event) : Except String ThreadData :=
  let arr := self.data ev.type ev.tid
  if arr.getLast?.any fun last => ev.ts < last.ts then
    throw "ADParser::getEvents parsed event data is not in time order"
  else
    pure { data := fun type tid =>
             if type = ev.type ∧ tid = ev.tid then arr ++ [ev] else self.data type tid
           tids := insertTid ev.tid self.tids }

end ThreadData

/-- Store the type of function event for an event type index, making room for it. -/
def setFuncEventType (map : List FuncEventType) (eid : ℕ) (type : FuncEventType) :
    List FuncEventType :=
  let map := if map.length ≤ eid then map ++ List.replicate (eid + 1 - map.length) NA else map
  map.set eid type

/-- The types of function events by event type index. -/
def funcEventTypeMap (self : ADParser) : List FuncEventType :=
  self.eventType.entries.foldl (fun map entry =>
    if entry.2 = "ENTRY" then setFuncEventType map entry.1 ENTRY
    else if entry.2 = "EXIT" then setFuncEventType map entry.1 EXIT
    else map) []

/-- The events of one thread that are still to be put out, and what is recorded for the ordering
of correlation identifiers: the entry time of the last function, and whether it has one. -/
structure Cursor where
  funcs : List Event
  comms : List Event
  counters : List Event
  lastFuncEntry : ℕ
  funcHasCorid : Bool

/-- The largest timestamp, that of an array without further events. -/
def maxTs : ℕ := 2 ^ 64 - 1

/-- The timestamp of the next event of an array. -/
def nextTs (events : List Event) : ℕ := (events.head?.map Event.ts).getD maxTs

/-- The earliest of three timestamps, the first ones having priority. -/
def getEarliest (ts0 ts1 ts2 : ℕ) : Except String (Fin 3) :=
  if ts0 ≤ ts1 ∧ ts0 ≤ ts2 then pure 0
  else if ts1 < ts0 ∧ ts1 ≤ ts2 then pure 1
  else if ts2 < ts0 ∧ ts2 < ts1 then pure 2
  else throw "Failed to determine earliest entry"

namespace Cursor

/-- The remaining events of one type. -/
def remaining (c : Cursor) : EventDataType → List Event
  | FUNC => c.funcs
  | COMM => c.comms
  | COUNT => c.counters

/-- The type of the next function event. An index past the end of the map is undefined. -/
def funcEventType (c : Cursor) (map : List FuncEventType) : Except String FuncEventType :=
  match c.funcs with
  | [] => pure NA
  | ev :: _ =>
    match map[ev.eid]? with
    | some type => pure type
    | none => throw "undefined: event type index out of range"

/-- Whether the next counter is a correlation identifier. -/
def counterIsCorrelationId (c : Cursor) (correlationIDcounterIdx : ℤ) : Bool :=
  match c.counters with
  | [] => false
  | ev :: _ => toInt ev.counterId = correlationIDcounterIdx

/-- The order in which types win ties. Comm and counter events are included in a function that
starts or ends at the same time. -/
def priority (type : FuncEventType) : Fin 3 → EventDataType :=
  if type = ENTRY then ![FUNC, COMM, COUNT]
  else ![COMM, COUNT, FUNC]

/-- Whether an entry follows among the function events with the timestamp of the next one. -/
def entrySameTimestamp (map : List FuncEventType) (curTs : ℕ) : List Event → Bool
  | [] => false
  | ev :: rest =>
    if ev.ts ≠ curTs then false
    else if map[ev.eid]? = some ENTRY then true
    else entrySameTimestamp map curTs rest

/-- The type of the event to put out next. If a function's entry, its exit and a correlation
identifier coincide then the function claims the identifier. -/
def earliest (c : Cursor) (map : List FuncEventType) (type : FuncEventType) (isCorid : Bool) :
    Except String EventDataType := do
  let prio := priority type
  let pe ← getEarliest (nextTs (c.remaining (prio 0))) (nextTs (c.remaining (prio 1)))
    (nextTs (c.remaining (prio 2)))
  let earliest := prio pe
  if earliest = FUNC ∧ type = EXIT ∧ nextTs c.funcs = c.lastFuncEntry ∧ isCorid ∧
      nextTs c.counters = c.lastFuncEntry then
    let entrySame := entrySameTimestamp map (nextTs c.funcs) c.funcs.tail
    if !entrySame || !c.funcHasCorid then pure COUNT else pure earliest
  else pure earliest

/-- Put out the next event of one type and record what concerns correlation identifiers. -/
def advance (c : Cursor) (type : FuncEventType) (isCorid : Bool) :
    EventDataType → Option (Event × Cursor)
  | FUNC =>
    match c.funcs with
    | [] => none
    | ev :: rest =>
      if type = ENTRY then
        some (ev, { c with funcs := rest, lastFuncEntry := ev.ts, funcHasCorid := false })
      else some (ev, { c with funcs := rest })
  | COMM =>
    match c.comms with
    | [] => none
    | ev :: rest => some (ev, { c with comms := rest })
  | COUNT =>
    match c.counters with
    | [] => none
    | ev :: rest =>
      some (ev, { c with counters := rest, funcHasCorid := c.funcHasCorid || isCorid })

/-- Put out the next event. -/
def next (c : Cursor) (map : List FuncEventType) (correlationIDcounterIdx : ℤ) :
    Except String (Event × Cursor) := do
  let type ← c.funcEventType map
  let isCorid := c.counterIsCorrelationId correlationIDcounterIdx
  let earliest ← c.earliest map type isCorid
  match c.advance type isCorid earliest with
  | some result => pure result
  | none => throw "undefined: null pointer dereferenced"

end Cursor

/-- Put out events until there are none left, at most as many as the thread has. -/
def interweave (map : List FuncEventType) (correlationIDcounterIdx : ℤ) :
    ℕ → Cursor → Except String (List Event)
  | 0, _ => pure []
  | n + 1, c =>
    if c.funcs = [] ∧ c.comms = [] ∧ c.counters = [] then pure []
    else do
      let (ev, c) ← c.next map correlationIDcounterIdx
      let rest ← interweave map correlationIDcounterIdx n c
      pure (ev :: rest)

/-- The events of one thread in time order. -/
def threadEvents (self : ADParser) (thr : ThreadData) (tid : ℕ) : Except String (List Event) :=
  let funcs := thr.data FUNC tid
  let comms := thr.data COMM tid
  let counters := thr.data COUNT tid
  interweave self.funcEventTypeMap self.correlationIDcounterIdx
    (funcs.length + comms.length + counters.length)
    { funcs := funcs, comms := comms, counters := counters, lastFuncEntry := 0,
      funcHasCorid := false }

/-- The valid events of the step, thread by thread and in time order within a thread. -/
def getEvents (self : ADParser) : Except String (List Event) := do
  let valid := self.validEvents FUNC ++ self.validEvents COMM ++ self.validEvents COUNT
  let thr ← valid.foldlM ThreadData.push ThreadData.empty
  let out ← thr.tids.foldlM (fun out tid => do
    let events ← self.threadEvents thr tid
    pure (out ++ events)) []
  if out.length ≠ valid.length then throw "Event insertion missed some events??"
  else pure out

end ADParser

end Chimbuko
