import Chimbuko.AD.Event
import Mathlib.Data.Rat.Defs

/-!
# Execution data

`ExecData_t` records one function call: its interval, its place in the call stack, the messages
and counters that belong to it, the label that the anomaly detection gives it, and what the
garbage collection of the event manager needs. The times of a call are of type `long`, those of
events are unsigned, and comparisons are made after a cast. Differences of times that do not fit
into a `long`, whose computation is undefined, are not cut off.
-/

namespace Chimbuko

/-- A communication event. -/
structure CommData where
  commType : String
  pid : ℕ
  rid : ℕ
  tid : ℕ
  src : ℕ
  tar : ℕ
  bytes : ℕ
  tag : ℕ
  ts : ℕ
  execkey : EventID
deriving DecidableEq

/-- A `"SEND"` or `"RECV"` event. -/
def CommData.ofEvent (ev : Event) (commType : String) : CommData where
  commType := commType
  pid := ev.pid
  rid := ev.rid
  tid := ev.tid
  src := if commType = "SEND" then ev.rid else ev.partner
  tar := if commType = "SEND" then ev.partner else ev.rid
  bytes := ev.bytes
  tag := ev.tag
  ts := ev.ts
  execkey := { rank := 0, step := 0, idx := 0 }

/-- A counter event. -/
structure CounterData where
  countername : String
  pid : ℕ
  rid : ℕ
  tid : ℕ
  cid : ℕ
  value : ℕ
  ts : ℕ
  execkey : EventID
deriving DecidableEq

/-- The data of a counter event. -/
def CounterData.ofEvent (ev : Event) (countername : String) : CounterData where
  countername := countername
  pid := ev.pid
  rid := ev.rid
  tid := ev.tid
  cid := ev.counterId
  value := ev.counterValue
  ts := ev.ts
  execkey := { rank := 0, step := 0, idx := 0 }

/-- A function call. The label is 1 for normal, -1 for anomalous and 0 for unlabeled calls, and
the exit time of a call that has not ended is 0. -/
structure ExecData where
  id : EventID
  funcname : String
  pid : ℕ
  tid : ℕ
  rid : ℕ
  fid : ℕ
  entry : ℤ
  exit : ℤ
  runtime : ℤ
  exclusive : ℤ
  label : ℤ
  score : ℚ
  parent : EventID
  nChildren : ℕ
  nMessages : ℕ
  messages : List CommData
  counters : List CounterData
  references : ℕ
  gpuCorrelationIDpartner : List EventID
deriving DecidableEq

namespace ExecData

/-- The thread of a call. -/
def thread (d : ExecData) : Thread := { pid := d.pid, rid := d.rid, tid := d.tid }

/-- A call that starts with a function event. -/
def ofEvent (ev : Event) : ExecData where
  id := ev.id
  funcname := ""
  pid := ev.pid
  tid := ev.tid
  rid := ev.rid
  fid := ev.fid
  entry := toLong ev.ts
  exit := 0
  runtime := 0
  exclusive := 0
  label := 0
  score := -1
  parent := EventID.root
  nChildren := 0
  nMessages := 0
  messages := []
  counters := []
  references := 0
  gpuCorrelationIDpartner := []

instance : Inhabited ExecData :=
  ⟨ofEvent { data := [], type := .FUNC, idx := 0, id := { rank := 0, step := 0, idx := 0 } }⟩

/-- End a call. The runtimes of its children have been subtracted from the exclusive time. -/
def updateExitAt (d : ExecData) (exit : ℕ) : ExecData :=
  let runtime := toLong exit - d.entry
  { d with exit := toLong exit, runtime := runtime, exclusive := d.exclusive + runtime }

/-- End a call with its exit event, unless that is of another function or too early. -/
def updateExit (d : ExecData) (ev : Event) : Option ExecData :=
  if d.fid ≠ ev.fid ∨ toLong ev.ts < d.entry then none else some (d.updateExitAt ev.ts)

/-- Subtract the runtime of a child. -/
def updateExclusive (d : ExecData) (t : ℤ) : ExecData := { d with exclusive := d.exclusive - t }

/-- Count a child. -/
def incNChildren (d : ExecData) : ExecData := { d with nChildren := d.nChildren + 1 }

/-- Label a call. -/
def setLabel (d : ExecData) (label : ℤ) : ExecData := { d with label := label }

/-- Set the outlier score of a call. -/
def setOutlierScore (d : ExecData) (score : ℚ) : ExecData := { d with score := score }

/-- Put a message in front of the others, if it is within the call's interval. -/
def addMessage (d : ExecData) (comm : CommData) : ExecData :=
  if toLong comm.ts < d.entry ∨ d.exit < toLong comm.ts then d
  else { d with messages := { comm with execkey := d.id } :: d.messages
                nMessages := d.nMessages + 1 }

/-- Put a counter in front of the others, if it is within the call's interval. -/
def addCounter (d : ExecData) (counter : CounterData) : ExecData :=
  if toLong counter.ts < d.entry ∨ d.exit < toLong counter.ts then d
  else { d with counters := { counter with execkey := d.id } :: d.counters }

/-- Whether the garbage collection may delete the call. -/
def canDelete (d : ExecData) : Bool := d.references = 0 ∧ d.label ≠ 0

/-- Register an external reference. -/
def registerReference (d : ExecData) : ExecData := { d with references := d.references + 1 }

/-- Take an external reference back, if there is one. -/
def deregisterReference (d : ExecData) : Except String ExecData :=
  if d.references = 0 then
    throw "Attempting to deregister and event whose external reference count is 0!"
  else pure { d with references := d.references - 1 }

/-- Add a partner with the same correlation identifier. -/
def setGPUcorrelationIDpartner (d : ExecData) (eventId : EventID) : ExecData :=
  { d with gpuCorrelationIDpartner := d.gpuCorrelationIDpartner ++ [eventId] }

end ExecData

end Chimbuko
