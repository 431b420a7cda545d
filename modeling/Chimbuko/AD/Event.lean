import Mathlib.Algebra.Ring.Int.Defs
import Mathlib.Algebra.Ring.Nat
import Mathlib.Data.Int.Basic
import Mathlib.Data.List.GetD

/-!
# Trace events

`Event_t` wraps one row of raw trace data; where a field lies in the row depends on the type of
the event. Rows hold unsigned integers, which are cast to `int` where they serve as indices and to
`long` where they serve as times of a call.
-/

namespace Chimbuko

/-- A unique descriptor for an event: the rank, the step, and the index within the step. -/
structure EventID where
  rank : ℤ
  step : ℤ
  idx : ℤ
deriving DecidableEq

/-- The special root event. -/
def EventID.root : EventID := { rank := -1, step := -1, idx := -1 }

/-- The cast of an unsigned integer to `int`. -/
def toInt (n : ℕ) : ℤ :=
  let r := n % 4294967296
  if r < 2147483648 then r else (r : ℤ) - 4294967296

/-- The cast of an unsigned long to `long`. -/
def toLong (n : ℕ) : ℤ :=
  let r := n % 18446744073709551616
  if r < 9223372036854775808 then r else (r : ℤ) - 18446744073709551616

/-- The conversion of a signed integer to an unsigned long. -/
def toUnsignedLong (z : ℤ) : ℕ := (z % 2 ^ 64).toNat

/-- What fits into a `long` keeps its value. -/
theorem toLong_of_lt {n : ℕ} (hn : n < 2 ^ 63) : toLong n = n := by
  simp only [toLong]
  split <;> omega

/-- Casting an unsigned long to `long` and back gives it again. -/
theorem toUnsignedLong_toLong {n : ℕ} (hn : n < 2 ^ 64) : toUnsignedLong (toLong n) = n := by
  simp only [toUnsignedLong, toLong]
  split <;> omega

/-- Casting keeps what is in an interval in it, if it keeps the order of the interval's ends. -/
theorem toLong_between {m n k : ℕ} (hmn : m ≤ n) (hnk : n ≤ k) (hk : k < 2 ^ 64)
    (h : toLong m ≤ toLong k) : toLong m ≤ toLong n ∧ toLong n ≤ toLong k := by
  simp only [toLong] at *
  split_ifs at * <;> omega

/-- The types of events. -/
inductive EventDataType
  | FUNC
  | COMM
  | COUNT
deriving DecidableEq

namespace EventDataType

/-- The length of a row: `FUNC_EVENT_DIM`, `COMM_EVENT_DIM` and `COUNTER_EVENT_DIM`. -/
def dim : EventDataType → ℕ
  | FUNC => 6
  | COMM => 8
  | COUNT => 6

/-- The position of the timestamp: `FUNC_IDX_TS`, `COMM_IDX_TS` and `COUNTER_IDX_TS`. -/
def idxTs : EventDataType → ℕ
  | FUNC => 5
  | COMM => 7
  | COUNT => 5

end EventDataType

/-- What a function event does. -/
inductive FuncEventType
  | ENTRY
  | EXIT
  | NA
deriving DecidableEq

/-- A program, rank and thread. -/
structure Thread where
  pid : ℕ
  rid : ℕ
  tid : ℕ
deriving DecidableEq

/-- A row of raw data, the type of event it describes, its index and its identifier. -/
structure Event where
  data : List ℕ
  type : EventDataType
  idx : ℕ
  id : EventID
deriving DecidableEq

namespace Event

/-- The program of an event. -/
def pid (ev : Event) : ℕ := ev.data.getD 0 0

/-- The rank of an event. -/
def rid (ev : Event) : ℕ := ev.data.getD 1 0

/-- The thread index of an event. -/
def tid (ev : Event) : ℕ := ev.data.getD 2 0

/-- The thread of an event. -/
def thread (ev : Event) : Thread := { pid := ev.pid, rid := ev.rid, tid := ev.tid }

/-- The timestamp of an event. -/
def ts (ev : Event) : ℕ := ev.data.getD ev.type.idxTs 0

/-- The event type index of a function or communication event. -/
def eid (ev : Event) : ℕ := ev.data.getD 3 0

/-- The function index of a function event. -/
def fid (ev : Event) : ℕ := ev.data.getD 4 0

/-- The tag of a communication event. -/
def tag (ev : Event) : ℕ := ev.data.getD 4 0

/-- The partner of a communication event. -/
def partner (ev : Event) : ℕ := ev.data.getD 5 0

/-- The number of bytes of a communication event. -/
def bytes (ev : Event) : ℕ := ev.data.getD 6 0

/-- The counter index of a counter event. -/
def counterId (ev : Event) : ℕ := ev.data.getD 3 0

/-- The value of a counter event. -/
def counterValue (ev : Event) : ℕ := ev.data.getD 4 0

end Event

end Chimbuko
