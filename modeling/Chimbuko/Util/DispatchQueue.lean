import Chimbuko.Library.TransitionSystem
import Chimbuko.Library.WorkQueue

/-!
# The dispatch queue

`DispatchQueue` runs operations on a pool of threads. The main thread puts operations into a queue
and wakes the workers, and at last sets the quit flag, wakes them again and joins them. The workers
wait for an operation or the flag, take the operation at the front of the queue, run it without the
lock, and leave when the flag is set and the queue is empty.

Each statement that touches what the threads share is a step of its own, and a step that needs the
lock is only possible while no other thread has it. A worker that waits may wake up without a
notification.
-/

namespace Chimbuko

open TransitionSystem WorkQueue

/-- Where a worker is in `thread_handler`. -/
inductive DispatchWorker (Op : Type)
  /-- Before it locks. -/
  | starting
  /-- Tests whether it has to wait, with the lock. -/
  | waiting
  /-- Waits for a notification. -/
  | blocked
  /-- Was woken and locks again. -/
  | notified
  /-- After the wait, with the lock. -/
  | waited
  /-- Has taken an operation, with the lock. -/
  | popped (op : Op)
  /-- Has released the lock before it runs the operation. -/
  | unlocked (op : Op)
  /-- Runs the operation. -/
  | running (op : Op)
  /-- Locks again. -/
  | relocking
  /-- Tests whether to go on, with the lock. -/
  | testing
  /-- Has left its loop. -/
  | left
deriving DecidableEq

/-- Where the main thread is. -/
inductive DispatchMain (Op : Type)
  | idle
  /-- Locks to dispatch an operation. -/
  | dispatching (op : Op)
  | pushing (op : Op)
  | pushed
  | notifying
  /-- Locks in the destructor. -/
  | destructing
  | quitting
  | quitSet
  | notifyingQuit
  /-- Joins the threads from this one on. -/
  | joining (i : ℕ)
  | destroyed
deriving DecidableEq

/-- The main thread and the workers. -/
inductive DispatchThread (n : ℕ)
  | main
  | worker (w : Fin n)
deriving DecidableEq

/-- A queue with its threads, what was dispatched, taken, started and executed so far, and who has
the lock. -/
structure DispatchQueue (Op : Type) (n : ℕ) where
  queue : List Op
  quit : Bool
  lock : Option (DispatchThread n)
  workers : Fin n → DispatchWorker Op
  main : DispatchMain Op
  dispatched : List Op
  taken : List Op
  started : List Op
  executed : List Op

/-- A call of the main thread, the next step of a thread, or a wake-up without a notification. -/
inductive DispatchAction (Op : Type) (n : ℕ)
  | dispatch (op : Op)
  | destroy
  | main
  | worker (w : Fin n)
  | wake (w : Fin n)

namespace DispatchQueue

variable {Op : Type} {n : ℕ}

/-- Lock for a thread. -/
def acquire (s : DispatchQueue Op n) (thread : DispatchThread n) :
    Except String (DispatchQueue Op n) :=
  if s.lock = none then pure { s with lock := some thread } else throw "The lock is held"

/-- Set where a worker is. -/
def setWorker (s : DispatchQueue Op n) (w : Fin n) (x : DispatchWorker Op) : DispatchQueue Op n :=
  { s with workers := Function.update s.workers w x }

/-- A worker that was notified. -/
def notify : DispatchWorker Op → DispatchWorker Op
  | .blocked => .notified
  | x => x

/-- Notify all workers. -/
def notifyAll (s : DispatchQueue Op n) : DispatchQueue Op n :=
  { s with workers := fun w => notify (s.workers w) }

/-- The next step of a worker. -/
def threadHandler (s : DispatchQueue Op n) (w : Fin n) : Except String (DispatchQueue Op n) :=
  match s.workers w with
  | .starting => do
    let s ← s.acquire (.worker w)
    pure (s.setWorker w .waiting)
  | .waiting =>
    if s.queue.length ≠ 0 ∨ s.quit = true then pure (s.setWorker w .waited)
    else pure ({ s with lock := none }.setWorker w .blocked)
  | .blocked => throw "The worker waits for a notification"
  | .notified => do
    let s ← s.acquire (.worker w)
    pure (s.setWorker w .waiting)
  | .waited =>
    if s.quit = false ∨ s.queue.length ≠ 0 then
      match s.queue with
      | [] => throw "undefined: front of an empty queue"
      | op :: rest =>
        pure ({ s with queue := rest, taken := s.taken ++ [op] }.setWorker w (.popped op))
    else pure (s.setWorker w .testing)
  | .popped op => pure ({ s with lock := none }.setWorker w (.unlocked op))
  | .unlocked op => pure ({ s with started := s.started ++ [op] }.setWorker w (.running op))
  | .running op => pure ({ s with executed := s.executed ++ [op] }.setWorker w .relocking)
  | .relocking => do
    let s ← s.acquire (.worker w)
    pure (s.setWorker w .testing)
  | .testing =>
    if s.quit = false ∨ s.queue.length ≠ 0 then pure (s.setWorker w .waiting)
    else pure ({ s with lock := none }.setWorker w .left)
  | .left => throw "The worker has left"

/-- The next step of the main thread in `dispatch` or the destructor. -/
def mainThread (s : DispatchQueue Op n) : Except String (DispatchQueue Op n) :=
  match s.main with
  | .idle => throw "The main thread is in no call"
  | .dispatching op => do
    let s ← s.acquire .main
    pure { s with main := .pushing op }
  | .pushing op =>
    pure { s with queue := s.queue ++ [op], dispatched := s.dispatched ++ [op], main := .pushed }
  | .pushed => pure { s with lock := none, main := .notifying }
  | .notifying => pure { s.notifyAll with main := .idle }
  | .destructing => do
    let s ← s.acquire .main
    pure { s with main := .quitting }
  | .quitting => pure { s with quit := true, main := .quitSet }
  | .quitSet => pure { s with lock := none, main := .notifyingQuit }
  | .notifyingQuit => pure { s.notifyAll with main := .joining 0 }
  | .joining i =>
    if hi : i < n then
      match s.workers ⟨i, hi⟩ with
      | .left => pure { s with main := .joining (i + 1) }
      | _ => throw "The thread has not finished"
    else pure { s with main := .destroyed }
  | .destroyed => throw "The queue is destroyed"

/-- What an action does. -/
def exec (s : DispatchQueue Op n) : DispatchAction Op n → Except String (DispatchQueue Op n)
  | .dispatch op =>
    match s.main with
    | .idle => pure { s with main := .dispatching op }
    | _ => throw "The main thread is in a call"
  | .destroy =>
    match s.main with
    | .idle => pure { s with main := .destructing }
    | _ => throw "The main thread is in a call"
  | .main => s.mainThread
  | .worker w => s.threadHandler w
  | .wake w =>
    match s.workers w with
    | .blocked => pure (s.setWorker w .notified)
    | _ => throw "The worker does not wait"

/-- A queue whose threads were created. -/
def start (Op : Type) (n : ℕ) : DispatchQueue Op n where
  queue := []
  quit := false
  lock := none
  workers _ := .starting
  main := .idle
  dispatched := []
  taken := []
  started := []
  executed := []

/-- The condition under which every action may be taken. -/
def Any (_ : DispatchQueue Op n) (_ : DispatchAction Op n) : Prop := True

instance (s : DispatchQueue Op n) (a : DispatchAction Op n) : Decidable (Any s a) :=
  inferInstanceAs (Decidable True)

end DispatchQueue

/-- The worker has the lock. -/
def DispatchWorker.Locked {Op : Type} : DispatchWorker Op → Prop
  | .waiting | .waited | .popped _ | .testing => True
  | _ => False

/-- The operation that a worker has taken and has not executed yet. -/
def DispatchWorker.held {Op : Type} : DispatchWorker Op → Multiset Op
  | .popped op | .unlocked op | .running op => {op}
  | _ => 0

/-- The operation that a worker has taken and has not started yet. -/
def DispatchWorker.pending {Op : Type} : DispatchWorker Op → List Op
  | .popped op | .unlocked op => [op]
  | _ => []

/-- The main thread has the lock. -/
def DispatchMain.Locked {Op : Type} : DispatchMain Op → Prop
  | .pushing _ | .pushed | .quitting | .quitSet => True
  | _ => False

/-- The main thread has set the flag. -/
def DispatchMain.Quit {Op : Type} : DispatchMain Op → Prop
  | .quitSet | .notifyingQuit | .joining _ | .destroyed => True
  | _ => False

/-- The main thread has woken the workers after it set the flag. -/
def DispatchMain.Joins {Op : Type} : DispatchMain Op → Prop
  | .joining _ | .destroyed => True
  | _ => False

namespace DispatchQueue

variable {Op : Type} {n : ℕ} {s t : DispatchQueue Op n}

/-- What the next step of a worker can be. -/
inductive WorkerStep (s : DispatchQueue Op n) (w : Fin n) : DispatchQueue Op n → Prop
  | lock (hw : s.workers w = .starting ∨ s.workers w = .notified) (hlock : s.lock = none) :
    WorkerStep s w ({ s with lock := some (.worker w) }.setWorker w .waiting)
  | proceed (hw : s.workers w = .waiting) (hready : s.queue ≠ [] ∨ s.quit = true) :
    WorkerStep s w (s.setWorker w .waited)
  | block (hw : s.workers w = .waiting) (hqueue : s.queue = []) (hquit : s.quit = false) :
    WorkerStep s w ({ s with lock := none }.setWorker w .blocked)
  | pop (hw : s.workers w = .waited) {op : Op} {rest : List Op} (hqueue : s.queue = op :: rest) :
    WorkerStep s w ({ s with queue := rest, taken := s.taken ++ [op] }.setWorker w (.popped op))
  | skip (hw : s.workers w = .waited) (hqueue : s.queue = []) (hquit : s.quit = true) :
    WorkerStep s w (s.setWorker w .testing)
  | unlock {op : Op} (hw : s.workers w = .popped op) :
    WorkerStep s w ({ s with lock := none }.setWorker w (.unlocked op))
  | run {op : Op} (hw : s.workers w = .unlocked op) :
    WorkerStep s w ({ s with started := s.started ++ [op] }.setWorker w (.running op))
  | finish {op : Op} (hw : s.workers w = .running op) :
    WorkerStep s w ({ s with executed := s.executed ++ [op] }.setWorker w .relocking)
  | relock (hw : s.workers w = .relocking) (hlock : s.lock = none) :
    WorkerStep s w ({ s with lock := some (.worker w) }.setWorker w .testing)
  | again (hw : s.workers w = .testing) :
    WorkerStep s w (s.setWorker w .waiting)
  | leave (hw : s.workers w = .testing) (hqueue : s.queue = []) (hquit : s.quit = true) :
    WorkerStep s w ({ s with lock := none }.setWorker w .left)

/-- A thread that has locked found the lock free. -/
theorem acquire_eq_ok {thread : DispatchThread n} (h : s.acquire thread = .ok t) :
    s.lock = none ∧ t = { s with lock := some thread } := by
  unfold acquire at h
  split at h
  · rename_i hlock
    cases h
    exact ⟨hlock, rfl⟩
  · cases h

/-- A queue has a length if it is not empty. -/
theorem length_ne_zero_iff {queue : List Op} : queue.length ≠ 0 ↔ queue ≠ [] :=
  not_congr List.length_eq_zero_iff

/-- A worker takes one of its steps. -/
theorem threadHandler_cases {w : Fin n} (h : s.threadHandler w = .ok t) : WorkerStep s w t := by
  unfold threadHandler at h
  split at h
  · rename_i hw
    obtain ⟨b, hacquire, h⟩ := bind_eq_ok h
    obtain ⟨hlock, rfl⟩ := acquire_eq_ok hacquire
    cases h
    exact .lock (Or.inl hw) hlock
  · rename_i hw
    split at h
    · rename_i hready
      cases h
      exact .proceed hw (hready.imp_left length_ne_zero_iff.mp)
    · rename_i hready
      rw [length_ne_zero_iff, not_or, not_not, Bool.not_eq_true] at hready
      cases h
      exact .block hw hready.1 hready.2
  · cases h
  · rename_i hw
    obtain ⟨b, hacquire, h⟩ := bind_eq_ok h
    obtain ⟨hlock, rfl⟩ := acquire_eq_ok hacquire
    cases h
    exact .lock (Or.inr hw) hlock
  · rename_i hw
    split at h
    · split at h
      · cases h
      · rename_i hqueue
        cases h
        exact .pop hw hqueue
    · rename_i hready
      rw [length_ne_zero_iff, not_or, not_not, Bool.not_eq_false] at hready
      cases h
      exact .skip hw hready.2 hready.1
  · rename_i hw
    cases h
    exact .unlock hw
  · rename_i hw
    cases h
    exact .run hw
  · rename_i hw
    cases h
    exact .finish hw
  · rename_i hw
    obtain ⟨b, hacquire, h⟩ := bind_eq_ok h
    obtain ⟨hlock, rfl⟩ := acquire_eq_ok hacquire
    cases h
    exact .relock hw hlock
  · rename_i hw
    split at h
    · cases h
      exact .again hw
    · rename_i hready
      rw [length_ne_zero_iff, not_or, not_not, Bool.not_eq_false] at hready
      cases h
      exact .leave hw hready.2 hready.1
  · cases h

/-- What the next step of the main thread can be. -/
inductive MainStep (s : DispatchQueue Op n) : DispatchQueue Op n → Prop
  | lock {op : Op} (hmain : s.main = .dispatching op) (hlock : s.lock = none) :
    MainStep s { s with lock := some .main, main := .pushing op }
  | push {op : Op} (hmain : s.main = .pushing op) :
    MainStep s
      { s with queue := s.queue ++ [op], dispatched := s.dispatched ++ [op], main := .pushed }
  | unlock (hmain : s.main = .pushed) :
    MainStep s { s with lock := none, main := .notifying }
  | notify (hmain : s.main = .notifying) : MainStep s { s.notifyAll with main := .idle }
  | lockQuit (hmain : s.main = .destructing) (hlock : s.lock = none) :
    MainStep s { s with lock := some .main, main := .quitting }
  | quit (hmain : s.main = .quitting) : MainStep s { s with quit := true, main := .quitSet }
  | unlockQuit (hmain : s.main = .quitSet) :
    MainStep s { s with lock := none, main := .notifyingQuit }
  | notifyQuit (hmain : s.main = .notifyingQuit) :
    MainStep s { s.notifyAll with main := .joining 0 }
  | join {i : ℕ} (hmain : s.main = .joining i) {hi : i < n} (hw : s.workers ⟨i, hi⟩ = .left) :
    MainStep s { s with main := .joining (i + 1) }
  | destroy {i : ℕ} (hmain : s.main = .joining i) (hi : n ≤ i) :
    MainStep s { s with main := .destroyed }

/-- The main thread takes one of its steps. -/
theorem mainThread_cases (h : s.mainThread = .ok t) : MainStep s t := by
  unfold mainThread at h
  split at h
  · cases h
  · rename_i hmain
    obtain ⟨b, hacquire, h⟩ := bind_eq_ok h
    obtain ⟨hlock, rfl⟩ := acquire_eq_ok hacquire
    cases h
    exact .lock hmain hlock
  · rename_i hmain
    cases h
    exact .push hmain
  · rename_i hmain
    cases h
    exact .unlock hmain
  · rename_i hmain
    cases h
    exact .notify hmain
  · rename_i hmain
    obtain ⟨b, hacquire, h⟩ := bind_eq_ok h
    obtain ⟨hlock, rfl⟩ := acquire_eq_ok hacquire
    cases h
    exact .lockQuit hmain hlock
  · rename_i hmain
    cases h
    exact .quit hmain
  · rename_i hmain
    cases h
    exact .unlockQuit hmain
  · rename_i hmain
    cases h
    exact .notifyQuit hmain
  · rename_i hmain
    split at h
    · split at h
      · rename_i hw
        cases h
        exact .join hmain hw
      · cases h
    · rename_i hi
      cases h
      exact .destroy hmain (Nat.le_of_not_lt hi)
  · cases h

end DispatchQueue

end Chimbuko
