import Chimbuko.Library.TransitionSystem
import Chimbuko.Library.WorkQueue

/-!
# The threaded network client

`ADThreadNetClient` performs the actions of its callers on a thread of its own. An action of which
the caller waits for the end lives on the caller's stack, the others are deleted by the worker. The
worker reads the size of the queue, takes and performs actions until it reads that the queue is
empty, and leaves when an action has told it to shut down.

Each access to what the threads share is a step of its own. The client that the worker performs the
actions with is any whose operations return. A use of an action after its end is an error of the
model.
-/

namespace Chimbuko

open TransitionSystem WorkQueue

/-- A client of the network, whose operations return. -/
structure NetClient where
  State : Type
  connectPs : State → ℤ → ℤ → String → State
  usePs : State → Bool
  disconnectPs : State → State
  sendAndReceive : State → String → State × String
  setRecvTimeout : State → ℤ → State

/-- What the client's thread is told to do. -/
inductive ClientAction
  | connect (rank srank : ℤ) (sname : String)
  | disconnect
  | stopWorker
  | wait (waitMs : ℕ)
  | blockingSendReceive (send : String)
  | asyncSend (send : String)
  | setRecvTimeout (timeout : ℤ)
deriving DecidableEq

/-- What an action leaves for the caller. -/
inductive ActionResult
  | nothing
  | connected (connected : Bool)
  | received (recv : String)
deriving DecidableEq

namespace ClientAction

/-- Whether the worker deletes the action. -/
def doDelete : ClientAction → Bool
  | .connect _ _ _ | .disconnect | .stopWorker | .blockingSendReceive _ => false
  | .wait _ | .asyncSend _ | .setRecvTimeout _ => true

/-- Whether the worker shuts down. -/
def shutdownWorker : ClientAction → Bool
  | .stopWorker => true
  | _ => false

/-- Whether the caller waits, and is notified at the end of the action. -/
def blocking : ClientAction → Bool
  | .connect _ _ _ | .disconnect | .stopWorker | .blockingSendReceive _ => true
  | .wait _ | .asyncSend _ | .setRecvTimeout _ => false

/-- What the action holds for the caller before it is performed. -/
def initialResult : ClientAction → ActionResult
  | .connect _ _ _ => .connected false
  | .blockingSendReceive _ => .received ""
  | _ => .nothing

/-- Perform an action with a client. -/
def perform (client : NetClient) (state : client.State) :
    ClientAction → client.State × ActionResult
  | .connect rank srank sname =>
    let state := client.connectPs state rank srank sname
    (state, .connected (client.usePs state))
  | .disconnect => (client.disconnectPs state, .nothing)
  | .stopWorker => (state, .nothing)
  | .wait _ => (state, .nothing)
  | .blockingSendReceive send =>
    let (state, recv) := client.sendAndReceive state send
    (state, .received recv)
  | .asyncSend send => ((client.sendAndReceive state send).1, .nothing)
  | .setRecvTimeout timeout => (client.setRecvTimeout state timeout, .nothing)

end ClientAction

/-- An action that was enqueued, told apart by the number of those enqueued before. -/
structure ClientObject where
  id : ℕ
  action : ClientAction
deriving DecidableEq

/-- The memory of an action. -/
structure ClientMemory where
  complete : Bool
  result : ActionResult
deriving DecidableEq

/-- Where the worker is in its loop. -/
inductive ClientWorker
  | starting
  /-- Reads the size of the queue. -/
  | reading
  /-- Has read the size. -/
  | polled (nwork : ℕ)
  | taking
  /-- Asks whether to shut down and whether to delete the action. -/
  | asking (obj : ClientObject)
  | performing (obj : ClientObject) (doDelete : Bool)
  | notifying (obj : ClientObject) (doDelete : Bool)
  | deleting (obj : ClientObject) (doDelete : Bool)
  | exiting
  | exited
deriving DecidableEq

/-- Where the caller is. -/
inductive ClientMain
  | constructing
  | ready
  | waiting (obj : ClientObject)
  /-- Has seen the worker running and is to enqueue the stop. -/
  | stopping
  | joining
  | finished
deriving DecidableEq

/-- The shared state, the threads, and what was enqueued, performed and returned so far. -/
structure ADThreadNetClient (client : NetClient) where
  queue : List ClientObject
  isRunning : Bool
  objects : ℕ → Option ClientMemory
  state : client.State
  shutdown : Bool
  worker : ClientWorker
  main : ClientMain
  enqueued : List ClientObject
  performed : List (ClientObject × ActionResult)
  returned : List (ClientObject × ActionResult)

/-- A call, the next step of the caller in it, or the next step of the worker. -/
inductive ClientStep
  | call (action : ClientAction)
  | stopWorkerThread
  | main
  | worker

namespace ADThreadNetClient

variable {client : NetClient}

/-- The memory of an action that was not destroyed. -/
def memory (s : ADThreadNetClient client) (obj : ClientObject) : Except String ClientMemory :=
  match s.objects obj.id with
  | none => throw "undefined: action used after it was destroyed"
  | some o => pure o

/-- Set the memory of an object. -/
def setMemory (s : ADThreadNetClient client) (obj : ClientObject) (o : Option ClientMemory) :
    ADThreadNetClient client :=
  { s with objects := Function.update s.objects obj.id o }

/-- Enqueue a new action. -/
def enqueueAction (s : ADThreadNetClient client) (action : ClientAction) :
    Except String (ClientObject × ADThreadNetClient client) :=
  if s.isRunning = false then
    throw "Cannot enqueue an action if the worker thread is not running!"
  else
    let obj : ClientObject := { id := s.enqueued.length, action := action }
    let s := s.setMemory obj (some { complete := false, result := action.initialResult })
    pure (obj, { s with queue := s.queue ++ [obj], enqueued := s.enqueued ++ [obj] })

/-- The next step of the worker. -/
def run (s : ADThreadNetClient client) : Except String (ADThreadNetClient client) :=
  match s.worker with
  | .starting => pure { s with isRunning := true, worker := .reading }
  | .reading => pure { s with worker := .polled s.queue.length }
  | .polled nwork =>
    if 0 < nwork then pure { s with worker := .taking }
    else if s.shutdown = true then
      if 0 < nwork then throw "Worker was shut down before emptying its queue!"
      else pure { s with worker := .exiting }
    else pure { s with worker := .reading }
  | .taking =>
    match s.queue with
    | [] => throw "undefined: front of an empty queue"
    | obj :: rest => pure { s with queue := rest, worker := .asking obj }
  | .asking obj => do
    let _ ← s.memory obj
    pure { s with
      shutdown := s.shutdown || obj.action.shutdownWorker
      worker := .performing obj obj.action.doDelete }
  | .performing obj doDelete => do
    let o ← s.memory obj
    let (state, result) := obj.action.perform client s.state
    let s := s.setMemory obj (some { o with result := result })
    pure { s with
      state := state
      performed := s.performed ++ [(obj, result)]
      worker := if obj.action.blocking then .notifying obj doDelete else .deleting obj doDelete }
  | .notifying obj doDelete => do
    let o ← s.memory obj
    let s := s.setMemory obj (some { o with complete := true })
    pure { s with worker := .deleting obj doDelete }
  | .deleting obj doDelete =>
    if doDelete then do
      let _ ← s.memory obj
      let s := s.setMemory obj none
      pure { s with worker := .reading }
    else pure { s with worker := .reading }
  | .exiting => pure { s with isRunning := false, worker := .exited }
  | .exited => throw "The worker has exited"

/-- The next step of the caller. -/
def caller (s : ADThreadNetClient client) : Except String (ADThreadNetClient client) :=
  match s.main with
  | .constructing =>
    if s.isRunning = true then pure { s with main := .ready } else throw "The worker is starting"
  | .ready => throw "The caller is in no call"
  | .waiting obj => do
    let o ← s.memory obj
    if o.complete = true then
      let s := s.setMemory obj none
      pure { s with
        returned := s.returned ++ [(obj, o.result)]
        main := if obj.action.shutdownWorker then .joining else .ready }
    else throw "The action is not complete"
  | .stopping => do
    let (obj, s) ← s.enqueueAction .stopWorker
    pure { s with main := .waiting obj }
  | .joining =>
    if s.worker = .exited then pure { s with main := .finished } else throw "The worker is running"
  | .finished => throw "The worker was stopped"

/-- What a step does. -/
def exec (s : ADThreadNetClient client) : ClientStep → Except String (ADThreadNetClient client)
  | .call action =>
    if s.main ≠ .ready then throw "The caller is in a call"
    else if action.shutdownWorker then throw "The worker is stopped by a call of its own"
    else do
      let (obj, s) ← s.enqueueAction action
      if action.blocking then pure { s with main := .waiting obj } else pure s
  | .stopWorkerThread =>
    if s.main ≠ .ready then throw "The caller is in a call"
    else if s.isRunning = true then pure { s with main := .stopping }
    else pure { s with main := .finished }
  | .main => s.caller
  | .worker => s.run

/-- A client whose constructor has created the worker. -/
def start (client : NetClient) (state : client.State) : ADThreadNetClient client where
  queue := []
  isRunning := false
  objects _ := none
  state := state
  shutdown := false
  worker := .starting
  main := .constructing
  enqueued := []
  performed := []
  returned := []

/-- The condition under which every step may be taken. -/
def Any (_ : ADThreadNetClient client) (_ : ClientStep) : Prop := True

instance (s : ADThreadNetClient client) (a : ClientStep) : Decidable (Any s a) :=
  inferInstanceAs (Decidable True)

end ADThreadNetClient

/-- Perform one action after the other, with their results. -/
def NetClient.performAll (client : NetClient) (state : client.State) :
    List ClientObject → client.State × List (ClientObject × ActionResult)
  | [] => (state, [])
  | obj :: rest =>
    let (next, result) := obj.action.perform client state
    let (last, results) := client.performAll next rest
    (last, (obj, result) :: results)

end Chimbuko
