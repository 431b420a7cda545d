import Chimbuko.Library.RequestReply
import Chimbuko.Library.TransitionSystem
import Mathlib.Algebra.BigOperators.Group.Finset.Basic
import Mathlib.Data.PNat.Defs

/-!
# The ZMQ network

Clients send requests to the server and wait for the reply to each. The router of the server passes
requests on to a pool of worker threads and replies back to the clients, a bounded number of
messages at a time, and counts what is outstanding. A worker acts on a request before its reply is
on its way. The clients that have registered are counted by the workers, and the router leaves its
loop when none is left and nothing is outstanding.

A message has three parts, of which the second is empty. Messages that are under way may overtake
each other.
-/

namespace Chimbuko

open RequestReply TransitionSystem

/-- What a client asks for. -/
inductive NetRequest
  | handshake
  | disconnect
  | remoteStop
  | other
deriving DecidableEq

/-- A request, or the reply to a request, with the size of its body, which is not empty. -/
structure NetMessage where
  client : ℕ
  request : NetRequest
  size : ℕ+
deriving DecidableEq

/-- A part of a message. -/
inductive MessagePart
  | identity (client : ℕ)
  | delimiter
  | body (request : NetRequest) (size : ℕ+)

/-- The number of bytes of a part. -/
def MessagePart.len : MessagePart → ℕ
  | .identity _ => 5
  | .delimiter => 0
  | .body _ size => size

/-- The parts of a message on the server. -/
def NetMessage.parts (m : NetMessage) : List MessagePart :=
  [.identity m.client, .delimiter, .body m.request m.size]

/-- The message that some parts make. -/
def assemble : List MessagePart → Option NetMessage
  | [.identity client, .delimiter, .body request size] => some ⟨client, request, size⟩
  | _ => none

/-- A call of `recvAndSend`. -/
structure RecvAndSend where
  /-- The parts of the message being routed that are still to be received. -/
  incoming : List MessagePart
  /-- Its parts that were sent. -/
  outgoing : List MessagePart
  msgCount : ℕ
  /-- The message being routed. -/
  current : Option NetMessage
  /-- The messages that this call has routed. -/
  moved : List NetMessage

namespace RecvAndSend

/-- No part was moved yet. -/
def start : RecvAndSend :=
  { incoming := [], outgoing := [], msgCount := 0, current := none, moved := [] }

/-- Send a part on to a socket. -/
def sendPart (dest : List NetMessage) (r : RecvAndSend) :
    List MessagePart → List NetMessage × RecvAndSend
  | [] => (dest, r)
  | msg :: rest =>
    let more := rest ≠ []
    let msgCount := if more then r.msgCount else r.msgCount + 1
    let outgoing := if more ∨ msg.len ≠ 0 then r.outgoing ++ [msg] else r.outgoing
    if more then (dest, { r with incoming := rest, outgoing := outgoing, msgCount := msgCount })
    else
      match assemble outgoing with
      | some m => (dest ++ [m],
          { incoming := [], outgoing := [], msgCount := msgCount, current := none
            moved := r.moved ++ [m] })
      | none => (dest, { r with incoming := [], outgoing := outgoing, msgCount := msgCount })

/-- One pass of the loop: receive a part, and send it on. -/
def recvPart (maxMsg : ℕ) (queue dest : List NetMessage) (r : RecvAndSend) (index : ℕ) :
    Except String (List NetMessage × List NetMessage × RecvAndSend) :=
  if r.msgCount < maxMsg then
    match r.incoming with
    | [] =>
      match queue[index]? with
      | none => throw "no such message"
      | some m =>
        let sent := sendPart dest { r with current := some m } m.parts
        pure (queue.eraseIdx index, sent.1, sent.2)
    | msg :: rest =>
      let sent := sendPart dest r (msg :: rest)
      pure (queue, sent.1, sent.2)
  else throw "enough messages"

end RecvAndSend

/-- Why the server ends. -/
inductive NetStatus
  | stoppedByRequest
  | stoppedAutomatically
  | stoppedByTimeOut
  | stoppedBySignal
  | stoppedByError

/-- Where the router is in its loop. -/
inductive ZmqRouter
  | test
  /-- Whether all clients have disconnected and the server may stop then. -/
  | queueTest (clientsGone : Bool)
  | poll
  | backToFront (r : RecvAndSend) (front stop : Bool)
  | frontToBack (r : RecvAndSend) (stop : Bool)
  /-- It has left the loop because all clients were gone and nothing was outstanding. -/
  | finished (status : NetStatus)
  | stopped (status : NetStatus)

/-- A worker thread waits for a request, has received one, or has a reply to it. -/
inductive ZmqWorker
  | idle
  | received (m : NetMessage)
  | replying (m : NetMessage)

/-- A client with the messages that it has not received yet. -/
structure ZmqClient where
  sent : List NetRequest
  waiting : Bool

/-- The clients, the queues, the router and the workers. -/
structure ZMQNet where
  client : ℕ → ZmqClient
  toFrontend : List NetMessage
  toWorkers : List NetMessage
  worker : ℕ → ZmqWorker
  toBackend : List NetMessage
  toClients : List NetMessage
  clients : ℤ
  clientHasConnected : Bool
  remoteStopCmd : Bool
  /-- A worker found that the number of clients is negative. -/
  fatalError : Bool
  nRequests : ℤ
  router : ZmqRouter
  /-- The requests on which workers have acted. -/
  acted : List (ℕ × NetRequest)
  /-- The requests that completed calls of `recvAndSend` have forwarded. -/
  forwarded : List NetMessage
  /-- The replies that completed calls of `recvAndSend` have routed back. -/
  routed : List NetMessage

/-- What a client, a worker or the router does next. -/
inductive ZmqAction
  | clientSend (m : NetMessage)
  | clientRecv (index : ℕ)
  | workerRecv (w index : ℕ)
  | workerAct (w : ℕ) (size : ℕ+)
  | workerSend (w : ℕ)
  | testClients
  | testQueue
  | pollReady (back front stop : Bool)
  | pollFailed (status : NetStatus)
  | recvPart (index : ℕ)
  /-- No message is left for the call under way, or it has routed enough. -/
  | recvAndSendReturn

namespace ZMQNet

/-- Nothing was sent yet. -/
def start : ZMQNet :=
  { client := fun _ => ⟨[], false⟩, toFrontend := [], toWorkers := [], worker := fun _ => .idle
    toBackend := [], toClients := [], clients := 0, clientHasConnected := false
    remoteStopCmd := false, fatalError := false, nRequests := 0, router := .test, acted := []
    forwarded := [], routed := [] }

/-- A client begins with a handshake, and ends when it disconnects. -/
def mayRequest (sent : List NetRequest) (r : NetRequest) : Bool :=
  match sent.getLast? with
  | none => r = .handshake
  | some .disconnect => false
  | some _ => r ≠ .handshake

/-- A worker acts on a request. -/
def performAction (s : ZMQNet) : NetRequest → ZMQNet
  | .handshake => { s with clients := s.clients + 1, clientHasConnected := true }
  | .disconnect =>
    { s with
      clients := s.clients - 1, fatalError := s.fatalError || decide (s.clients - 1 < 0) }
  | .remoteStop => { s with remoteStopCmd := true }
  | .other => s

/-- The router goes on after the messages from the clients. -/
def afterFront (stop : Bool) : ZmqRouter := if stop then .stopped .stoppedByRequest else .test

/-- The router goes on after the messages from the workers. -/
def afterBack (front stop : Bool) : ZmqRouter :=
  if front then .frontToBack RecvAndSend.start stop else afterFront stop

/-- One step of the server with `nt` workers and its clients. -/
def exec (nt maxMsg : ℕ) (autoshutdown : Bool) (s : ZMQNet) : ZmqAction → Except String ZMQNet
  | .clientSend m =>
    let c := s.client m.client
    if c.waiting = false ∧ mayRequest c.sent m.request then
      pure { s with
        client := Function.update s.client m.client ⟨c.sent ++ [m.request], true⟩
        toFrontend := s.toFrontend ++ [m] }
    else throw "the client may not send this"
  | .clientRecv index =>
    match s.toClients[index]? with
    | some m => pure { s with
        client := Function.update s.client m.client ⟨(s.client m.client).sent, false⟩
        toClients := s.toClients.eraseIdx index }
    | none => throw "no such message"
  | .workerRecv w index =>
    match s.worker w, s.toWorkers[index]? with
    | .idle, some m =>
      if w < nt then
        pure { s with
          worker := Function.update s.worker w (.received m)
          toWorkers := s.toWorkers.eraseIdx index }
      else throw "no such worker"
    | _, _ => throw "no such message"
  | .workerAct w size =>
    match s.worker w with
    | .received m =>
      if w < nt then
        pure { s.performAction m.request with
          worker := Function.update s.worker w (.replying { m with size := size })
          acted := s.acted ++ [(m.client, m.request)] }
      else throw "no such worker"
    | _ => throw "no request"
  | .workerSend w =>
    match s.worker w with
    | .replying m =>
      if w < nt then
        pure { s with
          worker := Function.update s.worker w .idle
          toBackend := s.toBackend ++ [m] }
      else throw "no such worker"
    | _ => throw "no reply"
  | .testClients =>
    match s.router with
    | .test =>
      let clientsGone :=
        (autoshutdown || s.remoteStopCmd) && s.clientHasConnected && decide (s.clients = 0)
      pure { s with router := .queueTest clientsGone }
    | _ => throw "out of turn"
  | .testQueue =>
    match s.router with
    | .queueTest clientsGone =>
      if clientsGone = true ∧ s.nRequests = 0 then
        let status := if s.remoteStopCmd then NetStatus.stoppedByRequest else .stoppedAutomatically
        pure { s with router := .finished status }
      else pure { s with router := .poll }
    | _ => throw "out of turn"
  | .pollReady back front stop =>
    match s.router with
    | .poll =>
      if (back = true → s.toBackend ≠ []) ∧ (front = true → s.toFrontend ≠ []) then
        let router :=
          if back then .backToFront RecvAndSend.start front stop else afterBack front stop
        pure { s with router := router }
      else throw "no message"
    | _ => throw "out of turn"
  | .pollFailed status =>
    match s.router with
    | .poll => pure { s with router := .stopped status }
    | _ => throw "out of turn"
  | .recvPart index =>
    match s.router with
    | .backToFront r front stop => do
      let (toBackend, toClients, r) ← r.recvPart maxMsg s.toBackend s.toClients index
      pure { s with
        toBackend := toBackend, toClients := toClients, router := .backToFront r front stop }
    | .frontToBack r stop => do
      let (toFrontend, toWorkers, r) ← r.recvPart maxMsg s.toFrontend s.toWorkers index
      pure { s with
        toFrontend := toFrontend, toWorkers := toWorkers, router := .frontToBack r stop }
    | _ => throw "out of turn"
  | .recvAndSendReturn =>
    match s.router with
    | .backToFront r front stop =>
      if r.incoming = [] then
        pure { s with
          nRequests := s.nRequests - r.msgCount
          routed := s.routed ++ r.moved
          router := afterBack front stop }
      else throw "within a message"
    | .frontToBack r stop =>
      if r.incoming = [] then
        pure { s with
          nRequests := s.nRequests + r.msgCount
          forwarded := s.forwarded ++ r.moved
          router := afterFront stop }
      else throw "within a message"
    | _ => throw "out of turn"

/-- The runs of a server with `nt` workers and its clients. -/
abbrev Reaches (nt maxMsg : ℕ) (autoshutdown : Bool) (s t : ZMQNet) : Prop :=
  Runs (StepOf (exec nt maxMsg autoshutdown)) (fun _ _ => True) s t

end ZMQNet

end Chimbuko
