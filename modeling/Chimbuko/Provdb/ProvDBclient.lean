import Chimbuko.Library.Presence
import Chimbuko.Provdb.ProvDBadmin

/-!
# Clients of the provenance database

A `ProvDBclient` stores records in the database of a server instance, either waiting for the reply
or not. Before it says goodbye it waits for the replies to all stores whose requests it manages
itself; the requests of the other ones are the caller's.

An instance of the server, its clients and its committer take steps in any order, and the messages
between them may be under way for any time. What arrives after the server has left its wait loop
is not handled any more.
-/

namespace Chimbuko

open Presence

/-- The classes of clients. -/
inductive ProvDBclientKind
  | adProvenance (rank : ℤ)
  | psGlobalProvenance
  | psShardProvenance

/-- What a client says hello as. A client of a shard says nothing. -/
def ProvDBclientKind.party : ProvDBclientKind → Option ProvDBparty
  | .adProvenance rank => some (.client rank)
  | .psGlobalProvenance => some .pserver
  | .psShardProvenance => none

/-- The clients of an instance, where those that say hello do so as different parties. -/
structure ProvDBclients (ι : Type) where
  kind : ι → ProvDBclientKind
  performHandshake : ι → Bool
  collectionNames : ι → List String
  distinct : ∀ c d, performHandshake c = true → performHandshake d = true →
    (kind c).party ≠ none → (kind c).party = (kind d).party → c = d

variable {ι : Type}

/-- What a client, or the committer, says hello as. -/
def ProvDBclients.party (cs : ProvDBclients ι) : Option ι → Option ProvDBparty
  | none => some .committer
  | some c => if cs.performHandshake c then (cs.kind c).party else none

/-- A JSON value. -/
structure JsonEntry where
  isObject : Bool
  dump : String

/-- A request to store entries, and whether the client waits for it before it says goodbye. -/
structure StoreRequest (ι : Type) where
  id : ℕ
  client : ι
  collection : String
  entries : List String
  awaited : Bool
deriving DecidableEq

/-- What a client is doing. -/
inductive ProvDBclientPhase
  | free
  /-- It waits for the reply to a store. -/
  | storing (id : ℕ)
  /-- It waits for all outstanding requests, perhaps in order to disconnect. -/
  | waitAll (disconnecting : Bool)
deriving DecidableEq

/-- A client of the server. -/
structure ProvDBclient where
  isConnected : Bool
  /-- The requests that the client manages itself. -/
  outstanding : List ℕ
  phase : ProvDBclientPhase

/-- A client that has not connected. -/
def ProvDBclient.new : ProvDBclient := { isConnected := false, outstanding := [], phase := .free }

/-- What the committer is doing. -/
inductive CommitterPhase
  | off
  | looping
  | asking
  | told (conn : List Char)
  | done
deriving DecidableEq

/-- The committer has said hello and not goodbye. -/
def CommitterPhase.isPresent : CommitterPhase → Bool
  | .off => false
  | .done => false
  | _ => true

/-- A server instance with its clients and the messages under way. -/
structure ProvDBinstance (ι : Type) where
  admin : ProvDBadmin
  stopWaitLoop : Bool
  /-- The main thread is in its wait loop. -/
  waiting : Bool
  /-- The requests that were carried out. -/
  database : List (StoreRequest ι)
  clients : ι → ProvDBclient
  committer : CommitterPhase
  notices : Finset (Notice (Option ι))
  stopRequests : ℕ
  requests : List (StoreRequest ι)
  replies : List (StoreRequest ι)
  /-- The requests whose replies were received. -/
  completed : List ℕ
  /-- How often each client, and the committer, has said hello. -/
  sessions : Option ι → ℕ
  /-- All requests, in the order in which they were sent. -/
  sent : List (StoreRequest ι)

/-- What happens at an instance. -/
inductive ProvDBaction (ι : Type)
  | connect (c : ι)
  | sendData (c : ι) (entry : JsonEntry) (collection : String)
  | sendMultipleData (c : ι) (entries : List JsonEntry) (collection : String)
  | sendDataAsync (c : ι) (entry : JsonEntry) (collection : String) (ownRequest : Bool)
  | sendMultipleDataAsync (c : ι) (entries : List JsonEntry) (collection : String)
      (ownRequest : Bool)
  | getNoutstandingAsyncReqs (c : ι)
  | waitForSendComplete (c : ι)
  | disconnect (c : ι)
  /-- One turn of the loop in `waitAll`, or what follows the loop. -/
  | waitAll (c : ι)
  | stopServer (c : ι)
  | store (q : StoreRequest ι)
  | reply (q : StoreRequest ι)
  | hear (n : Notice (Option ι))
  | clientStopRpc
  | connectionStatus
  | waitLoop
  | termSignal
  | committerHello
  | committerAsk
  | committerExitCheck
  | committerTermSignal

/-- The notice that is handled in a step. -/
def ProvDBaction.heard : ProvDBaction ι → Option (Notice (Option ι))
  | .hear n => some n
  | _ => none

namespace ProvDBinstance

/-- Nothing has happened yet. -/
def start : ProvDBinstance ι :=
  { admin := .start, stopWaitLoop := false, waiting := true, database := []
    clients := fun _ => .new, committer := .off, notices := ∅, stopRequests := 0, requests := []
    replies := [], completed := [], sessions := fun _ => 0, sent := [] }

variable [DecidableEq ι]

/-- Set the state of a client. -/
def setClient (s : ProvDBinstance ι) (c : ι) (client : ProvDBclient) : ProvDBinstance ι :=
  { s with clients := Function.update s.clients c client }

/-- Forget the requests that are complete. -/
def purge (s : ProvDBinstance ι) (outstanding : List ℕ) : List ℕ :=
  outstanding.filter fun id => id ∉ s.completed

/-- A client, or the committer, says hello. -/
def sayHello (s : ProvDBinstance ι) (p : Option ι) : ProvDBinstance ι :=
  { s with
    notices := insert ⟨p, s.sessions p + 1, true⟩ s.notices
    sessions := Function.update s.sessions p (s.sessions p + 1) }

/-- Send a goodbye, with the number of the session. -/
def sayGoodbye (s : ProvDBinstance ι) (p : Option ι) : ProvDBinstance ι :=
  { s with notices := insert ⟨p, s.sessions p, false⟩ s.notices }

/-- The next request to be sent. -/
def newRequest (s : ProvDBinstance ι) (c : ι) (collection : String) (entries : List String)
    (awaited : Bool) : StoreRequest ι :=
  { id := s.sent.length, client := c, collection := collection, entries := entries
    awaited := awaited }

/-- Send a request that the client deals with as it then says. -/
def send (s : ProvDBinstance ι) (q : StoreRequest ι) (client : ProvDBclient) :
    ProvDBinstance ι :=
  { s.setClient q.client client with requests := s.requests ++ [q], sent := s.sent ++ [q] }

/-- Send entries and wait for the reply. -/
def storeSync (cs : ProvDBclients ι) (s : ProvDBinstance ι) (c : ι) (collection : String)
    (entries : List String) : Except String (ProvDBinstance ι) :=
  if collection ∉ cs.collectionNames c then throw ("Unknown collection " ++ collection)
  else pure (s.send (s.newRequest c collection entries true)
    { s.clients c with phase := .storing s.sent.length })

/-- Send entries without waiting. -/
def storeAsync (cs : ProvDBclients ι) (s : ProvDBinstance ι) (c : ι) (collection : String)
    (entries : List String) (ownRequest : Bool) : Except String (ProvDBinstance ι) :=
  let client := s.clients c
  if collection ∉ cs.collectionNames c then throw ("Unknown collection " ++ collection)
  else if ownRequest then
    pure (s.send (s.newRequest c collection entries false) client)
  else
    pure (s.send (s.newRequest c collection entries true)
      { client with outstanding := s.purge client.outstanding ++ [s.sent.length] })

/-- The texts of entries, all of which must be objects. -/
def dumpEntries (entries : List JsonEntry) : Except String (List String) :=
  entries.mapM fun entry =>
    if entry.isObject then pure entry.dump else throw "Array entries must be JSON objects"

variable (cs : ProvDBclients ι) (s : ProvDBinstance ι)

/-- Connect to a server that is there, and say hello. -/
def connect (c : ι) : Except String (ProvDBinstance ι) :=
  if ¬ s.waiting then throw "Provenance DB client could not connect due to exception"
  else
    let t := s.setClient c { s.clients c with isConnected := true }
    pure (if (cs.party (some c)).isSome then t.sayHello (some c) else t)

/-- Send an entry and wait for the reply. -/
def sendData (c : ι) (entry : JsonEntry) (collection : String) :
    Except String (ProvDBinstance ι) :=
  if ¬ entry.isObject then throw "JSON entry must be an object"
  else if ¬ (s.clients c).isConnected then pure s
  else s.storeSync cs c collection [entry.dump]

/-- Send entries and wait for the reply. -/
def sendMultipleData (c : ι) (entries : List JsonEntry) (collection : String) :
    Except String (ProvDBinstance ι) :=
  if entries = [] ∨ ¬ (s.clients c).isConnected then pure s
  else do
    let texts ← dumpEntries entries
    s.storeSync cs c collection texts

/-- Send an entry without waiting for the reply. -/
def sendDataAsync (c : ι) (entry : JsonEntry) (collection : String) (ownRequest : Bool) :
    Except String (ProvDBinstance ι) :=
  if ¬ entry.isObject then throw "JSON entry must be an object"
  else if ¬ (s.clients c).isConnected then pure s
  else s.storeAsync cs c collection [entry.dump] ownRequest

/-- Send entries without waiting for the reply. -/
def sendMultipleDataAsync (c : ι) (entries : List JsonEntry) (collection : String)
    (ownRequest : Bool) : Except String (ProvDBinstance ι) :=
  if entries = [] ∨ ¬ (s.clients c).isConnected then pure s
  else do
    let texts ← dumpEntries entries
    s.storeAsync cs c collection texts ownRequest

/-- Start to wait for all outstanding requests if connected. -/
def startWaitAll (c : ι) (disconnecting : Bool) : ProvDBinstance ι :=
  if (s.clients c).isConnected then
    s.setClient c { s.clients c with phase := .waitAll disconnecting }
  else s

/-- One turn of the loop that waits for all outstanding requests. Behind it, a client that
disconnects says goodbye. -/
def waitAll (c : ι) : Except String (ProvDBinstance ι) :=
  match (s.clients c).phase, (s.clients c).outstanding with
  | .waitAll _, id :: rest =>
    if id ∈ s.completed then pure (s.setClient c { s.clients c with outstanding := rest })
    else throw "waits for the request in front"
  | .waitAll true, [] =>
    let t := s.setClient c { s.clients c with isConnected := false, phase := .free }
    pure (if (cs.party (some c)).isSome then t.sayGoodbye (some c) else t)
  | .waitAll false, [] => pure (s.setClient c { s.clients c with phase := .free })
  | _, _ => throw "does not wait for its requests"

/-- The server carries out a request. -/
def store (q : StoreRequest ι) : Except String (ProvDBinstance ι) :=
  if s.waiting ∧ q ∈ s.requests then
    pure { s with
      database := s.database ++ [q]
      requests := s.requests.erase q
      replies := s.replies ++ [q] }
  else throw "no such request"

/-- A reply is received, by a client that may be waiting for it. -/
def reply (q : StoreRequest ι) : Except String (ProvDBinstance ι) :=
  if q ∈ s.replies then
    let client := s.clients q.client
    let client := if client.phase = .storing q.id then { client with phase := .free } else client
    pure { s.setClient q.client client with
      replies := s.replies.erase q
      completed := q.id :: s.completed }
  else throw "no such reply"

/-- The server handles a hello or a goodbye. -/
def hear (n : Notice (Option ι)) : Except String (ProvDBinstance ι) :=
  match cs.party n.party with
  | some p =>
    if s.waiting ∧ n ∈ s.notices then
      pure { s with admin := s.admin.hear n.opens p, notices := s.notices.erase n }
    else throw "no such notice"
  | none => throw "no such notice"

/-- An iteration of the wait loop. -/
def waitLoop (autoshutdown : Bool) : Except String (ProvDBinstance ι) :=
  if ¬ s.waiting then throw "not in the wait loop"
  else if s.stopWaitLoop then pure { s with waiting := false }
  else if s.admin.doBreak autoshutdown then pure { s with waiting := false }
  else pure s

/-- The committer leaves its loop and says goodbye. -/
def committerGoodbye : ProvDBinstance ι := { s with committer := .done }.sayGoodbye none

/-- A client that does not wait for anything takes a step. -/
def whenFree (c : ι) (next : Except String (ProvDBinstance ι)) :
    Except String (ProvDBinstance ι) :=
  if (s.clients c).phase = .free then next else throw "the client waits"

/-- What a step does. -/
def exec (autoshutdown : Bool) : ProvDBaction ι → Except String (ProvDBinstance ι)
  | .connect c => s.whenFree c (s.connect cs c)
  | .sendData c entry collection => s.whenFree c (s.sendData cs c entry collection)
  | .sendMultipleData c entries collection =>
    s.whenFree c (s.sendMultipleData cs c entries collection)
  | .sendDataAsync c entry collection ownRequest =>
    s.whenFree c (s.sendDataAsync cs c entry collection ownRequest)
  | .sendMultipleDataAsync c entries collection ownRequest =>
    s.whenFree c (s.sendMultipleDataAsync cs c entries collection ownRequest)
  | .getNoutstandingAsyncReqs c =>
    s.whenFree c (pure (s.setClient c
      { s.clients c with outstanding := s.purge (s.clients c).outstanding }))
  | .waitForSendComplete c => s.whenFree c (pure (s.startWaitAll c false))
  | .disconnect c => s.whenFree c (pure (s.startWaitAll c true))
  | .waitAll c => s.waitAll cs c
  | .stopServer c =>
    s.whenFree c
      (if (s.clients c).isConnected then pure { s with stopRequests := s.stopRequests + 1 }
      else throw "undefined: null pointer")
  | .store q => s.store q
  | .reply q => s.reply q
  | .hear n => s.hear cs n
  | .clientStopRpc =>
    if s.waiting ∧ 0 < s.stopRequests then
      pure { s with admin := s.admin.clientStopRpc, stopRequests := s.stopRequests - 1 }
    else throw "no such request"
  | .connectionStatus =>
    if s.waiting ∧ s.committer = .asking then
      pure { s with committer := .told s.admin.connectionStatus }
    else throw "no such request"
  | .waitLoop => s.waitLoop autoshutdown
  | .termSignal => pure { s with stopWaitLoop := true }
  | .committerHello =>
    if s.waiting ∧ s.committer = .off then
      pure ({ s with committer := .looping }.sayHello none)
    else throw "cannot start"
  | .committerAsk =>
    if s.committer = .looping then pure { s with committer := .asking } else throw "does not loop"
  | .committerExitCheck =>
    match s.committer with
    | .told conn => do
      let leaves ← exitCheck conn
      pure (if leaves then s.committerGoodbye else { s with committer := .looping })
    | _ => throw "was not told the status"
  | .committerTermSignal =>
    if s.committer = .looping then pure s.committerGoodbye else throw "does not loop"

/-- A client, or the committer, has said hello and not goodbye. -/
def isPresent : Option ι → Bool
  | none => s.committer.isPresent
  | some c => (cs.party (some c)).isSome && (s.clients c).isConnected

/-- The server knows a client, or the committer, as connected. -/
def knows (p : Option ι) : Bool :=
  match cs.party p with
  | some party => s.admin.registered party
  | none => false

/-- Who is present, what is under way, and what the server knows of it. -/
def ledger : Ledger (Option ι) :=
  { sessions := s.sessions, present := s.isPresent cs, underWay := s.notices
    registered := s.knows cs }

/-- No goodbye is handled after the hello of a later session. -/
def NotOvertaken (a : ProvDBaction ι) : Prop :=
  ∀ n ∈ a.heard, (s.ledger cs).NotOvertaken (.receive n)

/-- The notices of each client, and of the committer, are handled in the order in which they were
sent. -/
def InOrder (a : ProvDBaction ι) : Prop := ∀ n ∈ a.heard, (s.ledger cs).InOrder (.receive n)

instance (a : ProvDBaction ι) : Decidable (s.NotOvertaken cs a) :=
  inferInstanceAs (Decidable (∀ n ∈ a.heard, _))

instance (a : ProvDBaction ι) : Decidable (s.InOrder cs a) :=
  inferInstanceAs (Decidable (∀ n ∈ a.heard, _))

end ProvDBinstance

end Chimbuko
