import Chimbuko.Core.ZmqNet
import Mathlib.Algebra.BigOperators.Group.Finset.Piecewise
import Mathlib.Tactic.Abel

/-!
# What the counters of the ZMQ network count

The number of outstanding requests is the number of requests forwarded less the number of replies
routed back, by the calls that have counted them, and it is at least the number of replies that the
call under way has routed. The number of clients is that of the handshakes less that of the
disconnects on which workers have acted. No client disconnects before its handshake was acted on,
since it waits for the reply. So neither number is ever negative, and when nothing is outstanding
every request that was forwarded has had its reply routed back.
-/

namespace Chimbuko

open RequestReply TransitionSystem

/-- The client and the request of a message. -/
def NetMessage.key (m : NetMessage) : ℕ × NetRequest := (m.client, m.request)

/-- The clients and requests of some messages. -/
def keys (ms : List NetMessage) : Multiset (ℕ × NetRequest) := (ms.map NetMessage.key : List _)

/-- No messages have no keys. -/
@[simp] theorem keys_nil : keys [] = 0 := rfl

/-- The keys of messages and others are those of all of them. -/
@[simp] theorem keys_append (ms ms' : List NetMessage) : keys (ms ++ ms') = keys ms + keys ms' := by
  simp [keys]

/-- The key of one message. -/
@[simp] theorem keys_singleton (m : NetMessage) : keys [m] = {m.key} := rfl

/-- Every message has one key. -/
@[simp] theorem card_keys (ms : List NetMessage) : (keys ms).card = ms.length := by
  simp [keys]

/-- A message that is taken out of a queue. -/
theorem keys_eraseIdx {ms : List NetMessage} {index : ℕ} {m : NetMessage}
    (h : ms[index]? = some m) : keys ms = keys (ms.eraseIdx index) + {m.key} := by
  obtain ⟨hlt, hm⟩ := List.getElem?_eq_some_iff.mp h
  have hperm := (List.getElem_cons_eraseIdx_perm hlt).map NetMessage.key
  rw [hm, List.map_cons] at hperm
  rw [keys, ← Multiset.coe_eq_coe.mpr hperm, ← Multiset.cons_coe, add_comm,
    Multiset.singleton_add]
  rfl

namespace RecvAndSend

/-- A call counts the messages that it has routed, and has sent the first parts of the current
message. -/
structure Holds (r : RecvAndSend) : Prop where
  msgCount : r.msgCount = r.moved.length
  boundary : r.current = none → r.incoming = [] ∧ r.outgoing = []
  within : ∀ m, r.current = some m → r.outgoing ++ r.incoming = m.parts ∧ r.incoming ≠ []

/-- A loop that has not started holds nothing. -/
theorem holds_start : start.Holds := by
  constructor
  · rfl
  · intro _
    exact ⟨rfl, rfl⟩
  · intro m hm
    cases hm

/-- Its parts are assembled to a message again. -/
theorem assemble_parts (m : NetMessage) : assemble m.parts = some m := rfl

/-- The last part of a message is not empty. -/
theorem len_last_ne_zero {m : NetMessage} {front : List MessagePart} {part : MessagePart}
    (h : front ++ [part] = m.parts) : part.len ≠ 0 := by
  have hlast : [MessagePart.identity m.client, .delimiter] ++ [.body m.request m.size] = m.parts :=
    rfl
  obtain ⟨-, heq⟩ := List.append_inj' (h.trans hlast.symm) rfl
  cases heq
  exact m.size.2.ne'

/-- Sending a part keeps the message together, and delivers it with the last one. -/
theorem Holds.sendPart {r : RecvAndSend} (hcount : r.msgCount = r.moved.length) {m : NetMessage}
    (hcurrent : r.current = some m) {parts : List MessagePart}
    (hparts : r.outgoing ++ parts = m.parts) (hne : parts ≠ []) (dest : List NetMessage) :
    ∃ done : List NetMessage, (RecvAndSend.sendPart dest r parts).1 = dest ++ done ∧
      (RecvAndSend.sendPart dest r parts).2.Holds ∧
      (RecvAndSend.sendPart dest r parts).2.moved = r.moved ++ done ∧
      keys r.current.toList =
        keys (RecvAndSend.sendPart dest r parts).2.current.toList + keys done := by
  cases parts with
  | nil => exact absurd rfl hne
  | cons msg rest =>
    by_cases hrest : rest = []
    · subst hrest
      have hlen := len_last_ne_zero hparts
      refine ⟨[m], ?_⟩
      simp only [RecvAndSend.sendPart, ne_eq, not_true_eq_false, if_false, hlen, not_false_eq_true,
        or_true, if_true, hparts, assemble_parts, hcurrent]
      refine ⟨trivial, ⟨?_, fun _ => ⟨rfl, rfl⟩, fun m' h => by cases h⟩, trivial, ?_⟩
      · simp [hcount]
      · simp
    · refine ⟨[], ?_⟩
      simp only [RecvAndSend.sendPart, ne_eq, hrest, not_false_eq_true, true_or, if_true,
        List.append_nil, keys_nil, add_zero]
      refine ⟨trivial, ⟨hcount, fun h => ?_, fun m' h => ⟨?_, hrest⟩⟩, trivial, trivial⟩
      · rw [hcurrent] at h
        cases h
      · rw [hcurrent] at h
        cases h
        rw [← hparts, List.append_assoc]
        rfl

/-- A pass of the loop takes a message from the one socket or delivers it to the other, or does
neither. -/
theorem Holds.recvPart {r r' : RecvAndSend} (h : r.Holds) {maxMsg index : ℕ}
    {queue dest queue' dest' : List NetMessage}
    (hrun : RecvAndSend.recvPart maxMsg queue dest r index = .ok (queue', dest', r')) :
    r'.Holds ∧ ∃ done : List NetMessage, dest' = dest ++ done ∧ r'.moved = r.moved ++ done ∧
      keys queue + keys r.current.toList =
        keys queue' + keys r'.current.toList + keys done := by
  unfold RecvAndSend.recvPart at hrun
  split at hrun
  · split at hrun
    · rename_i hincoming
      split at hrun
      · cases hrun
      · rename_i m hm
        have hcurrent : r.current = none := by
          cases hcur : r.current with
          | none => rfl
          | some m' => exact absurd hincoming (h.within m' hcur).2
        have houtgoing := (h.boundary hcurrent).2
        have hparts : r.outgoing ++ m.parts = m.parts := by simp [houtgoing]
        have hne : m.parts ≠ [] := by simp [NetMessage.parts]
        obtain ⟨done, hdest, hholds, hmoved, hkeys⟩ := Holds.sendPart
          (r := { r with current := some m }) h.msgCount rfl hparts hne dest
        simp only [pure, Except.pure, Except.ok.injEq, Prod.mk.injEq] at hrun
        obtain ⟨rfl, rfl, rfl⟩ := hrun
        refine ⟨hholds, done, hdest, hmoved, ?_⟩
        rw [hcurrent, Option.toList_none, keys_nil, add_zero, keys_eraseIdx hm, add_assoc, ← hkeys]
        rfl
    · rename_i msg rest hincoming
      cases hcur : r.current with
      | none =>
        rw [(h.boundary hcur).1] at hincoming
        cases hincoming
      | some m =>
        have hparts := (h.within m hcur).1
        rw [hincoming] at hparts
        obtain ⟨done, hdest, hholds, hmoved, hkeys⟩ :=
          Holds.sendPart h.msgCount hcur hparts (List.cons_ne_nil _ _) dest
        simp only [pure, Except.pure, Except.ok.injEq, Prod.mk.injEq] at hrun
        obtain ⟨rfl, rfl, rfl⟩ := hrun
        refine ⟨hholds, done, hdest, hmoved, ?_⟩
        rw [← hcur, hkeys, add_assoc]
  · cases hrun

end RecvAndSend

/-- The call under way that forwards requests. -/
def ZmqRouter.forwarding : ZmqRouter → RecvAndSend
  | .frontToBack r _ => r
  | _ => RecvAndSend.start

/-- The call under way that routes replies back. -/
def ZmqRouter.returning : ZmqRouter → RecvAndSend
  | .backToFront r _ _ => r
  | _ => RecvAndSend.start

/-- The request that a worker has not acted on. -/
def ZmqWorker.request : ZmqWorker → List NetMessage
  | .received m => [m]
  | _ => []

/-- The reply that a worker has not sent. -/
def ZmqWorker.reply : ZmqWorker → List NetMessage
  | .replying m => [m]
  | _ => []

namespace ZmqWorker

/-- An idle worker holds no request. -/
@[simp] theorem request_idle : idle.request = [] := rfl

/-- A worker that received a message holds it as its request. -/
@[simp] theorem request_received (m : NetMessage) : (received m).request = [m] := rfl

/-- A worker that replies holds no request. -/
@[simp] theorem request_replying (m : NetMessage) : (replying m).request = [] := rfl

/-- An idle worker holds no reply. -/
@[simp] theorem reply_idle : idle.reply = [] := rfl

/-- A worker that received a message holds no reply. -/
@[simp] theorem reply_received (m : NetMessage) : (received m).reply = [] := rfl

/-- A worker that replies holds its reply. -/
@[simp] theorem reply_replying (m : NetMessage) : (replying m).reply = [m] := rfl

end ZmqWorker

/-- What a client may send in its time. -/
inductive Session : List NetRequest → Prop
  | nil : Session []
  | snoc {l : List NetRequest} {r : NetRequest} : Session l → ZMQNet.mayRequest l r = true →
      Session (l ++ [r])

/-- What a session has sent first is a session. -/
theorem Session.ofInitial {l l' : List NetRequest} (h : Session l') (hinitial : l <+: l') :
    Session l := by
  induction h with
  | nil =>
    rw [List.prefix_nil.mp hinitial]
    exact .nil
  | snoc h hr ih =>
    rcases List.prefix_concat_iff.mp hinitial with rfl | hinitial
    · exact .snoc h hr
    · exact ih hinitial

/-- A session has one handshake, and at most one disconnect, which is its last request. -/
theorem Session.counts {l : List NetRequest} (h : Session l) :
    l = [] ∨ l.count .handshake = 1 ∧
      (l.count .disconnect = 0 ∨ l.count .disconnect = 1 ∧ l.getLast? = some .disconnect) := by
  induction h with
  | nil => exact Or.inl rfl
  | @snoc l r h hr ih =>
    right
    rcases ih with rfl | ⟨hhand, hdisc⟩
    · have heq : r = .handshake := by
        simpa [ZMQNet.mayRequest] using hr
      subst heq
      simp
    · cases hlast : l.getLast? with
      | none =>
        rw [List.getLast?_eq_none_iff.mp hlast] at hhand
        cases hhand
      | some last =>
        have hne : last ≠ .disconnect := by
          rintro rfl
          simp [ZMQNet.mayRequest, hlast] at hr
        have hnone : l.count .disconnect = 0 := by
          rcases hdisc with hzero | ⟨-, hsome⟩
          · exact hzero
          · rw [hlast] at hsome
            exact absurd (Option.some.inj hsome) hne
        have hr' : r ≠ .handshake := by
          rintro rfl
          cases last <;> simp [ZMQNet.mayRequest, hlast] at hr
        cases r <;> simp_all

/-- No more disconnects than handshakes. -/
theorem Session.count_le {l : List NetRequest} (h : Session l) :
    l.count .disconnect ≤ l.count .handshake := by
  rcases h.counts with rfl | ⟨hhand, hzero | ⟨hone, -⟩⟩
  · simp
  · omega
  · omega

namespace ZMQNet

variable {nt : ℕ}

/-- The clients' view of the server. -/
def exchange (nt : ℕ) (s : ZMQNet) : Exchange ℕ NetRequest :=
  { sent := fun c => (s.client c).sent
    waiting := fun c => (s.client c).waiting
    pending := keys s.toFrontend + keys s.router.forwarding.current.toList + keys s.toWorkers +
      ∑ w ∈ Finset.range nt, keys (s.worker w).request
    answered := ∑ w ∈ Finset.range nt, keys (s.worker w).reply + keys s.toBackend +
      keys s.router.returning.current.toList + keys s.toClients
    acted := s.acted }

/-- The requests that are with the workers, and the replies that are on their way to the router. -/
def inServer (nt : ℕ) (s : ZMQNet) : Multiset (ℕ × NetRequest) :=
  keys s.toWorkers + ∑ w ∈ Finset.range nt, keys (s.worker w).request +
    ∑ w ∈ Finset.range nt, keys (s.worker w).reply + keys s.toBackend +
    keys s.router.returning.current.toList

/-- The number of handshakes on which workers have acted. -/
def handshakes (s : ZMQNet) : ℕ := s.acted.countP fun m => m.2 = .handshake

/-- The number of disconnects on which workers have acted. -/
def disconnects (s : ZMQNet) : ℕ := s.acted.countP fun m => m.2 = .disconnect

/-- The counters count what they should. -/
structure Holds (nt : ℕ) (s : ZMQNet) : Prop where
  exchange : (s.exchange nt).Valid
  session : ∀ c, Session (s.client c).sent
  clients : s.clients = s.handshakes - s.disconnects
  fatalError : s.fatalError = false
  forwarding : s.router.forwarding.Holds
  returning : s.router.returning.Holds
  conserved : keys s.forwarded + keys s.router.forwarding.moved =
    keys s.routed + keys s.router.returning.moved + s.inServer nt
  requests : s.nRequests = s.forwarded.length - s.routed.length
  nonneg : 0 ≤ s.nRequests
  finished : ∀ status, s.router = .finished status → s.nRequests = 0

/-- At the start every message is where it should be. -/
theorem holds_start : start.Holds nt := by
  constructor
  · have hempty : start.exchange nt = Exchange.empty := by
      simp [exchange, start, Exchange.empty, ZmqWorker.request, ZmqWorker.reply,
        ZmqRouter.forwarding, ZmqRouter.returning, RecvAndSend.start]
    rw [hempty]
    exact Exchange.valid_empty
  · exact fun _ => .nil
  · rfl
  · rfl
  · exact RecvAndSend.holds_start
  · exact RecvAndSend.holds_start
  · simp [start, inServer, ZmqWorker.request, ZmqWorker.reply, ZmqRouter.forwarding,
      ZmqRouter.returning, RecvAndSend.start]
  · rfl
  · exact le_rfl
  · intro status h
    cases h

/-- No worker has acted on more disconnects than handshakes. -/
theorem disconnects_le {s : ZMQNet} (hvalid : (s.exchange nt).Valid)
    (hsession : ∀ c, Session (s.client c).sent) : s.disconnects ≤ s.handshakes := by
  apply Exchange.actedCount_le (x := s.exchange nt)
  intro c
  exact ((hsession c).ofInitial (hvalid.actedOf_initial c)).count_le

/-- Exchanging what one worker holds. -/
theorem sum_update {M : Type*} [AddCommMonoid M] (f : ZmqWorker → M) (worker : ℕ → ZmqWorker)
    {w : ℕ} (hw : w < nt) (x : ZmqWorker) :
    ∑ v ∈ Finset.range nt, f (Function.update worker w x v) + f (worker w) =
      ∑ v ∈ Finset.range nt, f (worker v) + f x := by
  have hmem := Finset.mem_range.mpr hw
  rw [← Finset.add_sum_erase _ _ hmem,
    ← Finset.add_sum_erase _ (fun v => f (worker v)) hmem, Function.update_self]
  have hrest : ∑ v ∈ (Finset.range nt).erase w, f (Function.update worker w x v) =
      ∑ v ∈ (Finset.range nt).erase w, f (worker v) := by
    apply Finset.sum_congr rfl
    intro v hv
    rw [Function.update_of_ne (Finset.ne_of_mem_erase hv)]
  rw [hrest]
  abel

/-- A step of a client or a worker. -/
theorem Holds.of_exchange {s t : ZMQNet} (hs : s.Holds nt)
    (hexchange : t.exchange nt = s.exchange nt ∨ Exchange.Step (s.exchange nt) (t.exchange nt))
    (hsession : ∀ c, Session (t.client c).sent)
    (hclients : t.clients = t.handshakes - t.disconnects)
    (hfatal : (t.exchange nt).Valid → t.fatalError = false) (hrouter : t.router = s.router)
    (hforwarded : t.forwarded = s.forwarded) (hrouted : t.routed = s.routed)
    (hrequests : t.nRequests = s.nRequests) (hserver : t.inServer nt = s.inServer nt) :
    t.Holds nt := by
  have hvalid : (t.exchange nt).Valid := by
    rcases hexchange with heq | hstep
    · rw [heq]
      exact hs.exchange
    · exact hs.exchange.step hstep
  constructor
  · exact hvalid
  · exact hsession
  · exact hclients
  · exact hfatal hvalid
  · rw [hrouter]
    exact hs.forwarding
  · rw [hrouter]
    exact hs.returning
  · rw [hrouter, hforwarded, hrouted, hserver]
    exact hs.conserved
  · rw [hrequests, hforwarded, hrouted]
    exact hs.requests
  · rw [hrequests]
    exact hs.nonneg
  · intro status
    rw [hrouter, hrequests]
    exact hs.finished status

/-- The router moves on outside its calls. -/
theorem Holds.setRouter {s : ZMQNet} (hs : s.Holds nt) {router : ZmqRouter}
    (hforwarding : router.forwarding = s.router.forwarding)
    (hreturning : router.returning = s.router.returning)
    (hfinished : ∀ status, router = .finished status → s.nRequests = 0) :
    { s with router := router }.Holds nt := by
  have hexchange : { s with router := router }.exchange nt = s.exchange nt := by
    simp only [ZMQNet.exchange, hforwarding, hreturning]
  constructor
  · rw [hexchange]
    exact hs.exchange
  · exact hs.session
  · exact hs.clients
  · exact hs.fatalError
  · exact hforwarding ▸ hs.forwarding
  · exact hreturning ▸ hs.returning
  · have hserver : { s with router := router }.inServer nt = s.inServer nt := by
      simp only [inServer, hreturning]
    simp only [hforwarding, hreturning, hserver]
    exact hs.conserved
  · exact hs.requests
  · exact hs.nonneg
  · exact hfinished

/-- A client sends what it may send. -/
theorem Holds.clientSend {s : ZMQNet} (hs : s.Holds nt) (m : NetMessage)
    (hwaiting : (s.client m.client).waiting = false)
    (hmay : mayRequest (s.client m.client).sent m.request = true) :
    { s with
      client := Function.update s.client m.client
        ⟨(s.client m.client).sent ++ [m.request], true⟩
      toFrontend := s.toFrontend ++ [m] }.Holds nt := by
  refine hs.of_exchange (Or.inr ?_) ?_ hs.clients (fun _ => hs.fatalError) rfl rfl rfl rfl rfl
  · have hsend := Exchange.Step.send (s.exchange nt) m.client m.request hwaiting
    convert hsend using 1
    unfold Exchange.send ZMQNet.exchange
    congr 1
    · funext c
      by_cases hc : c = m.client
      · subst hc
        simp
      · simp [hc]
    · funext c
      by_cases hc : c = m.client
      · subst hc
        simp
      · simp [hc]
    · simp only [keys_append, keys_singleton, NetMessage.key, ← Multiset.singleton_add]
      abel
  · intro c
    by_cases hc : c = m.client
    · subst hc
      simp only [Function.update_self]
      exact .snoc (hs.session m.client) hmay
    · simp only [Function.update_of_ne hc]
      exact hs.session c

/-- A client receives its reply. -/
theorem Holds.clientRecv {s : ZMQNet} (hs : s.Holds nt) {index : ℕ} {m : NetMessage}
    (hm : s.toClients[index]? = some m) :
    { s with
      client := Function.update s.client m.client ⟨(s.client m.client).sent, false⟩
      toClients := s.toClients.eraseIdx index }.Holds nt := by
  refine hs.of_exchange (Or.inr ?_) ?_ hs.clients (fun _ => hs.fatalError) rfl rfl rfl rfl rfl
  · have hreceive := Exchange.Step.receive (s.exchange nt) m.key
      (∑ w ∈ Finset.range nt, keys (s.worker w).reply + keys s.toBackend +
        keys s.router.returning.current.toList + keys (s.toClients.eraseIdx index)) (by
        simp only [ZMQNet.exchange, keys_eraseIdx hm, ← Multiset.singleton_add]
        abel)
    convert hreceive using 1
    unfold Exchange.receive ZMQNet.exchange
    congr 1
    · funext c
      by_cases hc : c = m.client
      · subst hc
        simp
      · simp [hc]
    · funext c
      by_cases hc : c = m.client
      · subst hc
        simp [NetMessage.key]
      · simp [hc, NetMessage.key]
  · intro c
    by_cases hc : c = m.client
    · subst hc
      simp only [Function.update_self]
      exact hs.session m.client
    · simp only [Function.update_of_ne hc]
      exact hs.session c

/-- A worker receives a request. -/
theorem Holds.workerRecv {s : ZMQNet} (hs : s.Holds nt) {w index : ℕ} {m : NetMessage}
    (hw : w < nt) (hidle : s.worker w = .idle) (hm : s.toWorkers[index]? = some m) :
    { s with
      worker := Function.update s.worker w (.received m)
      toWorkers := s.toWorkers.eraseIdx index }.Holds nt := by
  have hrequest := sum_update (fun x => keys x.request) s.worker hw (.received m)
  have hreply := sum_update (fun x => keys x.reply) s.worker hw (.received m)
  simp only [hidle, ZmqWorker.request_idle, ZmqWorker.request_received, ZmqWorker.reply_idle,
    ZmqWorker.reply_received, keys_nil, add_zero, keys_singleton] at hrequest hreply
  refine hs.of_exchange (Or.inl ?_) hs.session hs.clients (fun _ => hs.fatalError) rfl rfl rfl
    rfl ?_
  · unfold ZMQNet.exchange
    simp only [hrequest, hreply, keys_eraseIdx hm]
    congr 1
    abel
  · unfold inServer
    simp only [hrequest, hreply, keys_eraseIdx hm]
    abel

/-- A worker sends its reply. -/
theorem Holds.workerSend {s : ZMQNet} (hs : s.Holds nt) {w : ℕ} {m : NetMessage}
    (hw : w < nt) (hreplying : s.worker w = .replying m) :
    { s with
      worker := Function.update s.worker w .idle
      toBackend := s.toBackend ++ [m] }.Holds nt := by
  have hrequest := sum_update (fun x => keys x.request) s.worker hw .idle
  have hreply := sum_update (fun x => keys x.reply) s.worker hw .idle
  simp only [hreplying, ZmqWorker.request_replying, ZmqWorker.request_idle,
    ZmqWorker.reply_replying, ZmqWorker.reply_idle, keys_nil, add_zero, keys_singleton]
    at hrequest hreply
  refine hs.of_exchange (Or.inl ?_) hs.session hs.clients (fun _ => hs.fatalError) rfl rfl rfl
    rfl ?_
  · unfold ZMQNet.exchange
    simp only [hrequest, ← hreply, keys_append, keys_singleton]
    congr 1
    abel
  · unfold inServer
    simp only [hrequest, ← hreply, keys_append, keys_singleton]
    abel

/-- What the actions of a worker leave as it is. -/
theorem performAction_frame (s : ZMQNet) (r : NetRequest) :
    (s.performAction r).client = s.client ∧ (s.performAction r).toFrontend = s.toFrontend ∧
      (s.performAction r).toWorkers = s.toWorkers ∧ (s.performAction r).worker = s.worker ∧
      (s.performAction r).toBackend = s.toBackend ∧ (s.performAction r).toClients = s.toClients ∧
      (s.performAction r).nRequests = s.nRequests ∧ (s.performAction r).router = s.router ∧
      (s.performAction r).forwarded = s.forwarded ∧ (s.performAction r).routed = s.routed := by
  cases r <;> exact ⟨rfl, rfl, rfl, rfl, rfl, rfl, rfl, rfl, rfl, rfl⟩

/-- The clients after the action of a worker. -/
theorem performAction_clients (s : ZMQNet) (r : NetRequest) :
    (s.performAction r).clients =
      s.clients + (if r = .handshake then 1 else 0) - if r = .disconnect then 1 else 0 := by
  cases r <;> simp [performAction]

/-- A worker fails only if the number of clients becomes negative. -/
theorem performAction_fatalError {s : ZMQNet} {r : NetRequest}
    (hclients : 0 ≤ (s.performAction r).clients) (hfatal : s.fatalError = false) :
    (s.performAction r).fatalError = false := by
  cases r with
  | disconnect =>
    simp only [performAction] at hclients ⊢
    simp only [hfatal, Bool.false_or, decide_eq_false_iff_not, not_lt]
    exact hclients
  | handshake => exact hfatal
  | remoteStop => exact hfatal
  | other => exact hfatal

/-- A worker acts on a request. -/
theorem Holds.workerAct {s : ZMQNet} (hs : s.Holds nt) {w : ℕ} {m : NetMessage} (hw : w < nt)
    (hreceived : s.worker w = .received m) (size : ℕ+) :
    { s.performAction m.request with
      worker := Function.update s.worker w (.replying { m with size := size })
      acted := s.acted ++ [(m.client, m.request)] }.Holds nt := by
  obtain ⟨hclient, hfrontend, hworkers, -, hbackend, htoClients, hrequests, hrouter, hforwarded,
    hrouted⟩ := performAction_frame s m.request
  have hrequest := sum_update (fun x => keys x.request) s.worker hw
    (.replying { m with size := size })
  have hreply := sum_update (fun x => keys x.reply) s.worker hw
    (.replying { m with size := size })
  simp only [hreceived, ZmqWorker.request_received, ZmqWorker.request_replying,
    ZmqWorker.reply_received, ZmqWorker.reply_replying, keys_nil, add_zero, keys_singleton]
    at hrequest hreply
  have hkey : ({ m with size := size } : NetMessage).key = m.key := rfl
  rw [hkey] at hreply
  have hclients : (s.performAction m.request).clients =
      ((s.acted ++ [(m.client, m.request)]).countP fun m => m.2 = .handshake : ℕ) -
        ((s.acted ++ [(m.client, m.request)]).countP fun m => m.2 = .disconnect : ℕ) := by
    rw [performAction_clients, hs.clients]
    unfold handshakes disconnects
    cases m.request <;> simp <;> omega
  refine hs.of_exchange (Or.inr ?_) ?_ hclients (fun hvalid => ?_) hrouter hforwarded hrouted
    hrequests ?_
  · have hact := Exchange.Step.act (s.exchange nt) m.key
      (keys s.toFrontend + keys s.router.forwarding.current.toList + keys s.toWorkers +
        ∑ v ∈ Finset.range nt, keys (Function.update s.worker w
          (.replying { m with size := size }) v).request) (by
        simp only [ZMQNet.exchange, ← hrequest, ← Multiset.singleton_add]
        abel)
    convert hact using 1
    unfold Exchange.act ZMQNet.exchange
    simp only [hclient, hfrontend, hworkers, hbackend, htoClients, hrouter, hreply,
      ← Multiset.singleton_add]
    congr 1
    abel
  · simp only [hclient]
    exact hs.session
  · apply performAction_fatalError _ hs.fatalError
    have hle := disconnects_le hvalid (by simpa only [hclient] using hs.session)
    unfold handshakes disconnects at hle
    simp only at hle
    rw [hclients]
    omega
  · unfold inServer
    simp only [hworkers, hbackend, hrouter, hreply, ← hrequest]
    abel

/-- A pass of the loop that forwards requests. -/
theorem Holds.forward {s : ZMQNet} (hs : s.Holds nt) {maxMsg index : ℕ} {r r' : RecvAndSend}
    {stop : Bool} (hrouter : s.router = .frontToBack r stop) {queue dest : List NetMessage}
    (hrun : r.recvPart maxMsg s.toFrontend s.toWorkers index = .ok (queue, dest, r')) :
    { s with toFrontend := queue, toWorkers := dest, router := .frontToBack r' stop }.Holds nt := by
  have hr : r.Holds := by
    have h := hs.forwarding
    rwa [hrouter] at h
  obtain ⟨hr', done, rfl, hmoved, hkeys⟩ := hr.recvPart hrun
  have hexchange : ZMQNet.exchange nt { s with
      toFrontend := queue, toWorkers := s.toWorkers ++ done, router := .frontToBack r' stop } =
      s.exchange nt := by
    unfold ZMQNet.exchange
    simp only [hrouter, ZmqRouter.forwarding, ZmqRouter.returning, hkeys, keys_append]
    congr 1
    abel
  constructor
  · rw [hexchange]
    exact hs.exchange
  · exact hs.session
  · exact hs.clients
  · exact hs.fatalError
  · exact hr'
  · exact RecvAndSend.holds_start
  · have hconserved := hs.conserved
    unfold inServer at hconserved ⊢
    simp only [hrouter, ZmqRouter.forwarding, ZmqRouter.returning] at hconserved ⊢
    rw [hmoved, keys_append, ← add_assoc, hconserved, keys_append]
    abel
  · exact hs.requests
  · exact hs.nonneg
  · intro status h
    cases h

/-- A pass of the loop that routes replies back. -/
theorem Holds.giveBack {s : ZMQNet} (hs : s.Holds nt) {maxMsg index : ℕ} {r r' : RecvAndSend}
    {front stop : Bool} (hrouter : s.router = .backToFront r front stop)
    {queue dest : List NetMessage}
    (hrun : r.recvPart maxMsg s.toBackend s.toClients index = .ok (queue, dest, r')) :
    { s with
      toBackend := queue, toClients := dest, router := .backToFront r' front stop }.Holds nt := by
  have hr : r.Holds := by
    have h := hs.returning
    rwa [hrouter] at h
  obtain ⟨hr', done, rfl, hmoved, hkeys⟩ := hr.recvPart hrun
  have hexchange : ZMQNet.exchange nt { s with
      toBackend := queue, toClients := s.toClients ++ done
      router := .backToFront r' front stop } = s.exchange nt := by
    unfold ZMQNet.exchange
    simp only [hrouter, ZmqRouter.forwarding, ZmqRouter.returning, keys_append]
    congr 1
    rw [add_assoc _ (keys s.toBackend), hkeys]
    abel
  constructor
  · rw [hexchange]
    exact hs.exchange
  · exact hs.session
  · exact hs.clients
  · exact hs.fatalError
  · exact RecvAndSend.holds_start
  · exact hr'
  · have hconserved := hs.conserved
    unfold inServer at hconserved ⊢
    simp only [hrouter, ZmqRouter.forwarding, ZmqRouter.returning] at hconserved ⊢
    rw [hconserved, hmoved, keys_append, add_assoc _ (keys s.toBackend), hkeys]
    abel
  · exact hs.requests
  · exact hs.nonneg
  · intro status h
    cases h

/-- After the frontend no call is under way, and the loop goes on. -/
theorem afterFront_calls (stop : Bool) :
    (afterFront stop).forwarding = RecvAndSend.start ∧
      (afterFront stop).returning = RecvAndSend.start ∧
      ∀ status, afterFront stop ≠ .finished status := by
  cases stop <;> exact ⟨rfl, rfl, fun _ h => by cases h⟩

/-- After the backend no call is under way, and the loop goes on. -/
theorem afterBack_calls (front stop : Bool) :
    (afterBack front stop).forwarding = RecvAndSend.start ∧
      (afterBack front stop).returning = RecvAndSend.start ∧
      ∀ status, afterBack front stop ≠ .finished status := by
  cases front with
  | false => exact afterFront_calls stop
  | true => exact ⟨rfl, rfl, fun _ h => by cases h⟩

/-- At the end of a message no message is being routed. -/
theorem current_eq_none {r : RecvAndSend} (hr : r.Holds) (hincoming : r.incoming = []) :
    r.current = none := by
  cases hcur : r.current with
  | none => rfl
  | some m => exact absurd hincoming (hr.within m hcur).2

/-- The call that has forwarded requests returns their number. -/
theorem Holds.forwardReturn {s : ZMQNet} (hs : s.Holds nt) {r : RecvAndSend} {stop : Bool}
    (hrouter : s.router = .frontToBack r stop) (hincoming : r.incoming = []) :
    { s with
      nRequests := s.nRequests + r.msgCount
      forwarded := s.forwarded ++ r.moved
      router := afterFront stop }.Holds nt := by
  obtain ⟨hforwarding, hreturning, hfinished⟩ := afterFront_calls stop
  have hr : r.Holds := by
    have h := hs.forwarding
    rwa [hrouter] at h
  have hcurrent := current_eq_none hr hincoming
  have hexchange : ZMQNet.exchange nt { s with
      nRequests := s.nRequests + r.msgCount
      forwarded := s.forwarded ++ r.moved
      router := afterFront stop } = s.exchange nt := by
    unfold ZMQNet.exchange
    simp only [hforwarding, hreturning]
    rw [hrouter]
    simp only [ZmqRouter.forwarding, ZmqRouter.returning, hcurrent]
    rfl
  constructor
  · rw [hexchange]
    exact hs.exchange
  · exact hs.session
  · exact hs.clients
  · exact hs.fatalError
  · rw [hforwarding]
    exact RecvAndSend.holds_start
  · rw [hreturning]
    exact RecvAndSend.holds_start
  · have hconserved := hs.conserved
    unfold inServer at hconserved ⊢
    rw [hrouter] at hconserved
    simp only [ZmqRouter.forwarding, ZmqRouter.returning] at hconserved
    simp only [hforwarding, hreturning, keys_append]
    rw [hconserved]
    simp [RecvAndSend.start]
  · simp only [hs.requests, hr.msgCount, List.length_append]
    push_cast
    omega
  · have hnonneg := hs.nonneg
    simp only
    omega
  · intro status h
    exact absurd h (hfinished status)

/-- The call that has routed replies back returns their number, which is not more than what is
outstanding. -/
theorem Holds.giveBackReturn {s : ZMQNet} (hs : s.Holds nt) {r : RecvAndSend} {front stop : Bool}
    (hrouter : s.router = .backToFront r front stop) (hincoming : r.incoming = []) :
    { s with
      nRequests := s.nRequests - r.msgCount
      routed := s.routed ++ r.moved
      router := afterBack front stop }.Holds nt := by
  obtain ⟨hforwarding, hreturning, hfinished⟩ := afterBack_calls front stop
  have hr : r.Holds := by
    have h := hs.returning
    rwa [hrouter] at h
  have hcurrent := current_eq_none hr hincoming
  have hexchange : ZMQNet.exchange nt { s with
      nRequests := s.nRequests - r.msgCount
      routed := s.routed ++ r.moved
      router := afterBack front stop } = s.exchange nt := by
    unfold ZMQNet.exchange
    simp only [hforwarding, hreturning]
    rw [hrouter]
    simp only [ZmqRouter.forwarding, ZmqRouter.returning, hcurrent]
    rfl
  have hconserved : keys s.forwarded = keys s.routed + keys r.moved + s.inServer nt := by
    have h := hs.conserved
    rw [hrouter] at h
    simpa [ZmqRouter.forwarding, ZmqRouter.returning, RecvAndSend.start] using h
  constructor
  · rw [hexchange]
    exact hs.exchange
  · exact hs.session
  · exact hs.clients
  · exact hs.fatalError
  · rw [hforwarding]
    exact RecvAndSend.holds_start
  · rw [hreturning]
    exact RecvAndSend.holds_start
  · unfold inServer at hconserved ⊢
    rw [hrouter] at hconserved
    simp only [ZmqRouter.returning, hcurrent] at hconserved
    simp only [hforwarding, hreturning, keys_append]
    rw [hconserved]
    simp [RecvAndSend.start]
  · simp only [hs.requests, hr.msgCount, List.length_append]
    push_cast
    omega
  · have hcard := congrArg Multiset.card hconserved
    simp only [Multiset.card_add, card_keys] at hcard
    simp only [hs.requests, hr.msgCount]
    omega
  · intro status h
    exact absurd h (hfinished status)

/-- Every step keeps the counters right. -/
theorem Holds.exec {s t : ZMQNet} (hs : s.Holds nt) {maxMsg : ℕ} {autoshutdown : Bool}
    {a : ZmqAction} (h : ZMQNet.exec nt maxMsg autoshutdown s a = .ok t) : t.Holds nt := by
  cases a with
  | clientSend m =>
    simp only [ZMQNet.exec] at h
    split at h
    · rename_i hmay
      cases h
      exact hs.clientSend m hmay.1 hmay.2
    · cases h
  | clientRecv index =>
    simp only [ZMQNet.exec] at h
    split at h
    · rename_i m hm
      cases h
      exact hs.clientRecv hm
    · cases h
  | workerRecv w index =>
    simp only [ZMQNet.exec] at h
    split at h
    · rename_i m hidle hm
      split at h
      · rename_i hw
        cases h
        exact hs.workerRecv hw hidle hm
      · cases h
    · cases h
  | workerAct w size =>
    simp only [ZMQNet.exec] at h
    split at h
    · rename_i m hreceived
      split at h
      · rename_i hw
        cases h
        exact hs.workerAct hw hreceived size
      · cases h
    · cases h
  | workerSend w =>
    simp only [ZMQNet.exec] at h
    split at h
    · rename_i m hreplying
      split at h
      · rename_i hw
        cases h
        exact hs.workerSend hw hreplying
      · cases h
    · cases h
  | testClients =>
    simp only [ZMQNet.exec] at h
    split at h
    · rename_i hrouter
      cases h
      exact hs.setRouter (by rw [hrouter]; rfl) (by rw [hrouter]; rfl) fun _ h => by cases h
    · cases h
  | testQueue =>
    simp only [ZMQNet.exec] at h
    split at h
    · rename_i hrouter
      split at h
      · rename_i hcleared
        cases h
        exact hs.setRouter (by rw [hrouter]; rfl) (by rw [hrouter]; rfl) fun _ _ => hcleared.2
      · cases h
        exact hs.setRouter (by rw [hrouter]; rfl) (by rw [hrouter]; rfl) fun _ h => by cases h
    · cases h
  | pollReady back front stop =>
    simp only [ZMQNet.exec] at h
    split at h
    · rename_i hrouter
      split at h
      · cases h
        cases back with
        | true =>
          exact hs.setRouter (by rw [hrouter]; rfl) (by rw [hrouter]; rfl) fun _ h => by cases h
        | false =>
          obtain ⟨hforwarding, hreturning, hfinished⟩ := afterBack_calls front stop
          exact hs.setRouter (by rw [hrouter]; exact hforwarding)
            (by rw [hrouter]; exact hreturning) fun status h => absurd h (hfinished status)
      · cases h
    · cases h
  | pollFailed status =>
    simp only [ZMQNet.exec] at h
    split at h
    · rename_i hrouter
      cases h
      exact hs.setRouter (by rw [hrouter]; rfl) (by rw [hrouter]; rfl) fun _ h => by cases h
    · cases h
  | recvPart index =>
    simp only [ZMQNet.exec] at h
    split at h
    · rename_i r front stop hrouter
      cases hrun : r.recvPart maxMsg s.toBackend s.toClients index with
      | error e =>
        rw [hrun] at h
        cases h
      | ok result =>
        rw [hrun] at h
        cases h
        exact hs.giveBack hrouter hrun
    · rename_i r stop hrouter
      cases hrun : r.recvPart maxMsg s.toFrontend s.toWorkers index with
      | error e =>
        rw [hrun] at h
        cases h
      | ok result =>
        rw [hrun] at h
        cases h
        exact hs.forward hrouter hrun
    · cases h
  | recvAndSendReturn =>
    simp only [ZMQNet.exec] at h
    split at h
    · rename_i r front stop hrouter
      split at h
      · rename_i hincoming
        cases h
        exact hs.giveBackReturn hrouter hincoming
      · cases h
    · rename_i r stop hrouter
      split at h
      · rename_i hincoming
        cases h
        exact hs.forwardReturn hrouter hincoming
      · cases h
    · cases h

/-- In every run, the number of outstanding requests is that of the requests forwarded less that of
the replies routed back, and the number of clients is that of the handshakes less that of the
disconnects, and neither is negative. The requests that were forwarded, also by the call under way,
are those whose replies were routed back and those that are with the workers or on their way back.
When the router has left its loop because all clients were gone, every request that it forwarded
has had its reply routed back. -/
theorem shutdown_queue_empty (nt maxMsg : ℕ) (autoshutdown : Bool) {s : ZMQNet}
    (hs : Reaches nt maxMsg autoshutdown start s) :
    (s.nRequests = s.forwarded.length - s.routed.length ∧ 0 ≤ s.nRequests) ∧
      (s.clients = s.handshakes - s.disconnects ∧ 0 ≤ s.clients ∧ s.fatalError = false) ∧
      keys s.forwarded + keys s.router.forwarding.moved =
        keys s.routed + keys s.router.returning.moved + s.inServer nt ∧
      ∀ status, s.router = .finished status →
        keys s.forwarded = keys s.routed ∧ s.inServer nt = 0 := by
  have h : s.Holds nt := hs.invariant (fun s => s.Holds nt) holds_start
    fun _ _ _ h _ hexec => h.exec hexec
  refine ⟨⟨h.requests, h.nonneg⟩, ⟨h.clients, ?_, h.fatalError⟩, h.conserved, ?_⟩
  · have hle := disconnects_le h.exchange h.session
    rw [h.clients]
    omega
  · intro status hfinished
    have hzero := h.finished status hfinished
    have hconserved : keys s.forwarded = keys s.routed + s.inServer nt := by
      have hall := h.conserved
      rw [hfinished] at hall
      simpa [ZmqRouter.forwarding, ZmqRouter.returning, RecvAndSend.start] using hall
    have hcard := congrArg Multiset.card hconserved
    rw [Multiset.card_add, card_keys, card_keys] at hcard
    have hrequests := h.requests
    have hnone : s.inServer nt = 0 := by
      rw [← Multiset.card_eq_zero]
      omega
    rw [hnone, add_zero] at hconserved
    exact ⟨hconserved, hnone⟩

/-- One client registers and leaves, served by one worker. -/
def oneClient : List ZmqAction :=
  let served (request : NetRequest) : List ZmqAction :=
    [.clientSend ⟨0, request, 12⟩, .testClients, .testQueue, .pollReady false true false,
      .recvPart 0, .recvPart 0, .recvPart 0, .recvAndSendReturn, .workerRecv 0 0, .workerAct 0 20,
      .workerSend 0, .testClients, .testQueue, .pollReady true false false, .recvPart 0,
      .recvPart 0, .recvPart 0, .recvAndSendReturn, .clientRecv 0]
  served .handshake ++ served .disconnect ++ [.testClients, .testQueue]

/-- The server ends when the only client has left. -/
theorem shutdown_queue_empty_oneClient :
    ∃ s : ZMQNet, s.router = .finished .stoppedAutomatically ∧
      keys s.forwarded = keys s.routed ∧ s.routed.length = 2 := by
  have hrun : ∃ s ∈ runAll (exec 1 10 true) (fun _ _ => True) start oneClient,
      (match s.router with | .finished .stoppedAutomatically => true | _ => false) = true ∧
        s.routed.length = 2 := by
    decide +kernel
  obtain ⟨s, hs, hstatus, hlength⟩ := hrun
  have hrouter : s.router = .finished .stoppedAutomatically := by
    split at hstatus
    · rename_i heq
      exact heq
    · cases hstatus
  have hall := shutdown_queue_empty 1 10 true (runs_of_runAll _ hs)
  exact ⟨s, hrouter, (hall.2.2.2 _ hrouter).1, hlength⟩

end ZMQNet

end Chimbuko
