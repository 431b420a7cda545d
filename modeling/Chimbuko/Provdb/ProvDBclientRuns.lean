import Chimbuko.Provdb.ProvDBclient

/-!
# Steps of a provenance database instance

What a step can do is said once. Every step leaves the hellos and goodbyes as they are, or moves
them on as a registry does whose notices are under way. Every request that was sent is under way to
the server or in the database, once, and as long as a client manages it and is not told that it is
complete, the client is connected.
-/

namespace Chimbuko

open Presence TransitionSystem

namespace ProvDBinstance

variable {ι : Type} [DecidableEq ι] {cs : ProvDBclients ι} {autoshutdown : Bool}
  {s t : ProvDBinstance ι} {a : ProvDBaction ι}

/-- The next state of a client whose requests stay managed until they are complete. -/
structure Tracks (s : ProvDBinstance ι) (c : ι) (client : ProvDBclient) : Prop where
  isConnected : client.isConnected = (s.clients c).isConnected
  outstanding : ∀ id ∈ (s.clients c).outstanding, id ∉ s.completed → id ∈ client.outstanding
  storing : ∀ id, (s.clients c).phase ≠ .storing id
  connected : client.isConnected = false → client.outstanding = [] ∧ client.phase = .free

/-- A step that touches no client, request or notice, and does not end the wait loop. -/
structure Untouched (s t : ProvDBinstance ι) : Prop where
  waiting : t.waiting = s.waiting
  stopWaitLoop : t.stopWaitLoop = s.stopWaitLoop
  registered : t.admin.registered = s.admin.registered
  aClientHasConnected : t.admin.aClientHasConnected = s.admin.aClientHasConnected
  clients : t.clients = s.clients
  present : t.committer.isPresent = s.committer.isPresent
  told : ∀ conn, t.committer = .told conn →
    s.committer = .told conn ∨ conn = s.admin.connectionStatus
  notices : t.notices = s.notices
  requests : t.requests = s.requests
  replies : t.replies = s.replies
  database : t.database = s.database
  completed : t.completed = s.completed
  sessions : t.sessions = s.sessions
  sent : t.sent = s.sent

/-- A client that is not connected has nothing to wait for. -/
def Settled (s : ProvDBinstance ι) : Prop :=
  ∀ c, (s.clients c).isConnected = false →
    (s.clients c).outstanding = [] ∧ (s.clients c).phase = .free

variable (cs s) in
/-- What a step can do. -/
inductive Outcome : ProvDBaction ι → ProvDBinstance ι → Prop
  | untouched {a : ProvDBaction ι} {t : ProvDBinstance ι} : Untouched s t → Outcome a t
  | left (autoshutdown : Bool) : s.waiting = true →
      s.stopWaitLoop = true ∨ s.admin.doBreak autoshutdown = true →
      Outcome .waitLoop { s with waiting := false }
  | signalled : Outcome .termSignal { s with stopWaitLoop := true }
  | connected (c : ι) : s.waiting = true → (s.clients c).phase = .free →
      cs.party (some c) = none →
      Outcome (.connect c) (s.setClient c { s.clients c with isConnected := true })
  | hello (c : ι) : s.waiting = true → (s.clients c).phase = .free →
      cs.party (some c) ≠ none →
      Outcome (.connect c)
        ((s.setClient c { s.clients c with isConnected := true }).sayHello (some c))
  | worked {a : ProvDBaction ι} (c : ι) (client : ProvDBclient) : Tracks s c client →
      Outcome a (s.setClient c client)
  | sent {a : ProvDBaction ι} (c : ι) (collection : String) (entries : List String)
      (awaited : Bool) (client : ProvDBclient) : Tracks s c client →
      (awaited = true → s.sent.length ∈ client.outstanding ∨
        client.phase = .storing s.sent.length) →
      Outcome a (s.send (s.newRequest c collection entries awaited) client)
  | disconnected (c : ι) : (s.clients c).outstanding = [] →
      (s.clients c).phase = .waitAll true → cs.party (some c) = none →
      Outcome (.waitAll c)
        (s.setClient c { s.clients c with isConnected := false, phase := .free })
  | goodbye (c : ι) : (s.clients c).outstanding = [] →
      (s.clients c).phase = .waitAll true → cs.party (some c) ≠ none →
      Outcome (.waitAll c)
        ((s.setClient c { s.clients c with isConnected := false, phase := .free }).sayGoodbye
          (some c))
  | stored (q : StoreRequest ι) : s.waiting = true → q ∈ s.requests →
      Outcome (.store q)
        { s with
          database := s.database ++ [q]
          requests := s.requests.erase q
          replies := s.replies ++ [q] }
  | replied (q : StoreRequest ι) (client : ProvDBclient) : q ∈ s.replies →
      client.isConnected = (s.clients q.client).isConnected →
      client.outstanding = (s.clients q.client).outstanding →
      client.phase = (if (s.clients q.client).phase = .storing q.id then .free
        else (s.clients q.client).phase) →
      Outcome (.reply q)
        { s.setClient q.client client with
          replies := s.replies.erase q
          completed := q.id :: s.completed }
  | heard (n : Notice (Option ι)) (p : ProvDBparty) : s.waiting = true → n ∈ s.notices →
      cs.party n.party = some p →
      Outcome (.hear n) { s with admin := s.admin.hear n.opens p, notices := s.notices.erase n }
  | committerHello : s.waiting = true → s.committer = .off →
      Outcome .committerHello ({ s with committer := .looping }.sayHello none)
  | committerGoodbye {a : ProvDBaction ι} : s.committer.isPresent = true →
      Outcome a s.committerGoodbye

omit [DecidableEq ι] in
/-- A state is untouched by no step. -/
theorem Untouched.refl (s : ProvDBinstance ι) : Untouched s s :=
  ⟨rfl, rfl, rfl, rfl, rfl, rfl, fun _ => Or.inl, rfl, rfl, rfl, rfl, rfl, rfl, rfl⟩

omit [DecidableEq ι] in
/-- What a client does when it is in no call. -/
theorem of_whenFree {c : ι} {next : Except String (ProvDBinstance ι)}
    (h : s.whenFree c next = .ok t) : (s.clients c).phase = .free ∧ next = .ok t := by
  unfold whenFree at h
  split at h
  · rename_i hfree
    exact ⟨hfree, h⟩
  · cases h

omit [DecidableEq ι] in
/-- A client that is free goes on with the requests that it has. -/
theorem tracks_phase {c : ι} (hphase : ∀ id, (s.clients c).phase ≠ .storing id)
    (hconnected : (s.clients c).isConnected = true) (phase : ProvDBclientPhase) :
    Tracks s c { s.clients c with phase := phase } where
  isConnected := rfl
  outstanding _ hid _ := hid
  storing := hphase
  connected h := by
    rw [hconnected] at h
    cases h

/-- The outcome of `connect`. -/
theorem connect_outcome {c : ι} (hfree : (s.clients c).phase = .free)
    (h : s.connect cs c = .ok t) : Outcome cs s (.connect c) t := by
  unfold connect at h
  split at h
  · cases h
  · rename_i hwaiting
    rw [not_not] at hwaiting
    cases h
    cases hparty : cs.party (some c) with
    | none => exact .connected c hwaiting hfree hparty
    | some p => exact .hello c hwaiting hfree (by simp [hparty])

/-- The outcome of a blocking request. -/
theorem storeSync_outcome {c : ι} {collection : String} {entries : List String}
    (hfree : (s.clients c).phase = .free) (hconnected : (s.clients c).isConnected = true)
    (h : s.storeSync cs c collection entries = .ok t) : Outcome cs s a t := by
  unfold storeSync at h
  split at h
  · cases h
  · cases h
    exact .sent c collection entries true _ (tracks_phase (by simp [hfree]) hconnected _)
      fun _ => Or.inr rfl

/-- The outcome of a request that is not waited for. -/
theorem storeAsync_outcome {c : ι} {collection : String} {entries : List String}
    {ownRequest : Bool} (hfree : (s.clients c).phase = .free)
    (hconnected : (s.clients c).isConnected = true)
    (h : s.storeAsync cs c collection entries ownRequest = .ok t) : Outcome cs s a t := by
  unfold storeAsync at h
  simp only at h
  split at h
  · cases h
  · split at h
    · cases h
      exact .sent c collection entries false _
        (tracks_phase (by simp [hfree]) hconnected (s.clients c).phase) fun h => by cases h
    · cases h
      refine .sent c collection entries true _ ⟨rfl, fun id hid hcomplete => ?_, ?_, ?_⟩
        fun _ => Or.inl (List.mem_append_right _ (List.mem_singleton.mpr rfl))
      · exact List.mem_append_left _ (List.mem_filter.mpr ⟨hid, by simpa using hcomplete⟩)
      · simp [hfree]
      · intro hdisconnected
        rw [hconnected] at hdisconnected
        cases hdisconnected

/-- The outcome of `sendMultipleData`. -/
theorem sendMultipleData_outcome {c : ι} {entries : List JsonEntry} {collection : String}
    (hfree : (s.clients c).phase = .free)
    (h : s.sendMultipleData cs c entries collection = .ok t) : Outcome cs s a t := by
  unfold sendMultipleData at h
  split at h
  · cases h
    exact .untouched (.refl s)
  · rename_i hsends
    obtain ⟨texts, -, hstore⟩ := bind_eq_ok h
    exact storeSync_outcome hfree (not_not.mp (not_or.mp hsends).2) hstore

/-- The outcome of `sendMultipleDataAsync`. -/
theorem sendMultipleDataAsync_outcome {c : ι} {entries : List JsonEntry} {collection : String}
    {ownRequest : Bool} (hfree : (s.clients c).phase = .free)
    (h : s.sendMultipleDataAsync cs c entries collection ownRequest = .ok t) :
    Outcome cs s a t := by
  unfold sendMultipleDataAsync at h
  split at h
  · cases h
    exact .untouched (.refl s)
  · rename_i hsends
    obtain ⟨texts, -, hstore⟩ := bind_eq_ok h
    exact storeAsync_outcome hfree (not_not.mp (not_or.mp hsends).2) hstore

/-- The outcome of starting to wait for all requests. -/
theorem startWaitAll_outcome {c : ι} {disconnecting : Bool} (hfree : (s.clients c).phase = .free) :
    Outcome cs s a (s.startWaitAll c disconnecting) := by
  unfold startWaitAll
  split
  · rename_i hconnected
    exact .worked c _ (tracks_phase (by simp [hfree]) hconnected _)
  · exact .untouched (.refl s)

/-- The outcome of a turn of `waitAll`. -/
theorem waitAll_outcome {c : ι} (hsettled : Settled s) (h : s.waitAll cs c = .ok t) :
    Outcome cs s (.waitAll c) t := by
  have hconnected : (s.clients c).phase ≠ .free → (s.clients c).isConnected = true := by
    intro hphase
    cases hcase : (s.clients c).isConnected with
    | true => rfl
    | false => exact absurd (hsettled c hcase).2 hphase
  unfold waitAll at h
  split at h
  · rename_i id rest hphase houtstanding
    split at h
    · rename_i hcomplete
      cases h
      refine .worked c _ ⟨rfl, fun id' hid' hopen => ?_, by simp [hphase], fun hdis => ?_⟩
      · rw [houtstanding] at hid'
        rcases List.mem_cons.mp hid' with rfl | hrest
        · exact absurd hcomplete hopen
        · exact hrest
      · have hcon := hconnected (by simp [hphase])
        rw [hcon] at hdis
        cases hdis
    · cases h
  · rename_i hphase houtstanding
    cases h
    cases hparty : cs.party (some c) with
    | none => exact .disconnected c houtstanding hphase hparty
    | some p => exact .goodbye c houtstanding hphase (by simp [hparty])
  · rename_i hphase houtstanding
    cases h
    exact .worked c _ (tracks_phase (by simp [hphase]) (hconnected (by simp [hphase])) _)
  · cases h

/-- The outcome of an iteration of the wait loop. -/
theorem waitLoop_outcome (h : s.waitLoop autoshutdown = .ok t) : Outcome cs s .waitLoop t := by
  unfold waitLoop at h
  split at h
  · cases h
  · rename_i hwaiting
    rw [not_not] at hwaiting
    split at h
    · rename_i hstop
      cases h
      exact .left autoshutdown hwaiting (Or.inl hstop)
    · split at h
      · rename_i hbreak
        cases h
        exact .left autoshutdown hwaiting (Or.inr hbreak)
      · cases h
        exact .untouched (.refl s)

/-- Every step has one of the outcomes. -/
theorem exec_outcome (hsettled : Settled s) (h : s.exec cs autoshutdown a = .ok t) :
    Outcome cs s a t := by
  cases a with
  | connect c =>
    obtain ⟨hfree, hnext⟩ := of_whenFree h
    exact connect_outcome hfree hnext
  | sendData c entry collection =>
    obtain ⟨hfree, hnext⟩ := of_whenFree h
    unfold sendData at hnext
    split at hnext
    · cases hnext
    · split at hnext
      · cases hnext
        exact .untouched (.refl s)
      · rename_i hconnected
        exact storeSync_outcome hfree (not_not.mp hconnected) hnext
  | sendMultipleData c entries collection =>
    obtain ⟨hfree, hnext⟩ := of_whenFree h
    exact sendMultipleData_outcome hfree hnext
  | sendDataAsync c entry collection ownRequest =>
    obtain ⟨hfree, hnext⟩ := of_whenFree h
    unfold sendDataAsync at hnext
    split at hnext
    · cases hnext
    · split at hnext
      · cases hnext
        exact .untouched (.refl s)
      · rename_i hconnected
        exact storeAsync_outcome hfree (not_not.mp hconnected) hnext
  | sendMultipleDataAsync c entries collection ownRequest =>
    obtain ⟨hfree, hnext⟩ := of_whenFree h
    exact sendMultipleDataAsync_outcome hfree hnext
  | getNoutstandingAsyncReqs c =>
    obtain ⟨hfree, hnext⟩ := of_whenFree h
    cases hnext
    refine .worked c _ ⟨rfl, fun id hid hopen => ?_, by simp [hfree], fun hdis => ?_⟩
    · exact List.mem_filter.mpr ⟨hid, by simpa using hopen⟩
    · obtain ⟨hnil, hphase⟩ := hsettled c hdis
      refine ⟨?_, hphase⟩
      change s.purge (s.clients c).outstanding = []
      rw [hnil]
      rfl
  | waitForSendComplete c =>
    obtain ⟨hfree, hnext⟩ := of_whenFree h
    cases hnext
    exact startWaitAll_outcome hfree
  | disconnect c =>
    obtain ⟨hfree, hnext⟩ := of_whenFree h
    cases hnext
    exact startWaitAll_outcome hfree
  | waitAll c => exact waitAll_outcome hsettled h
  | stopServer c =>
    obtain ⟨hfree, hnext⟩ := of_whenFree h
    split at hnext
    · cases hnext
      exact .untouched
        ⟨rfl, rfl, rfl, rfl, rfl, rfl, fun _ => Or.inl, rfl, rfl, rfl, rfl, rfl, rfl, rfl⟩
    · cases hnext
  | store q =>
    change s.store q = .ok t at h
    unfold store at h
    split at h
    · rename_i hq
      cases h
      exact .stored q hq.1 hq.2
    · cases h
  | reply q =>
    change s.reply q = .ok t at h
    unfold reply at h
    split at h
    · rename_i hq
      cases h
      refine .replied q _ hq ?_ ?_ ?_
      all_goals split <;> rfl
    · cases h
  | hear n =>
    change s.hear cs n = .ok t at h
    unfold hear at h
    split at h
    · rename_i p hparty
      split at h
      · rename_i hn
        cases h
        exact .heard n p hn.1 hn.2 hparty
      · cases h
    · cases h
  | clientStopRpc =>
    change (if _ then _ else _ : Except String (ProvDBinstance ι)) = _ at h
    split at h
    · cases h
      refine .untouched
        ⟨rfl, rfl, ?_, rfl, rfl, rfl, fun _ => Or.inl, rfl, rfl, rfl, rfl, rfl, rfl, rfl⟩
      funext p
      cases p <;> rfl
    · cases h
  | connectionStatus =>
    change (if _ then _ else _ : Except String (ProvDBinstance ι)) = _ at h
    split at h
    · rename_i hasking
      cases h
      refine .untouched ⟨rfl, rfl, rfl, rfl, rfl, ?_, fun conn hconn => Or.inr ?_,
        rfl, rfl, rfl, rfl, rfl, rfl, rfl⟩
      · rw [hasking.2]
        rfl
      · exact (CommitterPhase.told.inj hconn).symm
    · cases h
  | waitLoop => exact waitLoop_outcome h
  | termSignal =>
    cases h
    exact .signalled
  | committerHello =>
    change (if _ then _ else _ : Except String (ProvDBinstance ι)) = _ at h
    split at h
    · rename_i hoff
      cases h
      exact .committerHello hoff.1 hoff.2
    · cases h
  | committerAsk =>
    change (if _ then _ else _ : Except String (ProvDBinstance ι)) = _ at h
    split at h
    · rename_i hlooping
      cases h
      refine .untouched ⟨rfl, rfl, rfl, rfl, rfl, ?_, (fun conn hconn => by cases hconn),
        rfl, rfl, rfl, rfl, rfl, rfl, rfl⟩
      rw [hlooping]
      rfl
    · cases h
  | committerExitCheck =>
    unfold exec at h
    simp only at h
    split at h
    · rename_i conn htold
      obtain ⟨leaves, -, hnext⟩ := bind_eq_ok h
      cases hnext
      cases leaves with
      | true =>
        refine .committerGoodbye ?_
        rw [htold]
        rfl
      | false =>
        refine .untouched ⟨rfl, rfl, rfl, rfl, rfl, ?_, (fun conn hconn => by cases hconn),
          rfl, rfl, rfl, rfl, rfl, rfl, rfl⟩
        rw [htold]
        rfl
    · cases h
  | committerTermSignal =>
    change (if _ then _ else _ : Except String (ProvDBinstance ι)) = _ at h
    split at h
    · rename_i hlooping
      cases h
      refine .committerGoodbye ?_
      rw [hlooping]
      rfl
    · cases h

section Ledger

/-- Setting a client leaves the others. -/
theorem setClient_clients (s : ProvDBinstance ι) (c : ι) (client : ProvDBclient) (d : ι) :
    (s.setClient c client).clients d = if d = c then client else s.clients d :=
  Function.update_apply s.clients c client d

omit [DecidableEq ι] in
/-- Nobody presents itself as another one does. -/
theorem party_injective {p q : Option ι} {x : ProvDBparty} (hp : cs.party p = some x)
    (hq : cs.party q = some x) : p = q := by
  have hkind : ∀ c : ι, cs.party (some c) = some x →
      cs.performHandshake c = true ∧ (cs.kind c).party = some x := by
    intro c hc
    unfold ProvDBclients.party at hc
    simp only at hc
    split at hc
    · rename_i hshake
      exact ⟨hshake, hc⟩
    · cases hc
  have hcommitter : ∀ c : ι, cs.party (some c) = some x → x ≠ .committer := by
    rintro c hc rfl
    have hparty := (hkind c hc).2
    cases hcase : cs.kind c with
    | adProvenance rank =>
      rw [hcase] at hparty
      cases hparty
    | psGlobalProvenance =>
      rw [hcase] at hparty
      cases hparty
    | psShardProvenance =>
      rw [hcase] at hparty
      cases hparty
  cases p with
  | none =>
    cases q with
    | none => rfl
    | some d =>
      cases hp
      exact absurd rfl (hcommitter d hq)
  | some c =>
    cases q with
    | none =>
      cases hq
      exact absurd rfl (hcommitter c hp)
    | some d =>
      obtain ⟨hc, hcx⟩ := hkind c hp
      obtain ⟨hd, hdx⟩ := hkind d hq
      rw [cs.distinct c d hc hd (by simp [hcx]) (hcx.trans hdx.symm)]

/-- What a party's client does not change about its connection, it does not change about who is
present. -/
theorem ledger_setClient {c : ι} {client : ProvDBclient}
    (h : cs.party (some c) = none ∨ client.isConnected = (s.clients c).isConnected) :
    (s.setClient c client).ledger cs = s.ledger cs := by
  refine Ledger.ext rfl (funext fun p => ?_) rfl rfl
  cases p with
  | none => rfl
  | some d =>
    change ((cs.party (some d)).isSome && ((s.setClient c client).clients d).isConnected) =
      ((cs.party (some d)).isSome && (s.clients d).isConnected)
    rw [setClient_clients]
    by_cases hd : d = c
    · rw [if_pos hd, hd]
      rcases h with hnone | hsame
      · rw [hnone]
        rfl
      · rw [hsame]
    · rw [if_neg hd]

/-- In the ledger, a hello of a client starts a session. -/
theorem ledger_hello {c : ι} (hparty : cs.party (some c) ≠ none) :
    ((s.setClient c { s.clients c with isConnected := true }).sayHello (some c)).ledger cs =
      (s.ledger cs).enter (some c) := by
  refine Ledger.ext rfl (funext fun p => ?_) rfl rfl
  cases p with
  | none => rfl
  | some d =>
    change ((cs.party (some d)).isSome &&
      ((s.setClient c { s.clients c with isConnected := true }).clients d).isConnected) =
        Function.update (s.ledger cs).present (some c) true (some d)
    rw [setClient_clients, Function.update_apply]
    by_cases hd : d = c
    · rw [if_pos hd, if_pos (congrArg some hd), hd]
      rw [Option.isSome_iff_ne_none.mpr hparty]
      rfl
    · rw [if_neg hd, if_neg fun h => hd (Option.some.inj h)]
      rfl

/-- In the ledger, a goodbye of a client ends its session. -/
theorem ledger_goodbye {c : ι} :
    ((s.setClient c { s.clients c with isConnected := false, phase := .free }).sayGoodbye
      (some c)).ledger cs = (s.ledger cs).leave (some c) := by
  refine Ledger.ext rfl (funext fun p => ?_) rfl rfl
  cases p with
  | none => rfl
  | some d =>
    change ((cs.party (some d)).isSome && ((s.setClient c
      { s.clients c with isConnected := false, phase := .free }).clients d).isConnected) =
        Function.update (s.ledger cs).present (some c) false (some d)
    rw [setClient_clients, Function.update_apply]
    by_cases hd : d = c
    · rw [if_pos hd, if_pos (congrArg some hd)]
      exact Bool.and_false _
    · rw [if_neg hd, if_neg fun h => hd (Option.some.inj h)]
      rfl

omit [DecidableEq ι] in
/-- The committer's phase tells whether it is present, and leaves the clients. -/
theorem isPresent_committer (committer : CommitterPhase) (p : Option ι) :
    ({ s with committer := committer } : ProvDBinstance ι).isPresent cs p =
      if p = none then committer.isPresent else s.isPresent cs p := by
  cases p with
  | none => rfl
  | some d => rfl

/-- In the ledger, a hello of the committer starts a session. -/
theorem ledger_committerHello :
    (({ s with committer := .looping } : ProvDBinstance ι).sayHello none).ledger cs =
      (s.ledger cs).enter none := by
  refine Ledger.ext rfl (funext fun p => ?_) rfl rfl
  change ({ s with committer := .looping } : ProvDBinstance ι).isPresent cs p =
    Function.update (s.isPresent cs) none true p
  rw [isPresent_committer, Function.update_apply]
  rfl

/-- In the ledger, a goodbye of the committer ends its session. -/
theorem ledger_committerGoodbye : s.committerGoodbye.ledger cs = (s.ledger cs).leave none := by
  refine Ledger.ext rfl (funext fun p => ?_) rfl rfl
  change ({ s with committer := .done } : ProvDBinstance ι).isPresent cs p =
    Function.update (s.isPresent cs) none false p
  rw [isPresent_committer, Function.update_apply]
  rfl

/-- After a notice the server knows of the party what the notice says. -/
theorem knows_heard {n : Notice (Option ι)} {p : ProvDBparty} (hparty : cs.party n.party = some p)
    (q : Option ι) :
    ({ s with admin := s.admin.hear n.opens p, notices := s.notices.erase n } :
      ProvDBinstance ι).knows cs q = if q = n.party then n.opens else s.knows cs q := by
  unfold knows
  by_cases hq : q = n.party
  · rw [if_pos hq, hq, hparty]
    simp only [ProvDBadmin.registered_hear, if_true]
  · rw [if_neg hq]
    cases hx : cs.party q with
    | none => rfl
    | some x =>
      have hne : x ≠ p := by
        rintro rfl
        exact hq (party_injective hx hparty)
      simp only [ProvDBadmin.registered_hear, if_neg hne]

/-- In the ledger, handling a notice is receiving it. -/
theorem ledger_heard {n : Notice (Option ι)} {p : ProvDBparty}
    (hparty : cs.party n.party = some p) :
    ({ s with admin := s.admin.hear n.opens p, notices := s.notices.erase n } :
      ProvDBinstance ι).ledger cs = (s.ledger cs).receive n := by
  refine Ledger.ext rfl rfl rfl (funext fun q => ?_)
  change ({ s with admin := s.admin.hear n.opens p, notices := s.notices.erase n } :
    ProvDBinstance ι).knows cs q = Function.update (s.knows cs) n.party n.opens q
  rw [knows_heard hparty, Function.update_apply]

omit [DecidableEq ι] in
/-- What leaves an instance untouched leaves its ledger. -/
theorem Untouched.ledger_eq (h : Untouched s t) : t.ledger cs = s.ledger cs := by
  refine Ledger.ext h.sessions (funext fun p => ?_) h.notices (funext fun p => ?_)
  · cases p with
    | none => exact h.present
    | some c =>
      change ((cs.party (some c)).isSome && (t.clients c).isConnected) = _
      rw [h.clients]
      rfl
  · change t.knows cs p = s.knows cs p
    unfold knows
    rw [h.registered]

/-- A step in which somebody enters, leaves, or is heard. -/
def Moves (a : ProvDBaction ι) : Act (Option ι) → Prop
  | .enter (some c) => a = .connect c
  | .enter none => a = .committerHello
  | .leave _ => True
  | .receive n => a = .hear n

/-- A step leaves hellos and goodbyes as they are, or is a step of the registry. -/
theorem Outcome.ledger (hsettled : Settled s) (h : Outcome cs s a t) :
    t.ledger cs = s.ledger cs ∨
      ∃ act, Ledger.Step (s.ledger cs) act (t.ledger cs) ∧ Moves a act := by
  cases h with
  | untouched h => exact Or.inl h.ledger_eq
  | left autoshutdown hwaiting hbreak => exact Or.inl rfl
  | signalled => exact Or.inl rfl
  | connected c hwaiting hfree hparty => exact Or.inl (ledger_setClient (Or.inl hparty))
  | hello c hwaiting hfree hparty =>
    rw [ledger_hello hparty]
    exact Or.inr ⟨.enter (some c), .enter _ _, rfl⟩
  | worked c client htracks => exact Or.inl (ledger_setClient (Or.inr htracks.isConnected))
  | sent c collection entries awaited client htracks hmanaged =>
    exact Or.inl (ledger_setClient (Or.inr htracks.isConnected))
  | disconnected c hnil hphase hparty => exact Or.inl (ledger_setClient (Or.inl hparty))
  | goodbye c hnil hphase hparty =>
    rw [ledger_goodbye]
    refine Or.inr ⟨.leave (some c), .leave _ _ ?_, trivial⟩
    change ((cs.party (some c)).isSome && (s.clients c).isConnected) = true
    rw [Option.isSome_iff_ne_none.mpr hparty, Bool.true_and]
    cases hcase : (s.clients c).isConnected with
    | true => rfl
    | false =>
      rw [(hsettled c hcase).2] at hphase
      cases hphase
  | stored q hwaiting hq => exact Or.inl rfl
  | replied q client hq hconnected houtstanding hphase =>
    exact Or.inl (ledger_setClient (Or.inr hconnected))
  | heard n p hwaiting hn hparty =>
    rw [ledger_heard hparty]
    exact Or.inr ⟨.receive n, .receive _ _ hn, rfl⟩
  | committerHello hwaiting hoff =>
    rw [ledger_committerHello]
    exact Or.inr ⟨.enter none, .enter _ _, rfl⟩
  | committerGoodbye hpresent =>
    rw [ledger_committerGoodbye]
    exact Or.inr ⟨.leave none, .leave _ _ hpresent, trivial⟩

end Ledger

section Requests

omit [DecidableEq ι] in
/-- At the start no client waits. -/
theorem settled_start : Settled (start : ProvDBinstance ι) := fun _ _ => ⟨rfl, rfl⟩

/-- A client that has nothing to wait for unless it is connected. -/
theorem Settled.setClient (h : Settled s) (c : ι) (client : ProvDBclient)
    (hclient : client.isConnected = false → client.outstanding = [] ∧ client.phase = .free) :
    Settled (s.setClient c client) := by
  intro d hd
  rw [setClient_clients] at hd ⊢
  by_cases hdc : d = c
  · rw [if_pos hdc] at hd ⊢
    exact hclient hd
  · rw [if_neg hdc] at hd ⊢
    exact h d hd

/-- Every outcome keeps the clients settled. -/
theorem Outcome.settled (hsettled : Settled s) (h : Outcome cs s a t) : Settled t := by
  cases h with
  | untouched h =>
    intro c hc
    rw [h.clients] at hc ⊢
    exact hsettled c hc
  | left autoshutdown hwaiting hbreak => exact hsettled
  | signalled => exact hsettled
  | connected c hwaiting hfree hparty => exact hsettled.setClient c _ fun h => by cases h
  | hello c hwaiting hfree hparty =>
    exact hsettled.setClient c { s.clients c with isConnected := true } fun h => by cases h
  | worked c client htracks => exact hsettled.setClient c client htracks.connected
  | sent c collection entries awaited client htracks hmanaged =>
    exact hsettled.setClient c client htracks.connected
  | disconnected c hnil hphase hparty => exact hsettled.setClient c _ fun _ => ⟨hnil, rfl⟩
  | goodbye c hnil hphase hparty =>
    exact hsettled.setClient c { s.clients c with isConnected := false, phase := .free }
      fun _ => ⟨hnil, rfl⟩
  | stored q hwaiting hq => exact hsettled
  | replied q client hq hconnected houtstanding hphase =>
    refine hsettled.setClient q.client client fun hdis => ?_
    rw [hconnected] at hdis
    obtain ⟨hnil, hfree⟩ := hsettled q.client hdis
    rw [houtstanding, hphase, hfree]
    exact ⟨hnil, rfl⟩
  | heard n p hwaiting hn hparty => exact hsettled
  | committerHello hwaiting hoff => exact hsettled
  | committerGoodbye hpresent => exact hsettled

/-- Every request is under way or in the database, once, and a client that waits for one before it
says goodbye has it on its list as long as it is under way. -/
structure Served (s : ProvDBinstance ι) : Prop where
  ids : s.sent.map StoreRequest.id = List.range s.sent.length
  conserved : (s.database ++ s.requests).Perm s.sent
  replies : ∀ q ∈ s.replies, q ∈ s.database
  completed : ∀ id ∈ s.completed, ∃ q ∈ s.database, q.id = id
  managed : ∀ q ∈ s.requests, q.awaited = true → q.id ∈ (s.clients q.client).outstanding ∨
    (s.clients q.client).phase = .storing q.id

omit [DecidableEq ι] in
/-- At the start there are no requests. -/
theorem served_start : Served (start : ProvDBinstance ι) where
  ids := rfl
  conserved := .refl _
  replies _ h := by cases h
  completed _ h := by cases h
  managed _ h := by cases h

omit [DecidableEq ι] in
/-- The requests have different numbers. -/
theorem Served.nodup (h : Served s) : ((s.database ++ s.requests).map StoreRequest.id).Nodup := by
  have hnodup : (s.sent.map StoreRequest.id).Nodup := h.ids ▸ List.nodup_range
  exact (h.conserved.map StoreRequest.id).nodup_iff.mpr hnodup

omit [DecidableEq ι] in
/-- A request under way is not in the database, under its number. -/
theorem Served.ne_of_stored (h : Served s) {q q' : StoreRequest ι} (hq : q ∈ s.requests)
    (hq' : q' ∈ s.database) : q'.id ≠ q.id := by
  have hnodup := h.nodup
  rw [List.map_append, List.nodup_append] at hnodup
  exact hnodup.2.2 _ (List.mem_map_of_mem hq') _ (List.mem_map_of_mem hq)

omit [DecidableEq ι] in
/-- A request under way is not complete. -/
theorem Served.not_completed (h : Served s) {q : StoreRequest ι} (hq : q ∈ s.requests) :
    q.id ∉ s.completed := by
  intro hcompleted
  obtain ⟨q', hq', hid⟩ := h.completed _ hcompleted
  exact h.ne_of_stored hq hq' hid

/-- A client goes on with its requests. -/
theorem Served.tracks (h : Served s) {c : ι} {client : ProvDBclient} (htracks : Tracks s c client)
    {q : StoreRequest ι} (hq : q ∈ s.requests) (hawaited : q.awaited = true) :
    q.id ∈ ((s.setClient c client).clients q.client).outstanding ∨
      ((s.setClient c client).clients q.client).phase = .storing q.id := by
  rw [setClient_clients]
  have hold := h.managed q hq hawaited
  by_cases hc : q.client = c
  · rw [if_pos hc]
    rw [hc] at hold
    have hlisted := hold.resolve_right (htracks.storing q.id)
    exact Or.inl (htracks.outstanding q.id hlisted (h.not_completed hq))
  · rw [if_neg hc]
    exact hold

/-- A client whose list is empty when it is about to disconnect awaits nothing. -/
theorem Served.disconnected (h : Served s) {c : ι} {client : ProvDBclient}
    (hnil : (s.clients c).outstanding = []) (hphase : (s.clients c).phase = .waitAll true)
    {q : StoreRequest ι} (hq : q ∈ s.requests) (hawaited : q.awaited = true) :
    q.id ∈ ((s.setClient c client).clients q.client).outstanding ∨
      ((s.setClient c client).clients q.client).phase = .storing q.id := by
  rw [setClient_clients]
  have hold := h.managed q hq hawaited
  by_cases hc : q.client = c
  · rw [hc, hnil, hphase] at hold
    rcases hold with hmem | hstoring
    · cases hmem
    · cases hstoring
  · rw [if_neg hc]
    exact hold

/-- Another field of a client changes. -/
theorem Served.setClient (h : Served s) (c : ι) (client : ProvDBclient)
    (houtstanding : client.outstanding = (s.clients c).outstanding)
    (hphase : client.phase = (s.clients c).phase) {q : StoreRequest ι} (hq : q ∈ s.requests)
    (hawaited : q.awaited = true) :
    q.id ∈ ((s.setClient c client).clients q.client).outstanding ∨
      ((s.setClient c client).clients q.client).phase = .storing q.id := by
  rw [setClient_clients]
  have hold := h.managed q hq hawaited
  by_cases hc : q.client = c
  · rw [if_pos hc, houtstanding, hphase, ← hc]
    exact hold
  · rw [if_neg hc]
    exact hold

/-- Every outcome keeps the requests served. -/
theorem Outcome.served (hserved : Served s) (h : Outcome cs s a t) : Served t := by
  cases h with
  | untouched h =>
    refine ⟨?_, ?_, ?_, ?_, ?_⟩
    · rw [h.sent]
      exact hserved.ids
    · rw [h.database, h.requests, h.sent]
      exact hserved.conserved
    · rw [h.replies, h.database]
      exact hserved.replies
    · rw [h.completed, h.database]
      exact hserved.completed
    · rw [h.requests, h.clients]
      exact hserved.managed
  | left autoshutdown hwaiting hbreak => exact { hserved with }
  | signalled => exact { hserved with }
  | connected c hwaiting hfree hparty =>
    refine { hserved with managed := fun q hq => ?_ }
    exact hserved.setClient c { s.clients c with isConnected := true } rfl rfl hq
  | hello c hwaiting hfree hparty =>
    refine { hserved with managed := fun q hq => ?_ }
    exact hserved.setClient c { s.clients c with isConnected := true } rfl rfl hq
  | worked c client htracks =>
    exact { hserved with managed := fun q hq => hserved.tracks htracks hq }
  | sent c collection entries awaited client htracks hmanaged =>
    refine ⟨?_, ?_, hserved.replies, hserved.completed, fun q hq hawaited => ?_⟩
    · change (s.sent ++ [_]).map StoreRequest.id = List.range (s.sent ++ [_]).length
      rw [List.map_append, hserved.ids, List.length_append, List.length_singleton,
        List.range_succ]
      rfl
    · change (s.database ++ (s.requests ++ [_])).Perm (s.sent ++ [_])
      rw [← List.append_assoc]
      exact hserved.conserved.append_right _
    · rcases List.mem_append.mp hq with hold | hnew
      · exact hserved.tracks htracks hold hawaited
      · rw [List.mem_singleton.mp hnew] at hawaited ⊢
        change _ ∈ ((s.setClient c client).clients c).outstanding ∨
          ((s.setClient c client).clients c).phase = _
        rw [setClient_clients, if_pos rfl]
        exact hmanaged hawaited
  | disconnected c hnil hphase hparty =>
    exact { hserved with managed := fun q hq => hserved.disconnected hnil hphase hq }
  | goodbye c hnil hphase hparty =>
    exact { hserved with managed := fun q hq => hserved.disconnected hnil hphase hq }
  | stored q hwaiting hq =>
    refine ⟨hserved.ids, ?_, fun q' hq' => ?_, fun id hid => ?_, fun q' hq' =>
      hserved.managed q' (List.mem_of_mem_erase hq')⟩
    · change (s.database ++ [q] ++ s.requests.erase q).Perm s.sent
      rw [List.append_assoc]
      exact ((List.perm_cons_erase hq).symm.append_left s.database).trans hserved.conserved
    · rcases List.mem_append.mp hq' with hold | hnew
      · exact List.mem_append_left _ (hserved.replies q' hold)
      · exact List.mem_append_right _ hnew
    · obtain ⟨q', hq', hid'⟩ := hserved.completed id hid
      exact ⟨q', List.mem_append_left _ hq', hid'⟩
  | replied q client hq hconnected houtstanding hphase =>
    refine ⟨hserved.ids, hserved.conserved, fun q' hq' =>
      hserved.replies q' (List.mem_of_mem_erase hq'), fun id hid => ?_, fun q' hq' hawaited => ?_⟩
    · rcases List.mem_cons.mp hid with rfl | hold
      · exact ⟨q, hserved.replies q hq, rfl⟩
      · exact hserved.completed id hold
    · have hne := hserved.ne_of_stored hq' (hserved.replies q hq)
      have hold := hserved.managed q' hq' hawaited
      change q'.id ∈ ((s.setClient q.client client).clients q'.client).outstanding ∨
        ((s.setClient q.client client).clients q'.client).phase = .storing q'.id
      rw [setClient_clients]
      by_cases hc : q'.client = q.client
      · rw [if_pos hc, houtstanding, hphase, ← hc]
        refine hold.imp_right fun hstoring => ?_
        rw [hstoring, if_neg]
        intro heq
        exact hne (ProvDBclientPhase.storing.inj heq).symm
      · rw [if_neg hc]
        exact hold
  | heard n p hwaiting hn hparty => exact { hserved with }
  | committerHello hwaiting hoff => exact { hserved with }
  | committerGoodbye hpresent => exact { hserved with }

end Requests

end ProvDBinstance

end Chimbuko
