import Chimbuko.Provdb.ProvDBclientRuns

/-!
# Shutdown of the provenance database

An instance of the server may leave its wait loop by itself. In every run in which no goodbye is
overtaken by the hello of a later session, whoever is still connected then is one whose hello was
not handled; the other ones have disconnected, and everything for which they waited before they did
is in the database, once.

If notices are handled in order then the server leaves its loop exactly if everyone has
disconnected and there is a reason to stop, when nothing is under way.
-/

namespace Chimbuko

open Presence TransitionSystem

namespace ProvDBinstance

variable {ι : Type} [DecidableEq ι] {cs : ProvDBclients ι} {autoshutdown : Bool}
  {s t : ProvDBinstance ι} {a : ProvDBaction ι}

/-- An instance whose messages are accounted for. -/
structure Accounted (cs : ProvDBclients ι) (s : ProvDBinstance ι) : Prop where
  settled : Settled s
  served : Served s
  speaks : ∀ n ∈ s.notices, cs.party n.party ≠ none

omit [DecidableEq ι] in
/-- At the start everything is accounted for. -/
theorem accounted_start : Accounted cs (start : ProvDBinstance ι) where
  settled := settled_start
  served := served_start
  speaks _ hn := absurd hn (Finset.notMem_empty _)

/-- Every outcome leaves only notices of parties that say hello. -/
theorem Outcome.speaks (hspeaks : ∀ n ∈ s.notices, cs.party n.party ≠ none)
    (h : Outcome cs s a t) : ∀ n ∈ t.notices, cs.party n.party ≠ none := by
  have hinsert : ∀ n : Notice (Option ι), cs.party n.party ≠ none →
      ∀ n' ∈ insert n s.notices, cs.party n'.party ≠ none := by
    intro n hn n' hn'
    rcases Finset.mem_insert.mp hn' with rfl | hold
    · exact hn
    · exact hspeaks n' hold
  cases h with
  | untouched h =>
    rw [h.notices]
    exact hspeaks
  | left autoshutdown hwaiting hbreak => exact hspeaks
  | signalled => exact hspeaks
  | connected c hwaiting hfree hparty => exact hspeaks
  | hello c hwaiting hfree hparty => exact hinsert _ hparty
  | worked c client htracks => exact hspeaks
  | sent c collection entries awaited client htracks hmanaged => exact hspeaks
  | disconnected c hnil hphase hparty => exact hspeaks
  | goodbye c hnil hphase hparty => exact hinsert _ hparty
  | stored q hwaiting hq => exact hspeaks
  | replied q client hq hconnected houtstanding hphase => exact hspeaks
  | heard n p hwaiting hn hparty => exact fun n' hn' => hspeaks n' (Finset.mem_of_mem_erase hn')
  | committerHello hwaiting hoff => exact hinsert _ (by simp [ProvDBclients.party])
  | committerGoodbye hpresent => exact hinsert _ (by simp [ProvDBclients.party])

/-- Every step keeps everything accounted for. -/
theorem Accounted.step (h : Accounted cs s) (hstep : s.exec cs autoshutdown a = .ok t) :
    Accounted cs t :=
  have hout := exec_outcome h.settled hstep
  ⟨hout.settled h.settled, hout.served h.served, hout.speaks h.speaks⟩

/-- In every run everything is accounted for. -/
theorem runs_accounted {guard : ProvDBinstance ι → ProvDBaction ι → Prop}
    (hrun : Runs (StepOf fun s a => exec cs s autoshutdown a) guard start s) : Accounted cs s :=
  hrun.invariant (Accounted cs) accounted_start fun _ _ _ h _ hstep => h.step hstep

omit [DecidableEq ι] in
/-- The ledger of the start is empty. -/
theorem ledger_start : (start : ProvDBinstance ι).ledger cs = Ledger.empty := by
  refine Ledger.ext rfl (funext fun p => ?_) rfl (funext fun p => ?_)
  · cases p with
    | none => rfl
    | some c => exact Bool.and_false _
  · change (start : ProvDBinstance ι).knows cs p = false
    unfold knows
    split
    · rename_i party hparty
      cases party <;> rfl
    · rfl

/-- Where no goodbye is overtaken, the ledger's invariant is kept. -/
theorem Outcome.valid (hsettled : Settled s) (hvalid : (s.ledger cs).Valid)
    (hguard : s.NotOvertaken cs a) (h : Outcome cs s a t) : (t.ledger cs).Valid := by
  rcases h.ledger hsettled with heq | ⟨act, hstep, hact⟩
  · rw [heq]
    exact hvalid
  · refine hvalid.step ?_ hstep
    cases act with
    | enter p => exact trivial
    | leave p => exact trivial
    | receive n =>
      cases hact
      exact hguard n rfl

/-- After the server has left its loop by itself, whoever is present was not heard. -/
def Deserted (cs : ProvDBclients ι) (s : ProvDBinstance ι) : Prop :=
  s.waiting = false → s.stopWaitLoop = false →
    ∀ p, s.isPresent cs p = true → (s.ledger cs).HelloUnderWay p

/-- Who leaves does not make anyone else be heard. -/
theorem helloUnderWay_leave {l : Ledger (Option ι)} {p q : Option ι}
    (h : l.present q = true → l.HelloUnderWay q) (hq : (l.leave p).present q = true) :
    (l.leave p).HelloUnderWay q := by
  change Function.update l.present p false q = true at hq
  by_cases hp : q = p
  · rw [hp, Function.update_self] at hq
    cases hq
  · rw [Function.update_of_ne hp] at hq
    exact Finset.mem_insert_of_mem (h hq)

/-- Every outcome keeps a server that has left deserted. -/
theorem Outcome.deserted (hvalid : (s.ledger cs).Valid) (hdeserted : Deserted cs s)
    (h : Outcome cs s a t) : Deserted cs t := by
  intro hleft hterm
  have hsame : t.ledger cs = s.ledger cs → s.waiting = false → s.stopWaitLoop = false →
      ∀ p, t.isPresent cs p = true → (t.ledger cs).HelloUnderWay p := by
    intro heq hleft hterm p hpresent
    change (t.ledger cs).present p = true at hpresent
    rw [heq] at hpresent ⊢
    exact hdeserted hleft hterm p hpresent
  have hwaits : s.waiting = true → s.waiting = false →
      ∀ p, t.isPresent cs p = true → (t.ledger cs).HelloUnderWay p := by
    intro hwaiting hleft
    rw [hwaiting] at hleft
    cases hleft
  cases h with
  | untouched h =>
    rw [h.waiting] at hleft
    rw [h.stopWaitLoop] at hterm
    exact hsame h.ledger_eq hleft hterm
  | left autoshutdown hwaiting hbreak =>
    have hterm' : s.stopWaitLoop = false := hterm
    have hbreak' := hbreak.resolve_left (by simp [hterm'])
    have hnobody := (ProvDBadmin.doBreak_iff.mp hbreak').1
    intro p hpresent
    refine (hvalid.registered p hpresent).resolve_right fun hknown => ?_
    change s.knows cs p = true at hknown
    unfold knows at hknown
    split at hknown
    · rename_i party hparty
      rw [hnobody party] at hknown
      cases hknown
    · cases hknown
  | signalled => cases hterm
  | connected c hwaiting hfree hparty => exact hwaits hwaiting hleft
  | hello c hwaiting hfree hparty => exact hwaits hwaiting hleft
  | worked c client htracks =>
    exact hsame (ledger_setClient (Or.inr htracks.isConnected)) hleft hterm
  | sent c collection entries awaited client htracks hmanaged =>
    exact hsame (ledger_setClient (c := c) (Or.inr htracks.isConnected)) hleft hterm
  | disconnected c hnil hphase hparty =>
    exact hsame (ledger_setClient (Or.inl hparty)) hleft hterm
  | goodbye c hnil hphase hparty =>
    intro p hpresent
    rw [ledger_goodbye]
    refine helloUnderWay_leave (hdeserted hleft hterm p) ?_
    rw [← ledger_goodbye]
    exact hpresent
  | stored q hwaiting hq => exact hwaits hwaiting hleft
  | replied q client hq hconnected houtstanding hphase =>
    exact hsame (ledger_setClient (c := q.client) (Or.inr hconnected)) hleft hterm
  | heard n p hwaiting hn hparty => exact hwaits hwaiting hleft
  | committerHello hwaiting hoff => exact hwaits hwaiting hleft
  | committerGoodbye hpresent =>
    intro p hpresent'
    rw [ledger_committerGoodbye]
    refine helloUnderWay_leave (hdeserted hleft hterm p) ?_
    rw [← ledger_committerGoodbye]
    exact hpresent'

/-- A client that is not connected waits for no request that is still under way. -/
theorem Served.count_database (h : Served s) {c : ι} (hsettled : Settled s)
    (hdisconnected : (s.clients c).isConnected = false) {q : StoreRequest ι} (hq : q ∈ s.sent)
    (hclient : q.client = c) (hawaited : q.awaited = true) : s.database.count q = 1 := by
  obtain ⟨hnil, hfree⟩ := hsettled c hdisconnected
  have hnot : q ∉ s.requests := by
    intro hrequest
    have hmanaged := h.managed q hrequest hawaited
    rw [hclient, hnil, hfree] at hmanaged
    rcases hmanaged with hmem | hstoring
    · cases hmem
    · cases hstoring
  have hmem := h.conserved.symm.subset hq
  have hstored := (List.mem_append.mp hmem).resolve_right hnot
  have hnodup := h.nodup
  rw [List.map_append, List.nodup_append] at hnodup
  exact List.count_eq_one_of_mem hnodup.1.of_map hstored

/-- After the server has left its wait loop by itself, everyone whose hello was handled has
disconnected, and the database has every request that they waited for once. -/
theorem left_stored (hrun : Runs (StepOf fun s a => exec cs s autoshutdown a)
      (fun s a => s.NotOvertaken cs a) start s)
    (hleft : s.waiting = false) (hterm : s.stopWaitLoop = false) :
    (∀ p, ¬ (s.ledger cs).HelloUnderWay p → s.isPresent cs p = false) ∧
      ∀ q ∈ s.sent, cs.party (some q.client) ≠ none →
        ¬ (s.ledger cs).HelloUnderWay (some q.client) → q.awaited = true →
        s.database.count q = 1 := by
  have haccounted := runs_accounted hrun
  have hinv : (Accounted cs s ∧ (s.ledger cs).Valid) ∧ Deserted cs s := by
    refine hrun.invariant (fun s => (Accounted cs s ∧ (s.ledger cs).Valid) ∧ Deserted cs s)
      ⟨⟨accounted_start, ?_⟩, fun hleft => by cases hleft⟩ fun s a t h hguard hstep => ?_
    · rw [ledger_start]
      exact Ledger.valid_empty
    · obtain ⟨⟨hacc, hvalid⟩, hdeserted⟩ := h
      have hout := exec_outcome hacc.settled hstep
      exact ⟨⟨hacc.step hstep, hout.valid hacc.settled hvalid hguard⟩,
        hout.deserted hvalid hdeserted⟩
  have hgone : ∀ p, ¬ (s.ledger cs).HelloUnderWay p → s.isPresent cs p = false := by
    intro p hheard
    cases hcase : s.isPresent cs p with
    | false => rfl
    | true => exact absurd (hinv.2 hleft hterm p hcase) hheard
  refine ⟨hgone, fun q hq hparty hheard hawaited => ?_⟩
  refine haccounted.served.count_database haccounted.settled ?_ hq rfl hawaited
  have habsent : ((cs.party (some q.client)).isSome && (s.clients q.client).isConnected) = false :=
    hgone (some q.client) hheard
  rw [Option.isSome_iff_ne_none.mpr hparty, Bool.true_and] at habsent
  exact habsent

/-- An analysis client and the parameter server. -/
def adAndPserver : ProvDBclients Bool where
  kind isPserver := if isPserver then .psGlobalProvenance else .adProvenance 0
  performHandshake _ := true
  collectionNames _ := ["anomalies"]
  distinct := by decide

/-- The analysis client connects, stores an entry and disconnects, while a committer runs. -/
def oneStore : List (ProvDBaction Bool) :=
  let q : StoreRequest Bool :=
    { id := 0, client := false, collection := "anomalies", entries := ["call"], awaited := true }
  [.connect false, .committerHello, .hear ⟨some false, 1, true⟩, .hear ⟨none, 1, true⟩,
    .sendDataAsync false ⟨true, "call"⟩ "anomalies" false, .disconnect false, .committerAsk,
    .connectionStatus, .store q, .committerExitCheck, .reply q, .waitAll false, .waitAll false,
    .hear ⟨some false, 1, false⟩, .committerAsk, .connectionStatus, .committerExitCheck,
    .hear ⟨none, 1, false⟩, .waitLoop]

/-- The server leaves after the client and the committer, with the entry in its database. -/
theorem left_stored_oneStore :
    ∃ s ∈ runAll (fun s a => exec adAndPserver s true a)
        (fun s a => s.NotOvertaken adAndPserver a) start oneStore,
      s.waiting = false ∧ s.sent.length = 1 ∧ ∀ q ∈ s.sent, s.database.count q = 1 := by
  have hrun : ∃ s ∈ runAll (fun s a => exec adAndPserver s true a)
      (fun s a => s.NotOvertaken adAndPserver a) start oneStore,
      s.waiting = false ∧ s.stopWaitLoop = false ∧ s.sent.length = 1 ∧
        ¬ (s.ledger adAndPserver).HelloUnderWay (some false) ∧
        ∀ q ∈ s.sent, q.client = false ∧ q.awaited = true := by
    decide +kernel
  obtain ⟨s, hs, hleft, hterm, hlength, hheard, hsent⟩ := hrun
  have hruns : Runs (StepOf fun s a => exec adAndPserver s true a)
      (fun s a => s.NotOvertaken adAndPserver a) start s := runs_of_runAll _ hs
  refine ⟨s, hs, hleft, hlength, fun q hq => ?_⟩
  obtain ⟨hclient, hawaited⟩ := hsent q hq
  refine (left_stored hruns hleft hterm).2 q hq ?_ ?_ hawaited
  · rw [hclient]
    decide
  · rw [hclient]
    exact hheard

section Order

/-- The hello of an analysis client was handled. -/
def HasConnected (cs : ProvDBclients ι) (s : ProvDBinstance ι) : Prop :=
  ∃ c rank m, cs.party (some c) = some (.client rank) ∧ 0 < m ∧ m ≤ s.sessions (some c) ∧
    (⟨some c, m, true⟩ : Notice (Option ι)) ∉ s.notices

/-- An instance whose notices are handled in order. -/
structure Orderly (cs : ProvDBclients ι) (s : ProvDBinstance ι) : Prop where
  accounted : Accounted cs s
  ordered : (s.ledger cs).Ordered
  valid : (s.ledger cs).Valid
  hasConnected : s.admin.aClientHasConnected = true ↔ HasConnected cs s
  known : ∀ party, s.admin.registered party = true → ∃ p, cs.party p = some party

/-- Whether a hello was handled does not depend on one that is sent. -/
theorem hasConnected_sayHello (p : Option ι) :
    HasConnected cs (s.sayHello p) ↔ HasConnected cs s := by
  constructor
  · rintro ⟨c, rank, m, hparty, hpos, hle, hheard⟩
    refine ⟨c, rank, m, hparty, hpos, ?_, fun hmem => hheard (Finset.mem_insert_of_mem hmem)⟩
    change m ≤ Function.update s.sessions p (s.sessions p + 1) (some c) at hle
    by_cases hc : some c = p
    · rw [hc, Function.update_self] at hle
      refine hc ▸ Nat.le_of_lt_succ (lt_of_le_of_ne hle fun hm => hheard ?_)
      rw [hm, hc]
      exact Finset.mem_insert_self _ _
    · rw [Function.update_of_ne hc] at hle
      exact hle
  · rintro ⟨c, rank, m, hparty, hpos, hle, hheard⟩
    refine ⟨c, rank, m, hparty, hpos, ?_, fun hmem => ?_⟩
    · change m ≤ Function.update s.sessions p (s.sessions p + 1) (some c)
      by_cases hc : some c = p
      · rw [hc, Function.update_self, ← hc]
        exact Nat.le_succ_of_le hle
      · rw [Function.update_of_ne hc]
        exact hle
    · rcases Finset.mem_insert.mp hmem with heq | hold
      · have hc : some c = p := congrArg Notice.party heq
        have hm : m = s.sessions p + 1 := congrArg Notice.session heq
        rw [hc] at hle
        omega
      · exact hheard hold

/-- Whether a hello was handled does not depend on a goodbye that is sent. -/
theorem hasConnected_sayGoodbye (p : Option ι) :
    HasConnected cs (s.sayGoodbye p) ↔ HasConnected cs s := by
  have hiff : ∀ c m, (⟨some c, m, true⟩ : Notice (Option ι)) ∈ (s.sayGoodbye p).notices ↔
      (⟨some c, m, true⟩ : Notice (Option ι)) ∈ s.notices := by
    intro c m
    refine Finset.mem_insert.trans (or_iff_right fun heq => ?_)
    cases congrArg Notice.opens heq
  unfold HasConnected
  simp only [hiff]
  rfl

/-- Once a client's notice is handled, its hello was handled. -/
theorem hasConnected_heard {n : Notice (Option ι)} {p : ProvDBparty}
    (hparty : cs.party n.party = some p) (hpos : 0 < n.session)
    (hle : n.session ≤ s.sessions n.party) :
    HasConnected cs { s with admin := s.admin.hear n.opens p, notices := s.notices.erase n } ↔
      HasConnected cs s ∨ n.opens = true ∧ ∃ rank, p = .client rank := by
  constructor
  · rintro ⟨c, rank, m, hc, hm, hms, hheard⟩
    by_cases heq : (⟨some c, m, true⟩ : Notice (Option ι)) = n
    · right
      subst heq
      rw [hc] at hparty
      exact ⟨rfl, rank, (Option.some.inj hparty).symm⟩
    · exact Or.inl ⟨c, rank, m, hc, hm, hms, fun hmem => hheard (Finset.mem_erase.mpr ⟨heq, hmem⟩)⟩
  · rintro (⟨c, rank, m, hc, hm, hms, hheard⟩ | ⟨hopens, rank, rfl⟩)
    · exact ⟨c, rank, m, hc, hm, hms, fun hmem => hheard (Finset.mem_of_mem_erase hmem)⟩
    · obtain ⟨party, session, opens⟩ := n
      cases party with
      | none => cases hparty
      | some c =>
        cases hopens
        exact ⟨c, rank, session, hparty, hpos, hle, Finset.notMem_erase _ _⟩

/-- Every outcome keeps the server's flag true to the hellos that it handled. -/
theorem Outcome.hasConnected (hordered : (s.ledger cs).Ordered) (hvalid : (s.ledger cs).Valid)
    (hiff : s.admin.aClientHasConnected = true ↔ HasConnected cs s) (h : Outcome cs s a t) :
    t.admin.aClientHasConnected = true ↔ HasConnected cs t := by
  cases h with
  | untouched h =>
    unfold HasConnected
    rw [h.aClientHasConnected, h.sessions, h.notices]
    exact hiff
  | left autoshutdown hwaiting hbreak => exact hiff
  | signalled => exact hiff
  | connected c hwaiting hfree hparty => exact hiff
  | hello c hwaiting hfree hparty => exact hiff.trans (hasConnected_sayHello _).symm
  | worked c client htracks => exact hiff
  | sent c collection entries awaited client htracks hmanaged => exact hiff
  | disconnected c hnil hphase hparty => exact hiff
  | goodbye c hnil hphase hparty => exact hiff.trans (hasConnected_sayGoodbye _).symm
  | stored q hwaiting hq => exact hiff
  | replied q client hq hconnected houtstanding hphase => exact hiff
  | heard n p hwaiting hn hparty =>
    rw [hasConnected_heard hparty (hordered.session_pos n hn) (hvalid.session_le n hn), ← hiff]
    exact ProvDBadmin.aClientHasConnected_hear s.admin n.opens p
  | committerHello hwaiting hoff => exact hiff.trans (hasConnected_sayHello _).symm
  | committerGoodbye hpresent => exact hiff.trans (hasConnected_sayGoodbye _).symm

omit [DecidableEq ι] in
/-- Whoever is registered after a notice is one of the parties. -/
theorem known_heard {n : Notice (Option ι)} {p : ProvDBparty} (hparty : cs.party n.party = some p)
    (hknown : ∀ party, s.admin.registered party = true → ∃ q, cs.party q = some party)
    (party : ProvDBparty) (hregistered : (s.admin.hear n.opens p).registered party = true) :
    ∃ q, cs.party q = some party := by
  rw [ProvDBadmin.registered_hear] at hregistered
  split at hregistered
  · rename_i heq
    exact ⟨n.party, heq ▸ hparty⟩
  · exact hknown party hregistered

/-- Every outcome registers parties only. -/
theorem Outcome.known
    (hknown : ∀ party, s.admin.registered party = true → ∃ p, cs.party p = some party)
    (h : Outcome cs s a t) :
    ∀ party, t.admin.registered party = true → ∃ p, cs.party p = some party := by
  cases h with
  | untouched h =>
    rw [h.registered]
    exact hknown
  | heard n p hwaiting hn hparty => exact known_heard hparty hknown
  | _ => exact hknown

/-- Every step in order keeps an instance orderly. -/
theorem Orderly.step (h : Orderly cs s) (hguard : s.InOrder cs a)
    (hstep : s.exec cs autoshutdown a = .ok t) : Orderly cs t := by
  have hout := exec_outcome h.accounted.settled hstep
  have hordered : (t.ledger cs).Ordered ∧ (t.ledger cs).Valid := by
    rcases hout.ledger h.accounted.settled with heq | ⟨act, hact, hmoves⟩
    · rw [heq]
      exact ⟨h.ordered, h.valid⟩
    · refine ⟨h.ordered.step ?_ hact, h.valid.step (h.ordered.notOvertaken hact) hact⟩
      cases act with
      | enter p => exact trivial
      | leave p => exact trivial
      | receive n =>
        cases hmoves
        exact hguard n rfl
  exact ⟨h.accounted.step hstep, hordered.1, hordered.2,
    hout.hasConnected h.ordered h.valid h.hasConnected, hout.known h.known⟩

omit [DecidableEq ι] in
/-- The start is orderly. -/
theorem orderly_start : Orderly cs (start : ProvDBinstance ι) where
  accounted := accounted_start
  ordered := by
    rw [ledger_start]
    exact Ledger.ordered_empty
  valid := by
    rw [ledger_start]
    exact Ledger.valid_empty
  hasConnected := by
    constructor
    · intro h
      cases h
    · rintro ⟨c, rank, m, -, hpos, hle, -⟩
      exact absurd hle (Nat.not_le.mpr hpos)
  known party h := by cases party <;> cases h

/-- In every run in which notices are handled in order the instance is orderly. -/
theorem runs_orderly (hrun : Runs (StepOf fun s a => exec cs s autoshutdown a)
    (fun s a => s.InOrder cs a) start s) : Orderly cs s :=
  hrun.invariant (Orderly cs) orderly_start fun _ _ _ h hguard hstep => h.step hguard hstep

/-- The notice that a step handles was under way. -/
theorem receives_of_hear {n : Notice (Option ι)}
    (hstep : s.exec cs autoshutdown (.hear n) = .ok t) :
    Ledger.Step (s.ledger cs) (.receive n) ((s.ledger cs).receive n) := by
  change s.hear cs n = .ok t at hstep
  unfold hear at hstep
  split at hstep
  · split at hstep
    · rename_i hn
      exact .receive _ _ hn.2
    · cases hstep
  · cases hstep

/-- If notices are handled in order then no goodbye is overtaken. -/
theorem runs_notOvertaken_of_inOrder (hrun : Runs (StepOf fun s a => exec cs s autoshutdown a)
    (fun s a => s.InOrder cs a) start s) :
    Runs (StepOf fun s a => exec cs s autoshutdown a) (fun s a => s.NotOvertaken cs a) start s := by
  refine hrun.of_invariant (Orderly cs) orderly_start
    (fun _ _ _ h hguard hstep => h.step hguard hstep) fun s a t h hguard hstep n hn => ?_
  cases a with
  | hear n' =>
    cases hn
    exact h.ordered.notOvertaken (receives_of_hear hstep)
  | _ => cases hn

/-- No client connects twice, and no second committer starts. -/
def ConnectsOnce (s : ProvDBinstance ι) (a : ProvDBaction ι) : Prop :=
  (∀ c, a = .connect c → s.sessions (some c) = 0) ∧ (a = .committerHello → s.sessions none = 0)

/-- Every outcome keeps sessions single, if no client connects twice. -/
theorem Outcome.single (hsettled : Settled s) (hsingle : (s.ledger cs).Single)
    (honce : s.ConnectsOnce a) (h : Outcome cs s a t) : (t.ledger cs).Single := by
  rcases h.ledger hsettled with heq | ⟨act, hact, hmoves⟩
  · rw [heq]
    exact hsingle
  · refine hsingle.step ?_ hact
    cases act with
    | enter p =>
      cases p with
      | none => exact honce.2 hmoves
      | some c => exact honce.1 c hmoves
    | leave p => exact trivial
    | receive n => exact trivial

/-- If no client connects twice then no goodbye is overtaken. -/
theorem runs_notOvertaken_of_connectsOnce (hrun : Runs (StepOf fun s a => exec cs s autoshutdown a)
    ConnectsOnce start s) :
    Runs (StepOf fun s a => exec cs s autoshutdown a) (fun s a => s.NotOvertaken cs a) start s := by
  refine hrun.of_invariant (fun s => Accounted cs s ∧ (s.ledger cs).Single)
    ⟨accounted_start, ?_⟩ (fun s a t h honce hstep => ?_) fun s a t h honce hstep n hn => ?_
  · rw [ledger_start]
    exact Ledger.single_empty
  · exact ⟨h.1.step hstep, (exec_outcome h.1.settled hstep).single h.1.settled h.2 honce⟩
  · cases a with
    | hear n' =>
      cases hn
      exact h.2.notOvertaken (receives_of_hear hstep)
    | _ => cases hn

omit [DecidableEq ι] in
/-- The server knows who is present when no notice is under way. -/
theorem Orderly.knows_eq (h : Orderly cs s) (hquiet : s.notices = ∅) (p : Option ι) :
    s.knows cs p = s.isPresent cs p := by
  refine h.ordered.registered_eq fun n hn => ?_
  change n ∈ s.notices at hn
  rw [hquiet] at hn
  exact absurd hn (Finset.notMem_empty _)

omit [DecidableEq ι] in
/-- Nobody is registered exactly if nobody is present, when no notice is under way. -/
theorem Orderly.nobody_iff (h : Orderly cs s) (hquiet : s.notices = ∅) :
    (∀ party, s.admin.registered party = false) ↔ ∀ p, s.isPresent cs p = false := by
  constructor
  · intro hnobody p
    rw [← h.knows_eq hquiet]
    unfold knows
    split
    · exact hnobody _
    · rfl
  · intro habsent party
    cases hcase : s.admin.registered party with
    | false => rfl
    | true =>
      obtain ⟨p, hp⟩ := h.known party hcase
      have hknows := h.knows_eq hquiet p
      rw [habsent p] at hknows
      unfold knows at hknows
      rw [hp] at hknows
      exact absurd hknows (by simp [hcase])

omit [DecidableEq ι] in
/-- A client has connected exactly if an analysis client has said hello, when no notice is under
way. -/
theorem Orderly.hasConnected_iff (h : Orderly cs s) (hquiet : s.notices = ∅) :
    s.admin.aClientHasConnected = true ↔
      ∃ c rank, cs.party (some c) = some (.client rank) ∧ 0 < s.sessions (some c) := by
  rw [h.hasConnected]
  constructor
  · rintro ⟨c, rank, m, hparty, hpos, hle, -⟩
    exact ⟨c, rank, hparty, Nat.lt_of_lt_of_le hpos hle⟩
  · rintro ⟨c, rank, hparty, hpos⟩
    exact ⟨c, rank, s.sessions (some c), hparty, hpos, le_rfl,
      by rw [hquiet]; exact Finset.notMem_empty _⟩

/-- When no notice is under way, an iteration of the wait loop leaves it exactly if the server was
signalled, or everyone has disconnected and it was told to stop or may do so by itself after an
analysis client had connected. -/
theorem leaves_iff (hrun : Runs (StepOf fun s a => exec cs s autoshutdown a)
      (fun s a => s.InOrder cs a) start s) (hquiet : s.notices = ∅)
    (hstep : s.exec cs autoshutdown .waitLoop = .ok t) :
    t.waiting = false ↔ s.stopWaitLoop = true ∨
      (∀ c, cs.party (some c) ≠ none → (s.clients c).isConnected = false) ∧
        s.committer.isPresent = false ∧
        (s.admin.cmdShutdown = true ∨ autoshutdown = true ∧
          ∃ c rank, cs.party (some c) = some (.client rank) ∧ 0 < s.sessions (some c)) := by
  have horderly := runs_orderly hrun
  have hpresent : (∀ p, s.isPresent cs p = false) ↔
      (∀ c, cs.party (some c) ≠ none → (s.clients c).isConnected = false) ∧
        s.committer.isPresent = false := by
    constructor
    · intro h
      refine ⟨fun c hparty => ?_, h none⟩
      have hc : ((cs.party (some c)).isSome && (s.clients c).isConnected) = false := h (some c)
      rw [Option.isSome_iff_ne_none.mpr hparty, Bool.true_and] at hc
      exact hc
    · rintro ⟨hclients, hcommitter⟩ p
      cases p with
      | none => exact hcommitter
      | some c =>
        change ((cs.party (some c)).isSome && (s.clients c).isConnected) = false
        by_cases hparty : cs.party (some c) = none
        · rw [hparty]
          rfl
        · rw [hclients c hparty, Bool.and_false]
  rw [← and_assoc, ← hpresent, ← horderly.nobody_iff hquiet, ← horderly.hasConnected_iff hquiet,
    ← ProvDBadmin.doBreak_iff]
  change s.waitLoop autoshutdown = .ok t at hstep
  unfold waitLoop at hstep
  split at hstep
  · cases hstep
  · rename_i hwaiting
    rw [not_not] at hwaiting
    split at hstep
    · rename_i hstop
      cases hstep
      exact iff_of_true rfl (Or.inl hstop)
    · rename_i hstop
      split at hstep
      · rename_i hbreak
        cases hstep
        exact iff_of_true rfl (Or.inr hbreak)
      · rename_i hbreak
        cases hstep
        exact iff_of_false (by simp [hwaiting]) (not_or.mpr ⟨hstop, hbreak⟩)

/-- The server leaves after the last goodbye, which it does only since the client is gone. -/
theorem leaves_iff_oneStore :
    ∃ s ∈ runAll (fun s a => exec adAndPserver s true a)
        (fun s a => s.InOrder adAndPserver a) start (oneStore.dropLast),
      ∃ t, s.exec adAndPserver true .waitLoop = .ok t ∧ t.waiting = false ∧
        (s.clients false).isConnected = false := by
  have hrun : ∃ s ∈ runAll (fun s a => exec adAndPserver s true a)
      (fun s a => s.InOrder adAndPserver a) start (oneStore.dropLast),
      s.notices = ∅ ∧ s.stopWaitLoop = false ∧
        (s.exec adAndPserver true .waitLoop).toOption.map waiting = some false := by
    decide +kernel
  obtain ⟨s, hs, hquiet, hterm, hleaves⟩ := hrun
  have hruns : Runs (StepOf fun s a => exec adAndPserver s true a)
      (fun s a => s.InOrder adAndPserver a) start s := runs_of_runAll _ hs
  cases hexec : s.exec adAndPserver true .waitLoop with
  | error e =>
    rw [hexec] at hleaves
    cases hleaves
  | ok t =>
    rw [hexec] at hleaves
    have hleft : t.waiting = false := Option.some.inj hleaves
    refine ⟨s, hs, t, hexec, hleft, ?_⟩
    have hreason := ((leaves_iff hruns hquiet hexec).mp hleft).resolve_left (by simp [hterm])
    exact hreason.1 false (by decide)

end Order

end ProvDBinstance

end Chimbuko
