import Chimbuko.Provdb.ProvDBshutdown
import Mathlib.Data.Finset.Max
import Mathlib.Data.Fintype.Card

/-!
# The committer and the end of the provenance database

The server does not leave its wait loop as long as the committer is registered, and the committer
leaves when the status that it was told shows that the clients are gone. Neither waits for the
other: once everyone has disconnected, the server and the committer can finish on their own, from
any state of a run in which the notices are handled in order.
-/

namespace Chimbuko

open Presence TransitionSystem

namespace ProvDBinstance

variable {ι : Type} [DecidableEq ι] {cs : ProvDBclients ι} {autoshutdown : Bool}
  {s t : ProvDBinstance ι} {a : ProvDBaction ι}

/-- The steps of the server and of the committer that are not signals or stores. -/
def ServerSide : ProvDBaction ι → Prop
  | .hear _ => True
  | .connectionStatus => True
  | .waitLoop => True
  | .committerAsk => True
  | .committerExitCheck => True
  | _ => False

/-- The clients cannot be more than an int can count, in an instance with a status that is read. -/
def Readable (s : ProvDBinstance ι) : Prop :=
  ∀ conn, s.committer = .told conn → ∃ leaves, exitCheck conn = .ok leaves

variable (cs autoshutdown) in
/-- What the server and the committer reach from a state on their own. -/
abbrev Finishes (s t : ProvDBinstance ι) : Prop :=
  Runs (StepOf fun s a => exec cs s autoshutdown a) (fun s a => s.InOrder cs a ∧ ServerSide a) s t

section Status

/-- The rank that a client may say hello with. -/
def adRank : ProvDBclientKind → ℤ
  | .adProvenance rank => rank
  | _ => 0

omit [DecidableEq ι] in
/-- A client says hello with its rank. -/
theorem adRank_eq {c : ι} {rank : ℤ} (h : cs.party (some c) = some (.client rank)) :
    adRank (cs.kind c) = rank := by
  unfold ProvDBclients.party at h
  simp only at h
  split at h
  · cases hcase : cs.kind c with
    | adProvenance rank' =>
      rw [hcase] at h
      cases h
      rfl
    | psGlobalProvenance =>
      rw [hcase] at h
      cases h
    | psShardProvenance =>
      rw [hcase] at h
      cases h
  · cases h

omit [DecidableEq ι] in
/-- No more ranks are registered than there are clients. -/
theorem card_connected_le [Fintype ι]
    (hknown : ∀ party, s.admin.registered party = true → ∃ p, cs.party p = some party) :
    s.admin.connected.card ≤ Fintype.card ι := by
  have hsub : s.admin.connected ⊆ Finset.univ.image fun c => adRank (cs.kind c) := by
    intro rank hrank
    obtain ⟨p, hp⟩ := hknown (.client rank) (decide_eq_true hrank)
    cases p with
    | none => cases hp
    | some c => exact Finset.mem_image.mpr ⟨c, Finset.mem_univ c, adRank_eq hp⟩
  exact (Finset.card_le_card hsub).trans Finset.card_image_le

/-- The committer is told nothing that it cannot read. -/
theorem Readable.step [Fintype ι] (hcard : Fintype.card ι ≤ 2147483647) (horderly : Orderly cs s)
    (h : Readable s) (hstep : s.exec cs autoshutdown a = .ok t) : Readable t := by
  cases exec_outcome horderly.accounted.settled hstep with
  | untouched huntouched =>
    intro conn hconn
    rcases huntouched.told conn hconn with hold | rfl
    · exact h conn hold
    · exact ⟨_, exitCheck_connectionStatus ((card_connected_le horderly.known).trans hcard)⟩
  | committerHello hwaiting hoff => exact fun conn hconn => by cases hconn
  | committerGoodbye hpresent => exact fun conn hconn => by cases hconn
  | _ => exact h

end Status

section Drain

omit [DecidableEq ι] in
/-- A step that handles no notice keeps the order. -/
theorem inOrder_of_silent (hsilent : a.heard = none) : s.InOrder cs a := by
  intro n hn
  rw [hsilent] at hn
  cases hn

variable (autoshutdown) in
/-- The server handles everything that is under way. -/
theorem finishes_hear (haccounted : Accounted cs s) (hwaiting : s.waiting = true) :
    ∃ admin : ProvDBadmin, admin.cmdShutdown = s.admin.cmdShutdown ∧
      Finishes cs autoshutdown s { s with admin := admin, notices := ∅ } := by
  induction hcount : s.notices.card generalizing s with
  | zero =>
    have hnone := Finset.card_eq_zero.mp hcount
    refine ⟨s.admin, rfl, ?_⟩
    rw [← hnone]
    exact .refl
  | succ k ih =>
    have hsome : s.notices.Nonempty := Finset.card_pos.mp (by omega)
    obtain ⟨n, hn, hmin⟩ := Finset.exists_min_image s.notices Notice.rank hsome
    obtain ⟨party, hparty⟩ := Option.ne_none_iff_exists'.mp (haccounted.speaks n hn)
    have hstep : s.exec cs autoshutdown (.hear n) =
        .ok { s with admin := s.admin.hear n.opens party, notices := s.notices.erase n } := by
      change s.hear cs n = _
      unfold hear
      rw [hparty]
      simp only [hwaiting, hn, and_self, if_true]
      rfl
    have hcount' : (s.notices.erase n).card = k := by
      rw [Finset.card_erase_of_mem hn, hcount]
      rfl
    obtain ⟨admin, hcmd, hrun⟩ := ih (haccounted.step hstep) hwaiting hcount'
    refine ⟨admin, hcmd.trans (s.admin.cmdShutdown_hear n.opens party), ?_⟩
    have hguard : s.InOrder cs (.hear n) := by
      intro n' hn' n'' hn'' _
      cases hn'
      exact hmin n'' hn''
    exact hrun.trans (Runs.refl.tail ⟨hguard, trivial⟩ hstep)

/-- The clients that say hello have disconnected, after an analysis client had connected. -/
structure AllGone (cs : ProvDBclients ι) (s : ProvDBinstance ι) : Prop where
  disconnected : ∀ c, cs.party (some c) ≠ none → (s.clients c).isConnected = false
  hadConnected : ∃ c rank, cs.party (some c) = some (.client rank) ∧ 0 < s.sessions (some c)

omit [DecidableEq ι] in
/-- The server knows nobody but the committer when all clients are gone and nothing is under way. -/
theorem registered_of_allGone (horderly : Orderly cs s) (hquiet : s.notices = ∅)
    (hgone : AllGone cs s) (party : ProvDBparty) (hparty : party ≠ .committer) :
    s.admin.registered party = false := by
  cases hcase : s.admin.registered party with
  | false => rfl
  | true =>
    obtain ⟨p, hp⟩ := horderly.known party hcase
    have hknows : s.knows cs p = true := by
      unfold knows
      rw [hp]
      exact hcase
    rw [horderly.knows_eq hquiet] at hknows
    cases p with
    | none =>
      cases hp
      exact absurd rfl hparty
    | some c =>
      change ((cs.party (some c)).isSome && (s.clients c).isConnected) = true at hknows
      rw [hgone.disconnected c (by simp [hp]), Bool.and_false] at hknows
      cases hknows

omit [DecidableEq ι] in
/-- The status then tells the committer to leave. -/
theorem exitCheck_of_allGone (horderly : Orderly cs s) (hquiet : s.notices = ∅)
    (hgone : AllGone cs s) : exitCheck s.admin.connectionStatus = .ok true := by
  have hempty : s.admin.connected = ∅ := Finset.eq_empty_of_forall_notMem fun rank hrank => by
    have hfalse := registered_of_allGone horderly hquiet hgone (.client rank) (by simp)
    exact of_decide_eq_false hfalse hrank
  have hcard : s.admin.connected.card = 0 := by
    rw [hempty]
    rfl
  have hpserver : s.admin.pserverConnected = false :=
    registered_of_allGone horderly hquiet hgone .pserver (by simp)
  have hclient := (horderly.hasConnected_iff hquiet).mpr hgone.hadConnected
  rw [exitCheck_connectionStatus (by omega), hcard, hclient, hpserver]
  simp

/-- The committer leaves after it has asked. -/
theorem finishes_asking (horderly : Orderly cs s) (hwaiting : s.waiting = true)
    (hquiet : s.notices = ∅) (hgone : AllGone cs s) (hasking : s.committer = .asking) :
    Finishes cs autoshutdown s s.committerGoodbye := by
  have htold : s.exec cs autoshutdown .connectionStatus =
      .ok { s with committer := .told s.admin.connectionStatus } := by
    unfold exec
    simp only [hwaiting, hasking, and_self, if_true]
    rfl
  have hleaves : ({ s with committer := .told s.admin.connectionStatus } : ProvDBinstance ι).exec cs
      autoshutdown .committerExitCheck = .ok s.committerGoodbye := by
    unfold exec
    simp only [exitCheck_of_allGone horderly hquiet hgone]
    rfl
  exact (Runs.refl.tail (a := .connectionStatus) ⟨inOrder_of_silent rfl, trivial⟩ htold).tail
    (a := .committerExitCheck) ⟨inOrder_of_silent rfl, trivial⟩ hleaves

/-- The committer leaves after another turn of its loop. -/
theorem finishes_looping (horderly : Orderly cs s) (hwaiting : s.waiting = true)
    (hquiet : s.notices = ∅) (hgone : AllGone cs s) (hlooping : s.committer = .looping) :
    Finishes cs autoshutdown s s.committerGoodbye := by
  have hasks : s.exec cs autoshutdown .committerAsk = .ok { s with committer := .asking } := by
    unfold exec
    simp only [hlooping, if_true]
    rfl
  have horderly' := horderly.step (inOrder_of_silent rfl) hasks
  have hrest : Finishes cs autoshutdown { s with committer := .asking } s.committerGoodbye :=
    finishes_asking horderly' hwaiting hquiet ⟨hgone.disconnected, hgone.hadConnected⟩ rfl
  exact hrest.trans (Runs.refl.tail (a := .committerAsk) ⟨inOrder_of_silent rfl, trivial⟩ hasks)

variable (autoshutdown) in
/-- The committer leaves, whatever it is doing. -/
theorem finishes_committer (horderly : Orderly cs s) (hreadable : Readable s)
    (hwaiting : s.waiting = true) (hquiet : s.notices = ∅) (hgone : AllGone cs s)
    (hpresent : s.committer.isPresent = true) :
    Finishes cs autoshutdown s s.committerGoodbye := by
  cases hcase : s.committer with
  | off =>
    rw [hcase] at hpresent
    cases hpresent
  | done =>
    rw [hcase] at hpresent
    cases hpresent
  | looping => exact finishes_looping horderly hwaiting hquiet hgone hcase
  | asking => exact finishes_asking horderly hwaiting hquiet hgone hcase
  | told conn =>
    obtain ⟨leaves, hleaves⟩ := hreadable conn hcase
    cases leaves with
    | true =>
      have hgoodbye : s.exec cs autoshutdown .committerExitCheck = .ok s.committerGoodbye := by
        unfold exec
        simp only [hcase, hleaves]
        rfl
      exact Runs.refl.tail (a := .committerExitCheck) ⟨inOrder_of_silent rfl, trivial⟩ hgoodbye
    | false =>
      have hloops : s.exec cs autoshutdown .committerExitCheck =
          .ok { s with committer := .looping } := by
        unfold exec
        simp only [hcase, hleaves]
        rfl
      have horderly' := horderly.step (inOrder_of_silent rfl) hloops
      have hrest : Finishes cs autoshutdown { s with committer := .looping } s.committerGoodbye :=
        finishes_looping horderly' hwaiting hquiet ⟨hgone.disconnected, hgone.hadConnected⟩ rfl
      exact hrest.trans
        (Runs.refl.tail (a := .committerExitCheck) ⟨inOrder_of_silent rfl, trivial⟩ hloops)

/-- The server leaves when nothing is under way and the committer is gone as well. -/
theorem finishes_server (horderly : Orderly cs s) (hwaiting : s.waiting = true)
    (hquiet : s.notices = ∅) (hgone : AllGone cs s) (hcommitter : s.committer.isPresent = false)
    (hmay : s.admin.cmdShutdown = true ∨ autoshutdown = true) :
    Finishes cs autoshutdown s { s with waiting := false } := by
  have hnobody : ∀ p, s.isPresent cs p = false := by
    intro p
    cases p with
    | none => exact hcommitter
    | some c =>
      change ((cs.party (some c)).isSome && (s.clients c).isConnected) = false
      by_cases hparty : cs.party (some c) = none
      · rw [hparty]
        rfl
      · rw [hgone.disconnected c hparty, Bool.and_false]
  have hclient := (horderly.hasConnected_iff hquiet).mpr hgone.hadConnected
  have hbreak : s.admin.doBreak autoshutdown = true :=
    ProvDBadmin.doBreak_iff.mpr
      ⟨(horderly.nobody_iff hquiet).mpr hnobody, hmay.imp_right fun h => ⟨h, hclient⟩⟩
  have hstep : s.exec cs autoshutdown .waitLoop = .ok { s with waiting := false } := by
    change s.waitLoop autoshutdown = _
    unfold waitLoop
    rw [hwaiting, hbreak]
    simp only [not_true_eq_false, if_false, if_true, ite_self]
    rfl
  exact Runs.refl.tail (a := .waitLoop) ⟨inOrder_of_silent rfl, trivial⟩ hstep

/-- Once all clients that say hello have disconnected, the server and the committer can finish on
their own, from any state of a run in which notices are handled in order. -/
theorem finishes [Fintype ι] (hcard : Fintype.card ι ≤ 2147483647)
    (hrun : Runs (StepOf fun s a => exec cs s autoshutdown a) (fun s a => s.InOrder cs a) start s)
    (hwaiting : s.waiting = true)
    (hgone : ∀ c, cs.party (some c) ≠ none → (s.clients c).isConnected = false)
    (hconnected : ∃ c rank, cs.party (some c) = some (.client rank) ∧ 0 < s.sessions (some c))
    (hmay : s.admin.cmdShutdown = true ∨ autoshutdown = true) :
    ∃ t, Finishes cs autoshutdown s t ∧ t.waiting = false ∧ t.committer.isPresent = false ∧
      t.clients = s.clients ∧ t.database = s.database := by
  have hinv : Orderly cs s ∧ Readable s := by
    refine hrun.invariant (fun s => Orderly cs s ∧ Readable s)
      ⟨orderly_start, fun conn h => by cases h⟩ fun s a t h hguard hstep => ?_
    exact ⟨h.1.step hguard hstep, h.2.step hcard h.1 hstep⟩
  have hfinishes : ∀ {u v : ProvDBinstance ι}, Orderly cs u → Finishes cs autoshutdown u v →
      Orderly cs v := fun hu huv =>
    huv.invariant (Orderly cs) hu fun _ _ _ h hguard hstep => h.step hguard.1 hstep
  obtain ⟨admin, hcmd, hheard⟩ := finishes_hear autoshutdown hinv.1.accounted hwaiting
  have hquiet := hfinishes hinv.1 hheard
  have hall : AllGone cs { s with admin := admin, notices := ∅ } := ⟨hgone, hconnected⟩
  have hmay' : admin.cmdShutdown = true ∨ autoshutdown = true := hcmd ▸ hmay
  by_cases hpresent : s.committer.isPresent = true
  · have hleaves := finishes_committer autoshutdown hquiet hinv.2 hwaiting rfl hall hpresent
    obtain ⟨admin', hcmd', hheard'⟩ := finishes_hear autoshutdown
      (hfinishes hquiet hleaves).accounted hwaiting
    have hquiet' := hfinishes (hfinishes hquiet hleaves) hheard'
    have hend := finishes_server hquiet' hwaiting rfl ⟨hgone, hconnected⟩ rfl
      (hmay'.imp_left fun h => hcmd'.trans h)
    exact ⟨_, hend.trans (hheard'.trans (hleaves.trans hheard)), rfl, rfl, rfl, rfl⟩
  · have habsent := Bool.eq_false_iff.mpr hpresent
    have hend := finishes_server hquiet hwaiting rfl hall habsent hmay'
    exact ⟨_, hend.trans hheard, rfl, habsent, rfl, rfl⟩

/-- The server finishes after the client has left, while its goodbye is under way and the committer
was told that it is connected. -/
theorem finishes_oneStore :
    ∃ s ∈ runAll (fun s a => exec adAndPserver s true a)
        (fun s a => s.InOrder adAndPserver a) start
        ((oneStore.take 13).eraseIdx 9),
      s.notices.card = 1 ∧ s.committer.isPresent = true ∧
        ∃ t, Finishes adAndPserver true s t ∧ t.waiting = false ∧
          t.committer.isPresent = false ∧ t.database = s.database := by
  have hrun : ∃ s ∈ runAll (fun s a => exec adAndPserver s true a)
      (fun s a => s.InOrder adAndPserver a) start ((oneStore.take 13).eraseIdx 9),
      s.notices.card = 1 ∧ s.committer.isPresent = true ∧ s.waiting = true ∧
        0 < s.sessions (some false) ∧ ∀ c, (s.clients c).isConnected = false := by
    decide +kernel
  obtain ⟨s, hs, hunderWay, hpresent, hwaiting, hsession, hgone⟩ := hrun
  have hruns : Runs (StepOf fun s a => exec adAndPserver s true a)
      (fun s a => s.InOrder adAndPserver a) start s := runs_of_runAll _ hs
  obtain ⟨t, ht, hleft, hdone, -, hdatabase⟩ := finishes (by decide) hruns hwaiting
    (fun c _ => hgone c) ⟨false, 0, rfl, hsession⟩ (Or.inr rfl)
  exact ⟨s, hs, hunderWay, hpresent, t, ht, hleft, hdone, hdatabase⟩

end Drain

end ProvDBinstance

end Chimbuko
