import Chimbuko.Library.TextScan
import Mathlib.Data.Finset.Card

/-!
# The registrations at the provenance database server

`app/provdb_admin.cpp` keeps track of who is connected to an instance of the server: the analysis
clients by rank, the parameter server, and the committer, which `app/provdb_commit.cpp` runs. Each
of them says hello and goodbye. The server leaves its wait loop when nobody is connected any more
and it was told to stop, or shuts down by itself once a client has connected. The committer asks
for the connection status, which is a text, to decide when to leave.
-/

namespace Chimbuko

open TextScan

/-- Who says hello and goodbye to the server. -/
inductive ProvDBparty
  | client (rank : ℤ)
  | pserver
  | committer
deriving DecidableEq

/-- The server's record of who is connected. -/
structure ProvDBadmin where
  connected : Finset ℤ
  aClientHasConnected : Bool
  pserverConnected : Bool
  pserverHasConnected : Bool
  committerConnected : Bool
  committerHasConnected : Bool
  cmdShutdown : Bool

namespace ProvDBadmin

/-- Nobody has connected yet. -/
def start : ProvDBadmin :=
  { connected := ∅, aClientHasConnected := false, pserverConnected := false
    pserverHasConnected := false, committerConnected := false, committerHasConnected := false
    cmdShutdown := false }

/-- An analysis client says hello. -/
def clientHello (a : ProvDBadmin) (rank : ℤ) : ProvDBadmin :=
  { a with connected := insert rank a.connected, aClientHasConnected := true }

/-- An analysis client says goodbye. -/
def clientGoodbye (a : ProvDBadmin) (rank : ℤ) : ProvDBadmin :=
  { a with connected := a.connected.erase rank }

/-- The parameter server says hello. -/
def pserverHello (a : ProvDBadmin) : ProvDBadmin :=
  { a with pserverConnected := true, pserverHasConnected := true }

/-- The parameter server says goodbye. -/
def pserverGoodbye (a : ProvDBadmin) : ProvDBadmin := { a with pserverConnected := false }

/-- The committer says hello. -/
def committerHello (a : ProvDBadmin) : ProvDBadmin :=
  { a with committerConnected := true, committerHasConnected := true }

/-- The committer says goodbye. -/
def committerGoodbye (a : ProvDBadmin) : ProvDBadmin := { a with committerConnected := false }

/-- A client has asked the server to stop. -/
def clientStopRpc (a : ProvDBadmin) : ProvDBadmin := { a with cmdShutdown := true }

/-- The connection status as a text. -/
def connectionStatus (a : ProvDBadmin) : List Char :=
  writeNats [a.connected.card, a.aClientHasConnected.toNat, a.pserverConnected.toNat,
    a.pserverHasConnected.toNat, a.committerConnected.toNat, a.committerHasConnected.toNat]

/-- The condition on which an iteration of the wait loop breaks it. -/
def doBreak (autoshutdown : Bool) (a : ProvDBadmin) : Bool :=
  (a.cmdShutdown && a.connected.card == 0 && !a.pserverConnected && !a.committerConnected) ||
    (autoshutdown && a.aClientHasConnected && a.connected.card == 0 && !a.pserverConnected &&
      !a.committerConnected)

/-- The handler of a party's hello or goodbye. -/
def hear (a : ProvDBadmin) (hello : Bool) : ProvDBparty → ProvDBadmin
  | .client rank => if hello then a.clientHello rank else a.clientGoodbye rank
  | .pserver => if hello then a.pserverHello else a.pserverGoodbye
  | .committer => if hello then a.committerHello else a.committerGoodbye

/-- A party is connected according to the server. -/
def registered (a : ProvDBadmin) : ProvDBparty → Bool
  | .client rank => rank ∈ a.connected
  | .pserver => a.pserverConnected
  | .committer => a.committerConnected

/-- A notice changes what the server knows of the one who sent it. -/
theorem registered_hear (a : ProvDBadmin) (hello : Bool) (p q : ProvDBparty) :
    (a.hear hello p).registered q = if q = p then hello else a.registered q := by
  cases p with
  | client rank =>
    cases q with
    | client rank' =>
      by_cases h : rank' = rank <;> cases hello <;>
        simp [hear, registered, clientHello, clientGoodbye, h]
    | pserver => cases hello <;> rfl
    | committer => cases hello <;> rfl
  | pserver =>
    cases q with
    | client rank => cases hello <;> rfl
    | pserver => cases hello <;> rfl
    | committer => cases hello <;> rfl
  | committer =>
    cases q with
    | client rank => cases hello <;> rfl
    | pserver => cases hello <;> rfl
    | committer => cases hello <;> rfl

/-- A hello of a client is the only notice after which a client has connected. -/
theorem aClientHasConnected_hear (a : ProvDBadmin) (hello : Bool) (p : ProvDBparty) :
    (a.hear hello p).aClientHasConnected = true ↔
      a.aClientHasConnected = true ∨ hello = true ∧ ∃ rank, p = .client rank := by
  cases p with
  | client rank => cases hello <;> simp [hear, clientHello, clientGoodbye]
  | pserver => cases hello <;> simp [hear, pserverHello, pserverGoodbye]
  | committer => cases hello <;> simp [hear, committerHello, committerGoodbye]

/-- No notice withdraws a request to stop, or makes one. -/
theorem cmdShutdown_hear (a : ProvDBadmin) (hello : Bool) (p : ProvDBparty) :
    (a.hear hello p).cmdShutdown = a.cmdShutdown := by
  cases p <;> cases hello <;> rfl

/-- The wait loop breaks if nobody is connected and there is a reason to stop. -/
theorem doBreak_iff {autoshutdown : Bool} {a : ProvDBadmin} :
    a.doBreak autoshutdown = true ↔ (∀ p, a.registered p = false) ∧
      (a.cmdShutdown = true ∨ autoshutdown = true ∧ a.aClientHasConnected = true) := by
  have hnobody : (∀ p, a.registered p = false) ↔
      a.connected.card = 0 ∧ a.pserverConnected = false ∧ a.committerConnected = false := by
    constructor
    · intro h
      refine ⟨Finset.card_eq_zero.mpr (Finset.eq_empty_of_forall_notMem fun rank hmem => ?_),
        h .pserver, h .committer⟩
      have hrank := h (.client rank)
      unfold registered at hrank
      exact of_decide_eq_false hrank hmem
    · rintro ⟨hcard, hpserver, hcommitter⟩ p
      cases p with
      | client rank =>
        unfold registered
        rw [Finset.card_eq_zero.mp hcard]
        exact decide_eq_false (Finset.notMem_empty rank)
      | pserver => exact hpserver
      | committer => exact hcommitter
  rw [hnobody]
  unfold doBreak
  simp only [Bool.or_eq_true, Bool.and_eq_true, Bool.not_eq_true', beq_iff_eq]
  tauto

end ProvDBadmin

/-- Decide from the connection status whether the committer leaves. -/
def exitCheck (conn : List Char) : Except String Bool :=
  match readInts 4 conn with
  | some [connected, aClientHasConnected, pserverConnected, pserverHasConnected] =>
    pure ((aClientHasConnected != 0 && connected == 0) &&
      (pserverHasConnected == 0 || (pserverHasConnected != 0 && pserverConnected == 0)))
  | _ => throw "Assertion `!of.fail()' failed"

/-- The committer leaves if a client has connected, and none is nor the parameter server. -/
theorem exitCheck_connectionStatus {a : ProvDBadmin} (hfits : a.connected.card ≤ 2147483647) :
    exitCheck a.connectionStatus = .ok ((a.aClientHasConnected && a.connected.card == 0) &&
      (!a.pserverHasConnected || !a.pserverConnected)) := by
  have hread : readInts 4 a.connectionStatus = some [(a.connected.card : ℤ),
      (a.aClientHasConnected.toNat : ℤ), (a.pserverConnected.toNat : ℤ),
      (a.pserverHasConnected.toNat : ℤ)] := by
    refine readInts_writeNats (fun n hn => ?_) (by simp)
    have hbool : ∀ b : Bool, b.toNat ≤ 2147483647 := fun b =>
      (Bool.toNat_le b).trans (by decide)
    simp only [List.mem_cons, List.not_mem_nil, or_false] at hn
    rcases hn with rfl | rfl | rfl | rfl | rfl | rfl
    · exact hfits
    all_goals exact hbool _
  have hcard : ((a.connected.card : ℤ) == 0) = (a.connected.card == 0) := by
    rw [Bool.eq_iff_iff, beq_iff_eq, beq_iff_eq]
    exact Int.natCast_eq_zero
  have hzero : ∀ b : Bool, ((b.toNat : ℤ) == 0) = !b := by decide
  unfold exitCheck
  rw [hread]
  simp only [bne, hzero, hcard, Bool.not_not]
  cases a.pserverHasConnected <;> rfl

end Chimbuko
