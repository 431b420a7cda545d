import Mathlib.Algebra.Order.Group.Multiset

/-!
# Clients that await their replies

Any number of clients send requests to a server. A client waits for the reply to a request before
it sends the next one. Requests and replies may be under way for any time and overtake each other,
and the server acts on a request when it likes.

Each client has at most one message under way, so the requests of a client that were acted on are a
prefix of those that it sent. If one kind of request precedes another one in everything that a
client sends, the server acts on no more requests of the second kind than of the first.
-/

namespace RequestReply

variable {ι ρ : Type*}

/-- What clients have sent, and what was acted on and received. -/
structure Exchange (ι ρ : Type*) where
  /-- The requests that each client has sent. -/
  sent : ι → List ρ
  /-- Whether a client waits for a reply. -/
  waiting : ι → Bool
  /-- The requests that were not acted on yet. -/
  pending : Multiset (ι × ρ)
  /-- The requests whose replies are under way. -/
  answered : Multiset (ι × ρ)
  /-- The requests that were acted on. -/
  acted : List (ι × ρ)

namespace Exchange

variable [DecidableEq ι]

/-- A client sends a request. -/
def send (x : Exchange ι ρ) (c : ι) (r : ρ) : Exchange ι ρ :=
  { x with
    sent := Function.update x.sent c (x.sent c ++ [r])
    waiting := Function.update x.waiting c true
    pending := (c, r) ::ₘ x.pending }

/-- The server acts on a request, with the others left. -/
def act (x : Exchange ι ρ) (m : ι × ρ) (others : Multiset (ι × ρ)) : Exchange ι ρ :=
  { x with pending := others, answered := m ::ₘ x.answered, acted := x.acted ++ [m] }

/-- A client receives its reply, with the others left. -/
def receive (x : Exchange ι ρ) (c : ι) (others : Multiset (ι × ρ)) : Exchange ι ρ :=
  { x with answered := others, waiting := Function.update x.waiting c false }

/-- The steps of an exchange. -/
inductive Step : Exchange ι ρ → Exchange ι ρ → Prop
  | send (x : Exchange ι ρ) (c : ι) (r : ρ) : x.waiting c = false → Step x (x.send c r)
  | act (x : Exchange ι ρ) (m : ι × ρ) (others : Multiset (ι × ρ)) :
      x.pending = m ::ₘ others → Step x (x.act m others)
  | receive (x : Exchange ι ρ) (m : ι × ρ) (others : Multiset (ι × ρ)) :
      x.answered = m ::ₘ others → Step x (x.receive m.1 others)

/-- The messages of a client. -/
def ofClient (c : ι) (ms : Multiset (ι × ρ)) : Multiset (ι × ρ) := ms.filter fun m => m.1 = c

/-- The requests of a client that were acted on. -/
def actedOf (x : Exchange ι ρ) (c : ι) : List ρ :=
  (x.acted.filter fun m => m.1 = c).map Prod.snd

/-- A client has no message under way, or one request, or one reply. -/
inductive ClientHolds (x : Exchange ι ρ) (c : ι) : Prop
  | idle : x.waiting c = false → ofClient c x.pending = 0 → ofClient c x.answered = 0 →
      x.sent c = x.actedOf c → ClientHolds x c
  | pending (r : ρ) : x.waiting c = true → ofClient c x.pending = {(c, r)} →
      ofClient c x.answered = 0 → x.sent c = x.actedOf c ++ [r] → ClientHolds x c
  | answered (r : ρ) : x.waiting c = true → ofClient c x.pending = 0 →
      ofClient c x.answered = {(c, r)} → x.sent c = x.actedOf c → ClientHolds x c

/-- Every client has at most one message under way. -/
def Valid (x : Exchange ι ρ) : Prop := ∀ c, x.ClientHolds c

/-- Nothing was sent yet. -/
def empty : Exchange ι ρ :=
  { sent := fun _ => [], waiting := fun _ => false, pending := 0, answered := 0, acted := [] }

/-- An empty exchange is valid. -/
theorem valid_empty : (empty : Exchange ι ρ).Valid :=
  fun _ => .idle rfl rfl rfl rfl

/-- A message is one of its client. -/
theorem ofClient_cons_self (m : ι × ρ) (ms : Multiset (ι × ρ)) :
    ofClient m.1 (m ::ₘ ms) = m ::ₘ ofClient m.1 ms := by
  simp [ofClient]

/-- A message is none of another client. -/
theorem ofClient_cons_of_ne {c : ι} {m : ι × ρ} (h : m.1 ≠ c) (ms : Multiset (ι × ρ)) :
    ofClient c (m ::ₘ ms) = ofClient c ms := by
  simp [ofClient, h]

/-- A step that leaves a client's messages as they are. -/
theorem ClientHolds.congr {x y : Exchange ι ρ} {c : ι} (h : x.ClientHolds c)
    (hsent : y.sent c = x.sent c) (hwaiting : y.waiting c = x.waiting c)
    (hpending : ofClient c y.pending = ofClient c x.pending)
    (hanswered : ofClient c y.answered = ofClient c x.answered)
    (hacted : y.actedOf c = x.actedOf c) : y.ClientHolds c := by
  cases h with
  | idle h1 h2 h3 h4 =>
    exact .idle (hwaiting.trans h1) (hpending.trans h2) (hanswered.trans h3)
      (by rw [hsent, hacted, h4])
  | pending r h1 h2 h3 h4 =>
    exact .pending r (hwaiting.trans h1) (hpending.trans h2) (hanswered.trans h3)
      (by rw [hsent, hacted, h4])
  | answered r h1 h2 h3 h4 =>
    exact .answered r (hwaiting.trans h1) (hpending.trans h2) (hanswered.trans h3)
      (by rw [hsent, hacted, h4])

/-- What is acted on comes last. -/
theorem actedOf_act_self (x : Exchange ι ρ) (m : ι × ρ) (others : Multiset (ι × ρ)) :
    (x.act m others).actedOf m.1 = x.actedOf m.1 ++ [m.2] := by
  simp [actedOf, act]

/-- What is acted on leaves the other clients. -/
theorem actedOf_act_of_ne (x : Exchange ι ρ) {c : ι} {m : ι × ρ} (h : m.1 ≠ c)
    (others : Multiset (ι × ρ)) : (x.act m others).actedOf c = x.actedOf c := by
  simp [actedOf, act, h]

/-- A message of a client is its only one. -/
theorem eq_of_ofClient_cons {m : ι × ρ} {ms : Multiset (ι × ρ)} {r : ρ}
    (h : ofClient m.1 (m ::ₘ ms) = {(m.1, r)}) : m.2 = r ∧ ofClient m.1 ms = 0 := by
  rw [ofClient_cons_self, ← Multiset.cons_zero] at h
  have hmem : m ∈ (m.1, r) ::ₘ (0 : Multiset (ι × ρ)) := by
    rw [← h]
    exact Multiset.mem_cons_self m _
  rw [Multiset.cons_zero, Multiset.mem_singleton] at hmem
  constructor
  · exact congrArg Prod.snd hmem
  · rw [← hmem, Multiset.cons_inj_right] at h
    exact h

/-- Every step keeps the clients' messages in order. -/
theorem Valid.step {x y : Exchange ι ρ} (h : x.Valid) (hstep : Step x y) : y.Valid := by
  cases hstep with
  | send c r hidle =>
    intro d
    by_cases hd : c = d
    · subst hd
      have hc := h c
      cases hc with
      | idle _ hpending hanswered hsent =>
        refine .pending r (Function.update_self _ _ _) ?_ hanswered ?_
        · change ofClient (c, r).1 ((c, r) ::ₘ x.pending) = {(c, r)}
          rw [ofClient_cons_self, hpending]
          rfl
        · change Function.update x.sent c (x.sent c ++ [r]) c = x.actedOf c ++ [r]
          rw [Function.update_self, hsent]
      | pending _ hwaiting =>
        rw [hidle] at hwaiting
        cases hwaiting
      | answered _ hwaiting =>
        rw [hidle] at hwaiting
        cases hwaiting
    · refine (h d).congr (Function.update_of_ne (Ne.symm hd) _ _)
        (Function.update_of_ne (Ne.symm hd) _ _) ?_ rfl rfl
      exact ofClient_cons_of_ne hd x.pending
  | act m others hpending =>
    intro d
    by_cases hd : m.1 = d
    · subst hd
      cases h m.1 with
      | idle _ hnone =>
        rw [hpending, ofClient_cons_self] at hnone
        exact absurd hnone Multiset.cons_ne_zero
      | answered _ _ hnone =>
        rw [hpending, ofClient_cons_self] at hnone
        exact absurd hnone Multiset.cons_ne_zero
      | pending r hwaiting hone hanswered hsent =>
        rw [hpending] at hone
        obtain ⟨rfl, hothers⟩ := eq_of_ofClient_cons hone
        refine .answered m.2 hwaiting hothers ?_ ?_
        · change ofClient m.1 (m ::ₘ x.answered) = {(m.1, m.2)}
          rw [ofClient_cons_self, hanswered]
          rfl
        · rw [actedOf_act_self]
          exact hsent
    · refine (h d).congr rfl rfl ?_ ?_ (actedOf_act_of_ne x hd others)
      · rw [hpending, ofClient_cons_of_ne hd]
        rfl
      · exact ofClient_cons_of_ne hd x.answered
  | receive m others hanswered =>
    intro d
    by_cases hd : m.1 = d
    · subst hd
      cases h m.1 with
      | idle _ _ hnone =>
        rw [hanswered, ofClient_cons_self] at hnone
        exact absurd hnone Multiset.cons_ne_zero
      | pending _ _ _ hnone =>
        rw [hanswered, ofClient_cons_self] at hnone
        exact absurd hnone Multiset.cons_ne_zero
      | answered r _ hpending hone hsent =>
        rw [hanswered] at hone
        obtain ⟨-, hothers⟩ := eq_of_ofClient_cons hone
        exact .idle (Function.update_self _ _ _) hpending hothers hsent
    · refine (h d).congr rfl (Function.update_of_ne (Ne.symm hd) _ _) rfl ?_ rfl
      rw [hanswered, ofClient_cons_of_ne hd]
      rfl

/-- What was acted on for a client is a prefix of what it has sent. -/
theorem Valid.actedOf_initial {x : Exchange ι ρ} (h : x.Valid) (c : ι) :
    x.actedOf c <+: x.sent c := by
  cases h c with
  | idle _ _ _ hsent => exact hsent ▸ List.prefix_rfl
  | pending r _ _ _ hsent =>
    rw [hsent]
    exact List.prefix_append _ _
  | answered r _ _ _ hsent => exact hsent ▸ List.prefix_rfl

variable [DecidableEq ρ]

/-- The number of requests of a kind that were acted on. -/
def actedCount (x : Exchange ι ρ) (r : ρ) : ℕ := x.acted.countP fun m => m.2 = r

/-- The requests of a kind that were acted on for a client. -/
theorem count_actedOf (x : Exchange ι ρ) (c : ι) (r : ρ) :
    (x.actedOf c).count r = ((x.acted.filter fun m => m.2 = r).map Prod.fst).count c := by
  unfold actedOf
  induction x.acted with
  | nil => rfl
  | cons m rest ih =>
    by_cases hc : m.1 = c <;> by_cases hr : m.2 = r <;> simp [hc, hr, ih]

/-- If no client's requests that were acted on have more of one kind than of another, neither have
those of all clients. -/
theorem actedCount_le {x : Exchange ι ρ} {r r' : ρ}
    (h : ∀ c, (x.actedOf c).count r ≤ (x.actedOf c).count r') :
    x.actedCount r ≤ x.actedCount r' := by
  have hle : (((x.acted.filter fun m => m.2 = r).map Prod.fst : List ι) : Multiset ι) ≤
      ((x.acted.filter fun m => m.2 = r').map Prod.fst : List ι) := by
    rw [Multiset.le_iff_count]
    intro c
    rw [Multiset.coe_count, Multiset.coe_count, ← count_actedOf, ← count_actedOf]
    exact h c
  have hcard := Multiset.card_le_card hle
  simpa [actedCount, List.countP_eq_length_filter] using hcard

end Exchange

end RequestReply
