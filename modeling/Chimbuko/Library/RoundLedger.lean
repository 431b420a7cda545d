import Mathlib.Algebra.BigOperators.Group.Finset.Piecewise
import Mathlib.Algebra.Order.BigOperators.Group.Finset
import Mathlib.Algebra.Order.Group.Multiset

/-!
# Items collected in rounds

Items arrive at numbered stations. A collector visits the stations in rounds, one after the other,
takes at each what has arrived since its last visit, and delivers what it took when the round
ends. Items may arrive at any station between any two of these steps.

The ledger keeps for every station which items were delivered, which the round under way has
taken, and which are waiting. No item is delivered twice, and an item is delivered in the first
round that visits its station after the item arrived.
-/

namespace RoundLedger

variable {ι : Type*}

/-- The items of a station, in the order of their arrival. -/
structure Station (ι : Type*) where
  delivered : List ι
  taken : List ι
  waiting : List ι

/-- All items that arrived at a station. -/
def Station.arrived (a : Station ι) : List ι := a.delivered ++ a.taken ++ a.waiting

/-- The stations, the round under way, and what was delivered. -/
@[ext]
structure Ledger (ι : Type*) where
  station : ℕ → Station ι
  /-- The station that the round under way visits next. -/
  next : Option ℕ
  delivered : Multiset ι
  /-- The number of rounds that have ended. -/
  rounds : ℕ

namespace Ledger

/-- Nothing has arrived. -/
def empty : Ledger ι :=
  { station := fun _ => ⟨[], [], []⟩, next := none, delivered := 0, rounds := 0 }

/-- Items arrive at a station. -/
def arrive (l : Ledger ι) (w : ℕ) (xs : List ι) : Ledger ι :=
  { l with
    station := Function.update l.station w
      { l.station w with waiting := (l.station w).waiting ++ xs } }

/-- A round starts. -/
def start (l : Ledger ι) : Ledger ι := { l with next := some 0 }

/-- The collector takes what is waiting at a station. -/
def visit (l : Ledger ι) (w : ℕ) : Ledger ι :=
  { l with
    station := Function.update l.station w
      { l.station w with taken := (l.station w).taken ++ (l.station w).waiting, waiting := [] }
    next := some (w + 1) }

/-- What the round under way has taken from the first `n` stations. -/
def load (l : Ledger ι) (n : ℕ) : List ι := (List.range n).flatMap fun w => (l.station w).taken

/-- The round ends and what it took is delivered. -/
def finish (l : Ledger ι) (n : ℕ) : Ledger ι :=
  { station := fun w =>
      ⟨(l.station w).delivered ++ (l.station w).taken, [], (l.station w).waiting⟩
    next := none
    delivered := l.delivered + l.load n
    rounds := l.rounds + 1 }

/-- One step of a ledger with `n` stations. -/
inductive Step (n : ℕ) : Ledger ι → Ledger ι → Prop
  | arrive (l : Ledger ι) (w : ℕ) (xs : List ι) : w < n → Step n l (l.arrive w xs)
  | start (l : Ledger ι) : l.next = none → Step n l l.start
  | visit (l : Ledger ι) (w : ℕ) : l.next = some w → w < n → Step n l (l.visit w)
  | finish (l : Ledger ι) : l.next = some n → Step n l (l.finish n)

/-- All items that arrived at the first `n` stations. -/
def arrived (l : Ledger ι) (n : ℕ) : Multiset ι :=
  ∑ w ∈ Finset.range n, ((l.station w).arrived : Multiset ι)

/-- The number of rounds that were started. -/
def started (l : Ledger ι) : ℕ := if l.next = none then l.rounds else l.rounds + 1

/-- The number of rounds after which all that has arrived at a station is delivered. -/
def due (l : Ledger ι) (w : ℕ) : ℕ :=
  match l.next with
  | none => l.rounds + 1
  | some k => if k ≤ w then l.rounds + 1 else l.rounds + 2

/-- No station is due for a round after the next one. -/
theorem due_le_started (l : Ledger ι) (w : ℕ) : l.due w ≤ l.started + 1 := by
  unfold due started
  cases l.next with
  | none => simp
  | some k =>
    simp only [reduceCtorEq, if_false]
    split <;> omega

/-- Only stations visited in the round under way have items taken, and the ledger is balanced. -/
structure Valid (n : ℕ) (l : Ledger ι) : Prop where
  next_le : ∀ k, l.next = some k → k ≤ n
  taken : ∀ w, (∀ k, l.next = some k → k ≤ w) → (l.station w).taken = []
  delivered : l.delivered =
    ∑ w ∈ Finset.range n, ((l.station w).delivered : Multiset ι)

/-- An empty ledger is valid. -/
theorem valid_empty (n : ℕ) : (empty : Ledger ι).Valid n := by
  constructor
  · intro k hk
    simp [empty] at hk
  · intro w _
    rfl
  · simp [empty]

/-- What arrives waits at its station. -/
@[simp] theorem arrive_same (l : Ledger ι) (w : ℕ) (xs : List ι) : (l.arrive w xs).station w =
    { l.station w with waiting := (l.station w).waiting ++ xs } := by
  simp [arrive]

/-- What arrives leaves the other stations. -/
theorem arrive_other (l : Ledger ι) {w v : ℕ} (xs : List ι) (h : v ≠ w) :
    (l.arrive w xs).station v = l.station v := by
  simp [arrive, h]

/-- A visit takes what waits. -/
@[simp] theorem visit_same (l : Ledger ι) (w : ℕ) : (l.visit w).station w =
    { l.station w with taken := (l.station w).taken ++ (l.station w).waiting, waiting := [] } := by
  simp [visit]

/-- A visit leaves the other stations. -/
theorem visit_other (l : Ledger ι) {w v : ℕ} (h : v ≠ w) :
    (l.visit w).station v = l.station v := by
  simp [visit, h]

/-- What arrives is not taken yet. -/
theorem arrive_taken (l : Ledger ι) (w : ℕ) (xs : List ι) (v : ℕ) :
    ((l.arrive w xs).station v).taken = (l.station v).taken := by
  by_cases h : v = w
  · subst h
    simp
  · rw [arrive_other l xs h]

/-- What arrives is not delivered yet. -/
theorem arrive_delivered (l : Ledger ι) (w : ℕ) (xs : List ι) (v : ℕ) :
    ((l.arrive w xs).station v).delivered = (l.station v).delivered := by
  by_cases h : v = w
  · subst h
    simp
  · rw [arrive_other l xs h]

/-- A visit delivers nothing yet. -/
theorem visit_delivered (l : Ledger ι) (w v : ℕ) :
    ((l.visit w).station v).delivered = (l.station v).delivered := by
  by_cases h : v = w
  · subst h
    simp
  · rw [visit_other l h]

/-- What arrives comes after what arrived before. -/
theorem arrive_arrived (l : Ledger ι) (w : ℕ) (xs : List ι) :
    ((l.arrive w xs).station w).arrived = (l.station w).arrived ++ xs := by
  simp [Station.arrived]

/-- Nothing arrives in a visit. -/
theorem visit_arrived (l : Ledger ι) (w v : ℕ) :
    ((l.visit w).station v).arrived = (l.station v).arrived := by
  by_cases h : v = w
  · subst h
    simp [Station.arrived]
  · rw [visit_other l h]

/-- Nothing arrives when a round is finished. -/
theorem finish_arrived (l : Ledger ι) (n w : ℕ) :
    ((l.finish n).station w).arrived = (l.station w).arrived := by
  simp [finish, Station.arrived]

/-- The load of a round is what was taken at its stations. -/
theorem coe_load (l : Ledger ι) (n : ℕ) : (l.load n : Multiset ι) =
    ∑ w ∈ Finset.range n, ((l.station w).taken : Multiset ι) := by
  unfold load
  induction n with
  | zero => simp
  | succ n ih =>
    rw [List.range_succ, List.flatMap_append, ← Multiset.coe_add, ih, Finset.sum_range_succ]
    simp

/-- What the rounds that have ended and the one under way took from the first `k` stations. -/
def took (l : Ledger ι) (k : ℕ) : Multiset ι :=
  ∑ w ∈ Finset.range k, ((l.station w).delivered + (l.station w).taken : Multiset ι)

/-- What a round took does not change when something arrives. -/
theorem took_arrive (l : Ledger ι) (w : ℕ) (xs : List ι) (k : ℕ) :
    (l.arrive w xs).took k = l.took k := by
  simp [took, arrive_taken, arrive_delivered]

/-- A visit takes all that has arrived at the station. -/
theorem took_visit (l : Ledger ι) (k : ℕ) :
    (l.visit k).took (k + 1) = l.took k + ((l.station k).arrived : Multiset ι) := by
  unfold took
  rw [Finset.sum_range_succ, visit_same]
  congr 1
  · apply Finset.sum_congr rfl
    intro w hw
    rw [Finset.mem_range] at hw
    rw [visit_other l (by omega)]
  · simp [Station.arrived]

/-- A visit adds what was waiting to what the round has taken. -/
theorem coe_load_visit (l : Ledger ι) {n w : ℕ} (hw : w < n) :
    ((l.visit w).load n : Multiset ι) = (l.load n : Multiset ι) + (l.station w).waiting := by
  have hterm : ∀ v, (((l.visit w).station v).taken : Multiset ι) =
      (l.station v).taken + if v = w then ((l.station v).waiting : Multiset ι) else 0 := by
    intro v
    by_cases hv : v = w
    · subst hv
      simp
    · rw [visit_other l hv]
      simp [hv]
  rw [coe_load, coe_load, Finset.sum_congr rfl fun v _ => hterm v, Finset.sum_add_distrib,
    Finset.sum_ite_eq', if_pos (Finset.mem_range.mpr hw)]

/-- The load does not change when something arrives. -/
theorem load_arrive (l : Ledger ι) (w : ℕ) (xs : List ι) (n : ℕ) :
    (l.arrive w xs).load n = l.load n := by
  simp [load, arrive_taken]

/-- Outside a round nothing is taken. -/
theorem Valid.load_eq_nil {n : ℕ} {l : Ledger ι} (h : l.Valid n) (hnext : l.next = none) :
    l.load n = [] := by
  unfold load
  rw [List.flatMap_eq_nil_iff]
  intro w _
  apply h.taken
  simp [hnext]

/-- At the end of a round all that was taken is delivered. -/
theorem Valid.delivered_finish {n : ℕ} {l : Ledger ι} (h : l.Valid n) :
    (l.finish n).delivered = l.took n := by
  change l.delivered + (l.load n : Multiset ι) = l.took n
  rw [h.delivered, coe_load, ← Finset.sum_add_distrib]
  rfl

/-- Every step keeps the ledger balanced. -/
theorem Valid.step {n : ℕ} {l l' : Ledger ι} (h : l.Valid n) (hstep : Step n l l') :
    l'.Valid n := by
  cases hstep with
  | arrive w xs _ =>
    constructor
    · exact h.next_le
    · intro v hv
      rw [arrive_taken]
      exact h.taken v hv
    · simp only [arrive_delivered]
      exact h.delivered
  | start hnext =>
    constructor
    · intro k hk
      simp only [start, Option.some.injEq] at hk
      omega
    · intro v _
      apply h.taken
      simp [hnext]
    · exact h.delivered
  | visit w hnext hw =>
    constructor
    · intro k hk
      simp only [visit, Option.some.injEq] at hk
      omega
    · intro v hv
      have hlt : w + 1 ≤ v := hv (w + 1) rfl
      rw [visit_other l (by omega)]
      apply h.taken
      intro k hk
      rw [hnext] at hk
      cases hk
      omega
    · simp only [visit_delivered]
      exact h.delivered
  | finish _ =>
    constructor
    · intro k hk
      simp [finish] at hk
    · intro v _
      rfl
    · change l.delivered + (l.load n : Multiset ι) = ∑ w ∈ Finset.range n,
        (((l.station w).delivered ++ (l.station w).taken : List ι) : Multiset ι)
      simp only [← Multiset.coe_add]
      rw [Finset.sum_add_distrib, h.delivered, coe_load]

/-- What had arrived at a station in an earlier state is still there, and is taken or delivered
when it was due. -/
structure Since (l l' : Ledger ι) (w : ℕ) : Prop where
  arrived : (l.station w).arrived <+: (l'.station w).arrived
  taken : (∃ k, l'.next = some k ∧ w < k) → l.due w ≤ l'.rounds + 1 →
    (l.station w).arrived <+: (l'.station w).delivered ++ (l'.station w).taken
  delivered : l.due w ≤ l'.rounds → (l.station w).arrived <+: (l'.station w).delivered

/-- In the same state everything that had arrived is still there. -/
theorem since_refl (l : Ledger ι) (w : ℕ) : Since l l w := by
  constructor
  · exact List.prefix_rfl
  · rintro ⟨k, hk, hlt⟩ hdue
    simp only [due, hk] at hdue
    split at hdue <;> omega
  · intro hdue
    unfold due at hdue
    split at hdue
    · omega
    · split at hdue <;> omega

/-- Further steps keep account of what had arrived. -/
theorem Since.step {n w : ℕ} {l l' l'' : Ledger ι} (h : Since l l' w) (hw : w < n)
    (hstep : Step n l' l'') : Since l l'' w := by
  cases hstep with
  | arrive v xs _ =>
    constructor
    · by_cases hv : w = v
      · subst hv
        rw [arrive_arrived]
        exact h.arrived.trans (List.prefix_append _ _)
      · rw [arrive_other l' xs hv]
        exact h.arrived
    · rw [arrive_delivered, arrive_taken]
      exact h.taken
    · rw [arrive_delivered]
      exact h.delivered
  | start _ =>
    constructor
    · exact h.arrived
    · rintro ⟨k, hk, hlt⟩
      simp only [start, Option.some.injEq] at hk
      omega
    · exact h.delivered
  | visit v hnext _ =>
    constructor
    · rw [visit_arrived]
      exact h.arrived
    · rintro ⟨k, hk, hlt⟩ hdue
      simp only [visit, Option.some.injEq] at hk
      by_cases hv : w = v
      · subst hv
        simpa [Station.arrived] using h.arrived
      · rw [visit_other l' hv]
        exact h.taken ⟨v, hnext, by omega⟩ hdue
    · rw [visit_delivered]
      exact h.delivered
  | finish hnext =>
    constructor
    · rw [finish_arrived]
      exact h.arrived
    · rintro ⟨k, hk, -⟩
      simp [finish] at hk
    · intro hdue
      exact h.taken ⟨n, hnext, hw⟩ hdue

/-- No more is delivered than arrived. -/
theorem Valid.delivered_le {n : ℕ} {l : Ledger ι} (h : l.Valid n) :
    l.delivered ≤ l.arrived n := by
  rw [h.delivered]
  apply Finset.sum_le_sum
  intro w _
  unfold Station.arrived
  rw [List.append_assoc, ← Multiset.coe_add]
  exact Multiset.le_add_right _ _

/-- What was due is delivered. -/
theorem Valid.le_delivered {n : ℕ} {l l' : Ledger ι} (h : l'.Valid n)
    (hsince : ∀ w < n, Since l l' w) (hdue : ∀ w < n, l.due w ≤ l'.rounds) :
    l.arrived n ≤ l'.delivered := by
  rw [h.delivered]
  apply Finset.sum_le_sum
  intro w hw
  rw [Finset.mem_range] at hw
  exact ((hsince w hw).delivered (hdue w hw)).sublist.subperm

/-- A step of the collector. -/
inductive CollectStep (n : ℕ) : Ledger ι → Ledger ι → Prop
  | start (l : Ledger ι) : l.next = none → CollectStep n l l.start
  | visit (l : Ledger ι) (w : ℕ) : l.next = some w → w < n → CollectStep n l (l.visit w)
  | finish (l : Ledger ι) : l.next = some n → CollectStep n l (l.finish n)

/-- A step of the collector is a step. -/
theorem CollectStep.toStep {n : ℕ} {l l' : Ledger ι} (h : CollectStep n l l') : Step n l l' := by
  cases h with
  | start hnext => exact .start l hnext
  | visit w hnext hw => exact .visit l w hnext hw
  | finish hnext => exact .finish l hnext

/-- A round will still come to a station: it is under way and has not visited the station, or it is
known to be coming. -/
def Ahead (l : Ledger ι) (coming : Prop) (w : ℕ) : Prop :=
  (coming ∧ l.next = none) ∨ ∃ k, l.next = some k ∧ k ≤ w

/-- No round will come if none is under way or known to be coming. -/
theorem not_ahead {l : Ledger ι} {coming : Prop} {w : ℕ} (hcoming : ¬ coming)
    (hnext : l.next = none) : ¬ l.Ahead coming w := by
  rintro (⟨h, -⟩ | ⟨k, hk, -⟩)
  · exact hcoming h
  · rw [hnext] at hk
    cases hk

/-- Nothing has arrived at a station between two states, and no round will come to it but one that
was to come in the first of them. What was waiting is taken if the round has come meanwhile. -/
structure Closing (l l' : Ledger ι) (coming coming' : Prop) (w : ℕ) : Prop where
  arrived : (l'.station w).arrived = (l.station w).arrived
  ahead : l'.Ahead coming' w → l.Ahead coming w
  visited : l.Ahead coming w → ¬ l'.Ahead coming' w → (l'.station w).waiting = []
  kept : (l.Ahead coming w → l'.Ahead coming' w) →
    (l'.station w).waiting = (l.station w).waiting

/-- Nothing arrives between a state and itself. -/
theorem closing_refl (l : Ledger ι) (coming : Prop) (w : ℕ) : Closing l l coming coming w := by
  constructor
  · rfl
  · exact id
  · intro h hnot
    exact absurd h hnot
  · intro _
    rfl

/-- A step that is not one of the ledger, and leaves its next round to come or not to come. -/
theorem Closing.congr {l l' l'' : Ledger ι} {coming coming' coming'' : Prop} {w : ℕ}
    (h : Closing l l' coming coming' w) (heq : l'' = l')
    (hcoming : l'.next = none → (coming'' ↔ coming')) : Closing l l'' coming coming'' w := by
  subst heq
  have hahead : l''.Ahead coming'' w ↔ l''.Ahead coming' w := by
    apply or_congr_left'
    intro _
    constructor
    · exact fun ⟨h, hnext⟩ => ⟨(hcoming hnext).mp h, hnext⟩
    · exact fun ⟨h, hnext⟩ => ⟨(hcoming hnext).mpr h, hnext⟩
  constructor
  · exact h.arrived
  · rw [hahead]
    exact h.ahead
  · rw [hahead]
    exact h.visited
  · rw [hahead]
    exact h.kept

/-- A step of the collector. A round starts only if one was coming, and none is coming after it. -/
theorem Closing.step {n : ℕ} {l l' l'' : Ledger ι} {coming coming' coming'' : Prop} {w : ℕ}
    (h : Closing l l' coming coming' w) (hw : w < n) (hstep : CollectStep n l' l'')
    (hstart : l'.next = none → coming') (hend : l''.next = none → ¬ coming'') :
    Closing l l'' coming coming'' w := by
  cases hstep with
  | start hnext =>
    have hbefore : l'.Ahead coming' w := Or.inl ⟨hstart hnext, hnext⟩
    have hafter : l'.start.Ahead coming'' w := Or.inr ⟨0, rfl, Nat.zero_le w⟩
    constructor
    · exact h.arrived
    · exact fun _ => h.ahead hbefore
    · exact fun _ hnot => absurd hafter hnot
    · exact fun _ => h.kept fun _ => hbefore
  | visit k hnext _ =>
    have hbefore : l'.Ahead coming' w ↔ k ≤ w := by
      simp [Ahead, hnext]
    have hafter : (l'.visit k).Ahead coming'' w ↔ k + 1 ≤ w := by
      simp [Ahead, visit]
    by_cases hk : w = k
    · subst hk
      have hahead := h.ahead (hbefore.mpr le_rfl)
      constructor
      · rw [visit_arrived]
        exact h.arrived
      · exact fun _ => hahead
      · intro _ _
        rw [visit_same]
      · intro himp
        have := hafter.mp (himp hahead)
        omega
    · have hsame : (l'.visit k).Ahead coming'' w ↔ l'.Ahead coming' w := by
        rw [hbefore, hafter]
        omega
      constructor
      · rw [visit_arrived]
        exact h.arrived
      · rw [hsame]
        exact h.ahead
      · rw [hsame, visit_other l' hk]
        exact h.visited
      · rw [hsame, visit_other l' hk]
        exact h.kept
  | finish hnext =>
    have hbefore : ¬ l'.Ahead coming' w := by
      simp only [Ahead, hnext, reduceCtorEq, and_false, Option.some.injEq, false_or]
      rintro ⟨k, rfl, hle⟩
      omega
    have hafter : ¬ (l'.finish n).Ahead coming'' w := not_ahead (hend rfl) rfl
    constructor
    · rw [finish_arrived]
      exact h.arrived
    · exact fun hahead => absurd hahead hafter
    · exact fun hahead _ => h.visited hahead hbefore
    · exact fun himp => h.kept fun hahead => absurd (himp hahead) hafter

/-- When no round is to come any more, what satisfies a property has been taken everywhere exactly
if a round was to come wherever something with the property was waiting. -/
theorem Closing.waiting_iff {l l' : Ledger ι} {coming coming' : Prop} {w : ℕ}
    (h : Closing l l' coming coming' w) (hend : ¬ l'.Ahead coming' w) (P : ι → Prop) :
    (∀ x ∈ (l'.station w).waiting, ¬ P x) ↔
      l.Ahead coming w ∨ ∀ x ∈ (l.station w).waiting, ¬ P x := by
  by_cases hahead : l.Ahead coming w
  · rw [h.visited hahead hend]
    simp [hahead]
  · rw [h.kept fun h => absurd h hahead]
    simp [hahead]

/-- Outside a round, what has arrived and satisfies a property is delivered exactly if nothing with
the property is waiting. -/
theorem Valid.filter_delivered_eq_iff {n : ℕ} {l : Ledger ι} (h : l.Valid n)
    (hnext : l.next = none) (P : ι → Prop) [DecidablePred P] :
    l.delivered.filter P = (l.arrived n).filter P ↔
      ∀ w < n, ∀ x ∈ (l.station w).waiting, ¬ P x := by
  have htaken : ∀ w, (l.station w).taken = [] := by
    intro w
    apply h.taken
    simp [hnext]
  have harrived : l.arrived n = l.delivered +
      ∑ w ∈ Finset.range n, ((l.station w).waiting : Multiset ι) := by
    unfold arrived
    rw [h.delivered, ← Finset.sum_add_distrib]
    apply Finset.sum_congr rfl
    intro w _
    simp [Station.arrived, htaken]
  rw [harrived, Multiset.filter_add, eq_comm, add_eq_left, Multiset.filter_eq_nil]
  simp only [Multiset.mem_sum, Finset.mem_range, Multiset.mem_coe]
  constructor
  · exact fun h w hw x hx => h x ⟨w, hw, hx⟩
  · exact fun h x ⟨w, hw, hx⟩ => h w hw x hx

end Ledger

end RoundLedger
