import Mathlib.Data.List.Forall2
import Mathlib.Logic.Relation

/-!
# Runs of a labelled transition system

A system is a step relation between states, labelled by actions. A guarded run is a run whose
every step meets a condition on the state before it and the action, which is how an assumption
on the environment, or the exact condition under which a property survives, is attached to a
run rather than to one step. The same is done for the loops inside a step.
-/

namespace TransitionSystem

universe w

variable {σ α : Type*}

/-- The states that runs from `start` reach when every step meets the guard. -/
inductive Runs (step : σ → α → σ → Prop) (guard : σ → α → Prop) (start : σ) : σ → Prop
  | refl : Runs step guard start start
  | tail {s t : σ} {a : α} : Runs step guard start s → guard s a → step s a t →
      Runs step guard start t

variable {step : σ → α → σ → Prop} {guard guard' : σ → α → Prop} {start s : σ}

/-- A property of the first state that guarded steps preserve holds along every guarded run. -/
theorem Runs.invariant (inv : σ → Prop) (hrun : Runs step guard start s) (hstart : inv start)
    (hstep : ∀ s a t, inv s → guard s a → step s a t → inv t) : inv s := by
  induction hrun with
  | refl => exact hstart
  | tail _ hguard hnext ih => exact hstep _ _ _ ih hguard hnext

/-- Weakening the guard keeps every run. -/
theorem Runs.mono (hrun : Runs step guard start s) (hguard : ∀ s a, guard s a → guard' s a) :
    Runs step guard' start s := by
  induction hrun with
  | refl => exact .refl
  | tail _ hg hnext ih => exact .tail ih (hguard _ _ hg) hnext

/-- A guard that an invariant implies may take the place of one that keeps the invariant. -/
theorem Runs.of_invariant (inv : σ → Prop) (hrun : Runs step guard start s) (hstart : inv start)
    (hstep : ∀ s a t, inv s → guard s a → step s a t → inv t)
    (hguard : ∀ s a t, inv s → guard s a → step s a t → guard' s a) :
    Runs step guard' start s := by
  have hboth : inv s ∧ Runs step guard' start s := by
    induction hrun with
    | refl => exact ⟨hstart, .refl⟩
    | tail _ hg hnext ih =>
      exact ⟨hstep _ _ _ ih.1 hg hnext, .tail ih.2 (hguard _ _ _ ih.1 hg hnext) hnext⟩
  exact hboth.2

/-- Runs compose. -/
theorem Runs.trans {t : σ} (hst : Runs step guard s t) (hrun : Runs step guard start s) :
    Runs step guard start t := by
  induction hst with
  | refl => exact hrun
  | tail _ hg hnext ih => exact .tail ih hg hnext

section Exec

variable {ε : Type*}

/-- The steps of a function that may fail. -/
def StepOf (exec : σ → α → Except ε σ) (s : σ) (a : α) (t : σ) : Prop := exec s a = .ok t

/-- Execute actions as long as the guard holds and none fails. -/
def runAll (exec : σ → α → Except ε σ) (guard : σ → α → Prop) [∀ s a, Decidable (guard s a)] :
    σ → List α → Option σ
  | s, [] => some s
  | s, a :: rest =>
    if guard s a then
      match exec s a with
      | .ok t => runAll exec guard t rest
      | .error _ => none
    else none

/-- What `runAll` reaches is reached by a guarded run. -/
theorem runs_of_runAll {exec : σ → α → Except ε σ} [∀ s a, Decidable (guard s a)]
    (actions : List α) {t : σ} (h : runAll exec guard s actions = some t) :
    Runs (StepOf exec) guard s t := by
  induction actions generalizing s with
  | nil =>
    cases h
    exact .refl
  | cons a rest ih =>
    rw [runAll] at h
    split at h
    · rename_i hguard
      cases hexec : exec s a with
      | error e =>
        rw [hexec] at h
        cases h
      | ok s' =>
        rw [hexec] at h
        exact (ih h).trans (Runs.refl.tail hguard hexec)
    · cases h

end Exec

section Loop

variable {ε : Type*} {exec : σ → α → Except ε σ} {guard : σ → α → Prop}

/-- A loop over actions meets a guard: every action does so in the state in which the loop
reaches it. -/
def LoopGuard (exec : σ → α → Except ε σ) (guard : σ → α → Prop) : σ → List α → Prop
  | _, [] => True
  | s, a :: rest =>
    guard s a ∧
      match exec s a with
      | .ok t => LoopGuard exec guard t rest
      | .error _ => True

instance decidableLoopGuard [∀ s a, Decidable (guard s a)] :
    ∀ s actions, Decidable (LoopGuard exec guard s actions)
  | _, [] => isTrue trivial
  | s, a :: rest =>
    have : Decidable (match exec s a with
        | .ok t => LoopGuard exec guard t rest
        | .error _ => True) :=
      match exec s a with
      | .ok t => decidableLoopGuard t rest
      | .error _ => isTrue trivial
    instDecidableAnd

/-- A computation that succeeds does so in both of its parts. -/
theorem bind_eq_ok {β γ : Type w} {x : Except ε β} {f : β → Except ε γ} {c : γ}
    (h : x >>= f = .ok c) : ∃ b, x = .ok b ∧ f b = .ok c := by
  cases x with
  | error e => cases h
  | ok b => exact ⟨b, rfl, h⟩

/-- A computation that does not fail. -/
def Returns {β : Type w} (x : Except ε β) : Prop := ∃ b, x = .ok b

/-- Two computations in a row return if the first one does, and the second one with what it
gives. -/
theorem returns_bind {β γ : Type w} {x : Except ε β} {f : β → Except ε γ} :
    Returns (x >>= f) ↔ ∃ b, x = .ok b ∧ Returns (f b) := by
  constructor
  · rintro ⟨c, h⟩
    obtain ⟨b, hb, hc⟩ := bind_eq_ok h
    exact ⟨b, hb, c, hc⟩
  · rintro ⟨b, rfl, h⟩
    exact h

/-- A computation followed by one that cannot fail. -/
theorem returns_bind_of_returns {β γ : Type w} {x : Except ε β} {f : β → Except ε γ}
    (hf : ∀ b, Returns (f b)) : Returns (x >>= f) ↔ Returns x := by
  rw [returns_bind]
  constructor
  · rintro ⟨b, hb, -⟩
    exact ⟨b, hb⟩
  · rintro ⟨b, hb⟩
    exact ⟨b, hb, hf b⟩

/-- What is no error is a result. -/
theorem exists_ok {β : Type w} {x : Except ε β} (h : x.isOk = true) : ∃ b, x = .ok b := by
  cases x with
  | error e => cases h
  | ok b => exact ⟨b, rfl⟩

/-- A result that is there is the result. -/
theorem eq_ok_of_mem_toOption {β : Type w} {x : Except ε β} {b : β} (h : b ∈ x.toOption) :
    x = .ok b := by
  cases x with
  | error e => cases h
  | ok b' =>
    cases h
    rfl

/-- What every action keeps, the loop keeps. -/
theorem foldlM_invariant {P : σ → Prop} (hstep : ∀ s a t, P s → exec s a = .ok t → P t)
    (actions : List α) {s t : σ} (hs : P s) (h : actions.foldlM exec s = .ok t) : P t := by
  induction actions generalizing s with
  | nil =>
    cases h
    exact hs
  | cons a rest ih =>
    rw [List.foldlM_cons] at h
    cases ha : exec s a with
    | error e =>
      rw [ha] at h
      cases h
    | ok s' =>
      rw [ha] at h
      exact ih (hstep s a s' hs ha) h

/-- A loop that succeeds does so in each of its actions. -/
theorem foldlM_mem {actions : List α} {s t : σ} (h : actions.foldlM exec s = .ok t) {a : α}
    (ha : a ∈ actions) : ∃ s' t', exec s' a = .ok t' := by
  induction actions generalizing s with
  | nil => cases ha
  | cons b rest ih =>
    rw [List.foldlM_cons] at h
    obtain ⟨next, hfirst, hrest⟩ := bind_eq_ok h
    rcases List.mem_cons.mp ha with rfl | hmem
    · exact ⟨s, next, hfirst⟩
    · exact ih hrest hmem

/-- A loop returns if each of its actions does, whatever the state. -/
theorem returns_foldlM {can : α → Prop} (hexec : ∀ s a, Returns (exec s a) ↔ can a)
    (actions : List α) (s : σ) : Returns (actions.foldlM exec s) ↔ ∀ a ∈ actions, can a := by
  induction actions generalizing s with
  | nil => exact iff_of_true ⟨s, rfl⟩ fun a ha => absurd ha List.not_mem_nil
  | cons a rest ih =>
    rw [List.foldlM_cons, returns_bind, List.forall_mem_cons]
    constructor
    · rintro ⟨next, hfirst, hrest⟩
      exact ⟨(hexec s a).mp ⟨next, hfirst⟩, (ih next).mp hrest⟩
    · rintro ⟨ha, hrest⟩
      obtain ⟨next, hfirst⟩ := (hexec s a).mpr ha
      exact ⟨next, hfirst, (ih next).mpr hrest⟩

/-- A loop leads to the same state in any order of its actions, if two actions may be swapped. -/
theorem foldlM_perm {actions actions' : List α} (hperm : actions.Perm actions')
    (hswap : ∀ s a b s' t, exec s a = .ok s' → exec s' b = .ok t →
      ∃ s'', exec s b = .ok s'' ∧ exec s'' a = .ok t) {s t : σ}
    (h : actions.foldlM exec s = .ok t) : actions'.foldlM exec s = .ok t := by
  induction hperm generalizing s with
  | nil => exact h
  | cons a _ ih =>
    rw [List.foldlM_cons] at h ⊢
    obtain ⟨next, hfirst, hrest⟩ := bind_eq_ok h
    rw [hfirst]
    exact ih hrest
  | swap a b rest =>
    rw [List.foldlM_cons] at h ⊢
    obtain ⟨next, hfirst, h⟩ := bind_eq_ok h
    rw [List.foldlM_cons] at h
    obtain ⟨next', hsecond, hrest⟩ := bind_eq_ok h
    obtain ⟨other, hfirst', hsecond'⟩ := hswap _ _ _ _ _ hfirst hsecond
    rw [hfirst']
    change List.foldlM exec other (b :: rest) = _
    rw [List.foldlM_cons, hsecond']
    exact hrest
  | trans _ _ ih ih' => exact ih' (ih h)

/-- A loop succeeds and keeps an invariant if every action does that meets the guard. The
invariant may speak of the actions that are left. -/
theorem LoopGuard.foldlM_ok {P : List α → σ → Prop}
    (hstep : ∀ a rest s, P (a :: rest) s → guard s a → ∃ t, exec s a = .ok t ∧ P rest t)
    {actions : List α} {s : σ} (hs : P actions s) (h : LoopGuard exec guard s actions) :
    ∃ t, actions.foldlM exec s = .ok t ∧ P [] t := by
  induction actions generalizing s with
  | nil => exact ⟨s, rfl, hs⟩
  | cons a rest ih =>
    obtain ⟨hguard, hrest⟩ := h
    obtain ⟨t, ht, hP⟩ := hstep a rest s hs hguard
    rw [ht] at hrest
    obtain ⟨u, hu, hPu⟩ := ih hP hrest
    refine ⟨u, ?_, hPu⟩
    rw [List.foldlM_cons, ht]
    exact hu

section Fold

variable {step : σ → α → σ}

/-- A loop that cannot fail meets a guard. -/
def FoldGuard (step : σ → α → σ) (guard : σ → α → Prop) : σ → List α → Prop
  | _, [] => True
  | s, a :: rest => guard s a ∧ FoldGuard step guard (step s a) rest

instance decidableFoldGuard [∀ s a, Decidable (guard s a)] :
    ∀ s actions, Decidable (FoldGuard step guard s actions)
  | _, [] => isTrue trivial
  | s, a :: rest =>
    have := decidableFoldGuard (step s a) rest
    instDecidableAnd

/-- A loop that cannot fail keeps an invariant if every action does that meets the guard. The
invariant may speak of the actions that are left. -/
theorem FoldGuard.foldl {P : List α → σ → Prop}
    (hstep : ∀ a rest s, P (a :: rest) s → guard s a → P rest (step s a))
    {actions : List α} {s : σ} (hs : P actions s) (h : FoldGuard step guard s actions) :
    P [] (actions.foldl step s) := by
  induction actions generalizing s with
  | nil => exact hs
  | cons a rest ih => exact ih (hstep a rest s hs h.1) h.2

end Fold

end Loop

section Map

variable {β ε : Type*} {f : α → Except ε β}

/-- A loop that maps every element gives the element that each is mapped to. -/
theorem forall₂_of_mapM {xs : List α} {ys : List β} (h : xs.mapM f = .ok ys) :
    List.Forall₂ (fun x y => f x = .ok y) xs ys := by
  induction xs generalizing ys with
  | nil =>
    cases h
    exact .nil
  | cons x rest ih =>
    rw [List.mapM_cons] at h
    cases hx : f x with
    | error e =>
      rw [hx] at h
      cases h
    | ok y =>
      cases hrest : rest.mapM f with
      | error e =>
        simp only [hx, hrest] at h
        cases h
      | ok ys' =>
        simp only [hx, hrest] at h
        cases h
        exact .cons hx (ih hrest)

/-- What a loop that maps every element gives, comes from an element. -/
theorem exists_of_mapM {xs : List α} {ys : List β} (h : xs.mapM f = .ok ys) {y : β}
    (hy : y ∈ ys) : ∃ x ∈ xs, f x = .ok y := by
  have hall := forall₂_of_mapM h
  clear h
  induction hall with
  | nil => cases hy
  | cons hxy _ ih =>
    cases hy with
    | head => exact ⟨_, List.mem_cons_self, hxy⟩
    | tail _ hy =>
      obtain ⟨x, hx, hfx⟩ := ih hy
      exact ⟨x, List.mem_cons_of_mem _ hx, hfx⟩

/-- A loop that maps every element maps each. -/
theorem mem_of_mapM {xs : List α} {ys : List β} (h : xs.mapM f = .ok ys) {x : α}
    (hx : x ∈ xs) : ∃ y ∈ ys, f x = .ok y := by
  have hall := forall₂_of_mapM h
  clear h
  induction hall with
  | nil => cases hx
  | cons hxy _ ih =>
    cases hx with
    | head => exact ⟨_, List.mem_cons_self, hxy⟩
    | tail _ hx =>
      obtain ⟨y, hy, hfx⟩ := ih hx
      exact ⟨y, List.mem_cons_of_mem _ hy, hfx⟩

/-- A loop that maps every element, where each can be mapped to one thing only. -/
theorem eq_map_of_mapM {xs : List α} {ys : List β} {g : α → β} (h : xs.mapM f = .ok ys)
    (hg : ∀ x y, f x = .ok y → y = g x) : ys = xs.map g := by
  have hall := forall₂_of_mapM h
  clear h
  induction hall with
  | nil => rfl
  | cons hxy _ ih => rw [List.map_cons, hg _ _ hxy, ih]

/-- A loop that maps every element succeeds if it can map each. -/
theorem mapM_ok {xs : List α} (h : ∀ x ∈ xs, ∃ y, f x = .ok y) : ∃ ys, xs.mapM f = .ok ys := by
  induction xs with
  | nil => exact ⟨[], rfl⟩
  | cons x rest ih =>
    obtain ⟨y, hy⟩ := h x List.mem_cons_self
    obtain ⟨ys, hys⟩ := ih fun z hz => h z (List.mem_cons_of_mem _ hz)
    refine ⟨y :: ys, ?_⟩
    rw [List.mapM_cons, hy, hys]
    rfl

/-- A loop that maps every element returns if it can map each. -/
theorem returns_mapM {xs : List α} : Returns (xs.mapM f) ↔ ∀ x ∈ xs, Returns (f x) := by
  constructor
  · rintro ⟨ys, h⟩ x hx
    obtain ⟨y, -, hy⟩ := mem_of_mapM h hx
    exact ⟨y, hy⟩
  · exact mapM_ok

/-- A loop that maps every element as a function does. -/
theorem mapM_eq_map {xs : List α} {g : α → β} (h : ∀ x ∈ xs, f x = .ok (g x)) :
    xs.mapM f = .ok (xs.map g) := by
  induction xs with
  | nil => rfl
  | cons x rest ih =>
    rw [List.mapM_cons, h x List.mem_cons_self, ih fun z hz => h z (List.mem_cons_of_mem _ hz)]
    rfl

end Map

end TransitionSystem
