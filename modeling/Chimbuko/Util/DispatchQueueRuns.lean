import Chimbuko.Util.DispatchQueue

/-!
# Runs of the dispatch queue

What holds along every interleaving of the threads: one thread has the lock at a time, a worker
that is past its wait finds an operation or the flag, and a worker leaves only when the flag is set
and the queue is empty, after which nothing is put into it.
-/

namespace Chimbuko

open TransitionSystem WorkQueue

namespace DispatchQueue

variable {Op : Type} {n : ℕ} {s t : DispatchQueue Op n} {w : Fin n} {x : DispatchWorker Op}

/-- The lock belongs to the thread that is at a place with the lock. -/
structure Exclusive (s : DispatchQueue Op n) : Prop where
  worker : ∀ w, (s.workers w).Locked ↔ s.lock = some (.worker w)
  main : s.main.Locked ↔ s.lock = some .main

/-- A worker locks. -/
theorem Exclusive.acquireWorker (h : s.Exclusive) (hlock : s.lock = none) (hx : x.Locked) :
    Exclusive ({ s with lock := some (.worker w) }.setWorker w x) := by
  constructor
  · intro v
    simp only [setWorker]
    by_cases hv : v = w
    · rw [hv, Function.update_self]
      exact iff_of_true hx rfl
    · rw [Function.update_of_ne hv, h.worker v, hlock]
      refine iff_of_false (by simp) ?_
      simpa using fun hvw => hv hvw.symm
  · simp only [setWorker]
    rw [h.main, hlock]
    simp

/-- A worker unlocks. -/
theorem Exclusive.releaseWorker (h : s.Exclusive) (hw : (s.workers w).Locked) (hx : ¬ x.Locked) :
    Exclusive ({ s with lock := none }.setWorker w x) := by
  have hlock := (h.worker w).mp hw
  constructor
  · intro v
    simp only [setWorker]
    by_cases hv : v = w
    · rw [hv, Function.update_self]
      exact iff_of_false hx (by simp)
    · rw [Function.update_of_ne hv, h.worker v, hlock]
      refine iff_of_false ?_ (by simp)
      simpa using fun hvw => hv hvw.symm
  · simp only [setWorker]
    rw [h.main, hlock]
    simp

/-- A worker that keeps the lock or stays without it. -/
theorem Exclusive.keepWorker (h : s.Exclusive) (hx : x.Locked ↔ (s.workers w).Locked) :
    Exclusive (s.setWorker w x) := by
  refine ⟨fun v => ?_, h.main⟩
  simp only [setWorker]
  by_cases hv : v = w
  · rw [hv, Function.update_self]
    exact hx.trans (h.worker w)
  · rw [Function.update_of_ne hv]
    exact h.worker v

/-- The main thread locks. -/
theorem Exclusive.acquireMain (h : s.Exclusive) (hlock : s.lock = none) {main : DispatchMain Op}
    (hmain : main.Locked) : Exclusive { s with lock := some .main, main := main } := by
  refine ⟨fun v => ?_, iff_of_true hmain rfl⟩
  simp only
  rw [h.worker v, hlock]
  simp

/-- The main thread unlocks. -/
theorem Exclusive.releaseMain (h : s.Exclusive) (hs : s.main.Locked) {main : DispatchMain Op}
    (hmain : ¬ main.Locked) : Exclusive { s with lock := none, main := main } := by
  refine ⟨fun v => ?_, iff_of_false hmain (by simp)⟩
  simp only
  rw [h.worker v, h.main.mp hs]
  simp

/-- The main thread keeps the lock or stays without it. -/
theorem Exclusive.keepMain (h : s.Exclusive) {main : DispatchMain Op}
    (hmain : main.Locked ↔ s.main.Locked) : Exclusive { s with main := main } :=
  ⟨h.worker, hmain.trans h.main⟩

/-- A notification does not take the lock. -/
theorem locked_notify : (notify x).Locked ↔ x.Locked := by
  cases x with
  | blocked => exact Iff.rfl
  | _ => exact Iff.rfl

/-- Notifying all workers leaves who has the lock. -/
theorem Exclusive.notifyAll (h : s.Exclusive) : s.notifyAll.Exclusive :=
  ⟨fun v => locked_notify.trans (h.worker v), h.main⟩

/-- The lock belongs to one thread after every step of a worker. -/
theorem Exclusive.workerStep (h : s.Exclusive) (hstep : WorkerStep s w t) : t.Exclusive := by
  cases hstep with
  | lock hw hlock => exact h.acquireWorker hlock trivial
  | proceed hw hready => exact h.keepWorker (by rw [hw]; exact Iff.rfl)
  | block hw hqueue hquit => exact h.releaseWorker (by rw [hw]; trivial) id
  | pop hw hqueue =>
    exact Exclusive.keepWorker ⟨h.worker, h.main⟩ (by simp only [hw]; exact Iff.rfl)
  | skip hw hqueue hquit => exact h.keepWorker (by rw [hw]; exact Iff.rfl)
  | unlock hw => exact h.releaseWorker (by rw [hw]; trivial) id
  | run hw => exact Exclusive.keepWorker ⟨h.worker, h.main⟩ (by simp only [hw]; exact Iff.rfl)
  | finish hw => exact Exclusive.keepWorker ⟨h.worker, h.main⟩ (by simp only [hw]; exact Iff.rfl)
  | relock hw hlock => exact h.acquireWorker hlock trivial
  | again hw => exact h.keepWorker (by rw [hw]; exact Iff.rfl)
  | leave hw hqueue hquit => exact h.releaseWorker (by rw [hw]; trivial) id

/-- The lock belongs to one thread after every step of the main thread. -/
theorem Exclusive.mainStep (h : s.Exclusive) (hstep : MainStep s t) : t.Exclusive := by
  cases hstep with
  | lock hmain hlock => exact h.acquireMain hlock trivial
  | push hmain =>
    have hlock := h.main.mp (by rw [hmain]; trivial)
    exact ⟨h.worker, iff_of_true trivial hlock⟩
  | unlock hmain => exact h.releaseMain (by rw [hmain]; trivial) id
  | notify hmain =>
    have hmain : s.notifyAll.main = .notifying := hmain
    exact h.notifyAll.keepMain (by rw [hmain]; exact Iff.rfl)
  | lockQuit hmain hlock => exact h.acquireMain hlock trivial
  | quit hmain =>
    have hlock := h.main.mp (by rw [hmain]; trivial)
    exact ⟨h.worker, iff_of_true trivial hlock⟩
  | unlockQuit hmain => exact h.releaseMain (by rw [hmain]; trivial) id
  | notifyQuit hmain =>
    have hmain : s.notifyAll.main = .notifyingQuit := hmain
    exact h.notifyAll.keepMain (by rw [hmain]; exact Iff.rfl)
  | join hmain hw => exact h.keepMain (by rw [hmain]; exact Iff.rfl)
  | destroy hmain hi => exact h.keepMain (by rw [hmain]; exact Iff.rfl)

/-- The places of the threads agree with the flag and the queue. -/
structure Ordered (s : DispatchQueue Op n) : Prop where
  quit : s.quit = true ↔ s.main.Quit
  waited : ∀ w, s.workers w = .waited → s.queue ≠ [] ∨ s.quit = true
  left : ∀ w, s.workers w = .left → s.quit = true ∧ s.queue = []
  joined : ∀ i, s.main = .joining i → ∀ w : Fin n, w.val < i → s.workers w = .left
  destroyed : s.main = .destroyed → ∀ w, s.workers w = .left
  awake : s.main.Joins → ∀ w, s.workers w ≠ .blocked

/-- Who joins the threads has set the flag. -/
theorem quit_of_joins {main : DispatchMain Op} (h : main.Joins) : main.Quit := by
  cases main with
  | joining i => trivial
  | destroyed => trivial
  | _ => cases h

/-- A step of a worker that leaves flag and queue alone. -/
theorem Ordered.setWorker (h : s.Ordered) (hw : s.workers w ≠ .left)
    (hwaited : x = .waited → s.queue ≠ [] ∨ s.quit = true)
    (hleft : x = .left → s.quit = true ∧ s.queue = [])
    (hblocked : x = .blocked → s.quit = false) : (s.setWorker w x).Ordered := by
  have hcases : ∀ v y, (s.setWorker w x).workers v = y → x = y ∨ s.workers v = y := by
    intro v y hv
    simp only [DispatchQueue.setWorker] at hv
    by_cases hvw : v = w
    · rw [hvw, Function.update_self] at hv
      exact Or.inl hv
    · rw [Function.update_of_ne hvw] at hv
      exact Or.inr hv
  have hkeep : ∀ v, s.workers v = .left → (s.setWorker w x).workers v = .left := by
    intro v hv
    have hvw : v ≠ w := by
      rintro rfl
      exact hw hv
    simp only [DispatchQueue.setWorker]
    rw [Function.update_of_ne hvw]
    exact hv
  constructor
  · exact h.quit
  · intro v hv
    exact (hcases v _ hv).elim hwaited (h.waited v)
  · intro v hv
    exact (hcases v _ hv).elim hleft (h.left v)
  · intro i hi v hv
    exact hkeep v (h.joined i hi v hv)
  · intro hdestroyed v
    exact hkeep v (h.destroyed hdestroyed v)
  · intro hjoins v hv
    rcases hcases v _ hv with hx | hv
    · have htrue := h.quit.mpr (quit_of_joins hjoins)
      rw [hblocked hx] at htrue
      cases htrue
    · exact h.awake hjoins v hv

/-- The order of places is kept by every step of a worker. -/
theorem Ordered.workerStep (h : s.Ordered) (hex : s.Exclusive) (hstep : WorkerStep s w t) :
    t.Ordered := by
  cases hstep with
  | lock hw hlock =>
    refine Ordered.setWorker (s := { s with lock := some (.worker w) })
      ⟨h.quit, h.waited, h.left, h.joined, h.destroyed, h.awake⟩ ?_ (by simp) (by simp) (by simp)
    rcases hw with hw | hw
    · simp [hw]
    · simp [hw]
  | proceed hw hready => exact h.setWorker (by simp [hw]) (fun _ => hready) (by simp) (by simp)
  | block hw hqueue hquit =>
    exact Ordered.setWorker (s := { s with lock := none })
      ⟨h.quit, h.waited, h.left, h.joined, h.destroyed, h.awake⟩ (by simp [hw]) (by simp)
      (by simp) (fun _ => hquit)
  | @pop hw op rest hqueue =>
    -- the other workers are not past their wait, since they do not have the lock
    have hlock := (hex.worker w).mp (by rw [hw]; trivial)
    have hother : ∀ v, v ≠ w → s.workers v ≠ .waited := by
      intro v hv hwaited
      have hlock' := (hex.worker v).mp (by rw [hwaited]; trivial)
      rw [hlock] at hlock'
      simp only [Option.some.injEq, DispatchThread.worker.injEq] at hlock'
      exact hv hlock'.symm
    have hnone : ∀ v, s.workers v ≠ .left := by
      intro v hv
      rw [(h.left v hv).2] at hqueue
      cases hqueue
    have hset : (s.setWorker w (.popped op)).Ordered :=
      h.setWorker (by simp [hw]) (by simp) (by simp) (by simp)
    refine ⟨hset.quit, fun v hv => ?_, fun v hv => ?_, hset.joined, hset.destroyed, hset.awake⟩
    · by_cases hvw : v = w
      · rw [hvw, DispatchQueue.setWorker] at hv
        simp at hv
      · rw [DispatchQueue.setWorker] at hv
        simp only [Function.update_of_ne hvw] at hv
        exact absurd hv (hother v hvw)
    · by_cases hvw : v = w
      · rw [hvw, DispatchQueue.setWorker] at hv
        simp at hv
      · rw [DispatchQueue.setWorker] at hv
        simp only [Function.update_of_ne hvw] at hv
        exact absurd hv (hnone v)
  | skip hw hqueue hquit => exact h.setWorker (by simp [hw]) (by simp) (by simp) (by simp)
  | unlock hw =>
    exact Ordered.setWorker (s := { s with lock := none })
      ⟨h.quit, h.waited, h.left, h.joined, h.destroyed, h.awake⟩ (by simp [hw]) (by simp)
      (by simp) (by simp)
  | run hw =>
    exact Ordered.setWorker (s := { s with started := s.started ++ [_] })
      ⟨h.quit, h.waited, h.left, h.joined, h.destroyed, h.awake⟩ (by simp [hw]) (by simp)
      (by simp) (by simp)
  | finish hw =>
    exact Ordered.setWorker (s := { s with executed := s.executed ++ [_] })
      ⟨h.quit, h.waited, h.left, h.joined, h.destroyed, h.awake⟩ (by simp [hw]) (by simp)
      (by simp) (by simp)
  | relock hw hlock =>
    exact Ordered.setWorker (s := { s with lock := some (.worker w) })
      ⟨h.quit, h.waited, h.left, h.joined, h.destroyed, h.awake⟩ (by simp [hw]) (by simp)
      (by simp) (by simp)
  | again hw => exact h.setWorker (by simp [hw]) (by simp) (by simp) (by simp)
  | leave hw hqueue hquit =>
    exact Ordered.setWorker (s := { s with lock := none })
      ⟨h.quit, h.waited, h.left, h.joined, h.destroyed, h.awake⟩ (by simp [hw]) (by simp)
      (fun _ => ⟨hquit, hqueue⟩) (by simp)

/-- A step of the main thread that leaves flag, queue and workers alone, and does not join. -/
theorem Ordered.setMain (h : s.Ordered) {main : DispatchMain Op} (hquit : main.Quit ↔ s.main.Quit)
    (hjoins : ¬ main.Joins) {lock : Option (DispatchThread n)} :
    Ordered { s with lock := lock, main := main } := by
  refine ⟨h.quit.trans hquit.symm, h.waited, h.left, fun i hi => ?_, fun hmain => ?_,
    fun hmain => absurd hmain hjoins⟩
  · simp only at hi
    rw [hi] at hjoins
    exact absurd trivial hjoins
  · simp only at hmain
    rw [hmain] at hjoins
    exact absurd trivial hjoins

/-- A worker that was notified has left if it had left. -/
theorem notify_eq_left : notify x = .left ↔ x = .left := by
  cases x with
  | blocked => simp [notify]
  | _ => exact Iff.rfl

/-- A worker that was notified has waited if it had waited. -/
theorem notify_eq_waited : notify x = .waited ↔ x = .waited := by
  cases x with
  | blocked => simp [notify]
  | _ => exact Iff.rfl

/-- A worker that was notified does not wait. -/
theorem notify_ne_blocked : notify x ≠ .blocked := by
  cases x with
  | _ => simp [notify]

/-- Waking the workers moves none of them to or from its end. -/
theorem Ordered.notifyAll (h : s.Ordered) : s.notifyAll.Ordered := by
  constructor
  · exact h.quit
  · exact fun v hv => h.waited v (notify_eq_waited.mp hv)
  · exact fun v hv => h.left v (notify_eq_left.mp hv)
  · exact fun i hi v hv => notify_eq_left.mpr (h.joined i hi v hv)
  · exact fun hmain v => notify_eq_left.mpr (h.destroyed hmain v)
  · exact fun _ v => notify_ne_blocked

/-- The order of places is kept by every step of the main thread. -/
theorem Ordered.mainStep (h : s.Ordered) (hstep : MainStep s t) : t.Ordered := by
  cases hstep with
  | lock hmain hlock => exact h.setMain (by rw [hmain]; exact Iff.rfl) id
  | push hmain =>
    have hrunning : ¬ s.main.Quit := by
      rw [hmain]
      exact id
    have hset : Ordered { s with lock := s.lock, main := .pushed } :=
      h.setMain (by rw [hmain]; exact Iff.rfl) id
    refine ⟨hset.quit, fun v _ => Or.inl ?_, fun v hv => ?_, hset.joined, hset.destroyed,
      hset.awake⟩
    · exact List.append_ne_nil_of_right_ne_nil _ (List.cons_ne_nil _ _)
    · exact absurd (h.quit.mp (h.left v hv).1) hrunning
  | unlock hmain => exact h.setMain (by rw [hmain]; exact Iff.rfl) id
  | notify hmain =>
    have hmain : s.notifyAll.main = .notifying := hmain
    exact h.notifyAll.setMain (by rw [hmain]; exact Iff.rfl) id
  | lockQuit hmain hlock => exact h.setMain (by rw [hmain]; exact Iff.rfl) id
  | quit hmain =>
    exact ⟨iff_of_true rfl trivial, fun _ _ => Or.inr rfl, fun v hv => ⟨rfl, (h.left v hv).2⟩,
      fun i hi => (by cases hi), fun hi => (by cases hi), fun hi => (by cases hi)⟩
  | unlockQuit hmain => exact h.setMain (by rw [hmain]; exact Iff.rfl) id
  | notifyQuit hmain =>
    have hquit : s.quit = true := h.quit.mpr (by rw [hmain]; trivial)
    refine ⟨iff_of_true hquit trivial, h.notifyAll.waited, h.notifyAll.left, fun i hi v hv => ?_,
      fun hi => (by cases hi), fun _ _ => notify_ne_blocked⟩
    cases hi
    exact absurd hv (Nat.not_lt_zero _)
  | @join i hmain hi hw =>
    have hquit : s.quit = true := h.quit.mpr (by rw [hmain]; trivial)
    refine ⟨iff_of_true hquit trivial, h.waited, h.left, fun j hj v hv => ?_,
      fun hj => (by cases hj), fun _ => h.awake (by rw [hmain]; trivial)⟩
    cases hj
    rcases Nat.lt_succ_iff_lt_or_eq.mp hv with hlt | heq
    · exact h.joined i hmain v hlt
    · have hv : v = ⟨i, hi⟩ := Fin.ext heq
      rw [hv]
      exact hw
  | @destroy i hmain hi =>
    have hquit : s.quit = true := h.quit.mpr (by rw [hmain]; trivial)
    refine ⟨iff_of_true hquit trivial, h.waited, h.left, fun j hj => (by cases hj), fun _ v => ?_,
      fun _ => h.awake (by rw [hmain]; trivial)⟩
    exact h.joined i hmain v (Nat.lt_of_lt_of_le v.isLt hi)

/-- The books of the queue. -/
def ledger (s : DispatchQueue Op n) : Ledger Op where
  submitted := s.dispatched
  queue := s.queue
  taken := s.taken
  held := ∑ w, (s.workers w).held
  done := s.executed

/-- The books balance after every step of a worker. -/
theorem balanced_workerStep (h : s.ledger.Balanced) (hstep : WorkerStep s w t) :
    t.ledger.Balanced := by
  have hsame : ∀ y : DispatchWorker Op, y.held = (s.workers w).held →
      ∑ v, (Function.update s.workers w y v).held = ∑ v, (s.workers v).held :=
    fun y hy => sum_hold_same DispatchWorker.held s.workers hy
  cases hstep with
  | lock hw hlock =>
    refine ⟨h.submitted, h.taken.trans (congrArg (· + _) (hsame _ ?_).symm)⟩
    rcases hw with hw | hw
    · rw [hw]
      rfl
    · rw [hw]
      rfl
  | proceed hw hready =>
    exact ⟨h.submitted, h.taken.trans (congrArg (· + _) (hsame _ (by rw [hw]; rfl)).symm)⟩
  | block hw hqueue hquit =>
    exact ⟨h.submitted, h.taken.trans (congrArg (· + _) (hsame _ (by rw [hw]; rfl)).symm)⟩
  | pop hw hqueue =>
    exact h.take hqueue (sum_hold_take DispatchWorker.held s.workers (by rw [hw]; rfl) rfl)
  | skip hw hqueue hquit =>
    exact ⟨h.submitted, h.taken.trans (congrArg (· + _) (hsame _ (by rw [hw]; rfl)).symm)⟩
  | unlock hw =>
    exact ⟨h.submitted, h.taken.trans (congrArg (· + _) (hsame _ (by rw [hw]; rfl)).symm)⟩
  | run hw =>
    exact ⟨h.submitted, h.taken.trans (congrArg (· + _) (hsame _ (by rw [hw]; rfl)).symm)⟩
  | finish hw =>
    exact h.finish (sum_hold_finish DispatchWorker.held s.workers (by rw [hw]; rfl) rfl)
  | relock hw hlock =>
    exact ⟨h.submitted, h.taken.trans (congrArg (· + _) (hsame _ (by rw [hw]; rfl)).symm)⟩
  | again hw =>
    exact ⟨h.submitted, h.taken.trans (congrArg (· + _) (hsame _ (by rw [hw]; rfl)).symm)⟩
  | leave hw hqueue hquit =>
    exact ⟨h.submitted, h.taken.trans (congrArg (· + _) (hsame _ (by rw [hw]; rfl)).symm)⟩

/-- A notification leaves what a worker holds. -/
theorem held_notify : (notify x).held = x.held := by
  cases x with
  | _ => rfl

/-- Waking the workers changes nothing in the books. -/
theorem ledger_notifyAll (s : DispatchQueue Op n) : s.notifyAll.ledger = s.ledger := by
  unfold ledger
  simp only [notifyAll, held_notify]

/-- The books balance after every step of the main thread. -/
theorem balanced_mainStep (h : s.ledger.Balanced) (hstep : MainStep s t) :
    t.ledger.Balanced := by
  cases hstep with
  | push hmain => exact h.submit _
  | notify hmain =>
    rw [← ledger_notifyAll] at h
    exact h
  | notifyQuit hmain =>
    rw [← ledger_notifyAll] at h
    exact h
  | _ => exact h

/-- A worker without others starts what it takes in order. -/
def InOrder (s : DispatchQueue Op n) : Prop :=
  ∀ w : Fin n, (∀ v, v = w) → s.taken = s.started ++ (s.workers w).pending

/-- A step of the only worker that takes and starts nothing. -/
theorem InOrder.setWorker (h : s.InOrder) (hx : x.pending = (s.workers w).pending) :
    (s.setWorker w x).InOrder := by
  intro v hv
  have hvw : w = v := hv w
  subst hvw
  simp only [DispatchQueue.setWorker, Function.update_self, hx]
  exact h w hv

/-- A single worker starts operations in order. -/
theorem InOrder.workerStep (h : s.InOrder) (hstep : WorkerStep s w t) : t.InOrder := by
  cases hstep with
  | lock hw hlock =>
    refine InOrder.setWorker (s := { s with lock := some (.worker w) }) h ?_
    rcases hw with hw | hw
    · simp only [hw]
      rfl
    · simp only [hw]
      rfl
  | proceed hw hready => exact h.setWorker (by rw [hw]; rfl)
  | block hw hqueue hquit =>
    exact InOrder.setWorker (s := { s with lock := none }) h (by simp only [hw]; rfl)
  | pop hw hqueue =>
    intro v hv
    have hvw : w = v := hv w
    subst hvw
    have htaken := h w hv
    rw [hw] at htaken
    simp only [DispatchQueue.setWorker, Function.update_self, DispatchWorker.pending]
    rw [htaken]
    simp only [DispatchWorker.pending, List.append_nil]
  | skip hw hqueue hquit => exact h.setWorker (by rw [hw]; rfl)
  | unlock hw =>
    exact InOrder.setWorker (s := { s with lock := none }) h (by simp only [hw]; rfl)
  | run hw =>
    intro v hv
    have hvw : w = v := hv w
    subst hvw
    have htaken := h w hv
    rw [hw] at htaken
    simp only [DispatchQueue.setWorker, Function.update_self, DispatchWorker.pending]
    rw [htaken]
    simp only [DispatchWorker.pending, List.append_nil]
  | finish hw =>
    exact InOrder.setWorker (s := { s with executed := s.executed ++ [_] }) h
      (by simp only [hw]; rfl)
  | relock hw hlock =>
    exact InOrder.setWorker (s := { s with lock := some (.worker w) }) h (by simp only [hw]; rfl)
  | again hw => exact h.setWorker (by rw [hw]; rfl)
  | leave hw hqueue hquit =>
    exact InOrder.setWorker (s := { s with lock := none }) h (by simp only [hw]; rfl)

/-- A notification leaves what a worker has still to start. -/
theorem pending_notify : (notify x).pending = x.pending := by
  cases x with
  | _ => rfl

/-- Notifying all workers keeps the order. -/
theorem InOrder.notifyAll (h : s.InOrder) : s.notifyAll.InOrder := by
  intro w hw
  simp only [DispatchQueue.notifyAll, pending_notify]
  exact h w hw

/-- The main thread keeps the order. -/
theorem InOrder.mainStep (h : s.InOrder) (hstep : MainStep s t) : t.InOrder := by
  cases hstep with
  | notify hmain => exact h.notifyAll
  | notifyQuit hmain => exact h.notifyAll
  | _ => exact h

/-- What holds in every state of a run. -/
structure Valid (s : DispatchQueue Op n) : Prop where
  exclusive : s.Exclusive
  ordered : s.Ordered
  balanced : s.ledger.Balanced
  inOrder : s.InOrder

/-- The start is valid. -/
theorem valid_start (Op : Type) (n : ℕ) : (start Op n).Valid := by
  refine ⟨⟨fun w => ?_, ?_⟩, ⟨?_, ?_, ?_, ?_, ?_, ?_⟩, ⟨rfl, ?_⟩, fun w _ => rfl⟩
  · exact iff_of_false id (by simp [start])
  · exact iff_of_false id (by simp [start])
  · exact iff_of_false (by simp [start]) id
  · exact fun w hw => by cases hw
  · exact fun w hw => by cases hw
  · exact fun i hi => by cases hi
  · exact fun hmain => by cases hmain
  · exact fun hmain => by cases hmain
  · have hheld : ∑ w : Fin n, ((start Op n).workers w).held = 0 :=
      Finset.sum_eq_zero fun w _ => rfl
    simp only [ledger, hheld]
    rfl

/-- Every action keeps what holds along a run. -/
theorem Valid.exec (h : s.Valid) {a : DispatchAction Op n} (hstep : s.exec a = .ok t) :
    t.Valid := by
  cases a with
  | dispatch op =>
    simp only [DispatchQueue.exec] at hstep
    split at hstep
    · rename_i hmain
      cases hstep
      exact ⟨h.exclusive.keepMain (by rw [hmain]; exact Iff.rfl),
        h.ordered.setMain (by rw [hmain]; exact Iff.rfl) id, h.balanced, h.inOrder⟩
    · cases hstep
  | destroy =>
    simp only [DispatchQueue.exec] at hstep
    split at hstep
    · rename_i hmain
      cases hstep
      exact ⟨h.exclusive.keepMain (by rw [hmain]; exact Iff.rfl),
        h.ordered.setMain (by rw [hmain]; exact Iff.rfl) id, h.balanced, h.inOrder⟩
    · cases hstep
  | main =>
    have hmain := mainThread_cases hstep
    exact ⟨h.exclusive.mainStep hmain, h.ordered.mainStep hmain,
      balanced_mainStep h.balanced hmain, h.inOrder.mainStep hmain⟩
  | worker w =>
    have hworker := threadHandler_cases hstep
    exact ⟨h.exclusive.workerStep hworker, h.ordered.workerStep h.exclusive hworker,
      balanced_workerStep h.balanced hworker, h.inOrder.workerStep hworker⟩
  | wake w =>
    simp only [DispatchQueue.exec] at hstep
    split at hstep
    · rename_i hw
      cases hstep
      refine ⟨h.exclusive.keepWorker (by rw [hw]; exact Iff.rfl),
        h.ordered.setWorker (by simp [hw]) (by simp) (by simp) (by simp),
        ⟨h.balanced.submitted, ?_⟩, h.inOrder.setWorker (by rw [hw]; rfl)⟩
      have hheld : ∑ v, (Function.update s.workers w .notified v).held =
          ∑ v, (s.workers v).held :=
        sum_hold_same DispatchWorker.held s.workers (by rw [hw]; rfl)
      exact h.balanced.taken.trans (congrArg (· + _) hheld.symm)
    · cases hstep

/-- A worker that has the lock can take its next step. -/
theorem Valid.worker_progress (h : s.Valid) (hw : (s.workers w).Locked) :
    ∃ t, s.threadHandler w = .ok t := by
  unfold threadHandler
  cases hx : s.workers w with
  | waiting =>
    simp only
    split
    · exact ⟨_, rfl⟩
    · exact ⟨_, rfl⟩
  | waited =>
    simp only
    split
    · rename_i hready
      cases hqueue : s.queue with
      | nil =>
        -- the flag was not the reason for which the worker went on
        have hquit := (h.ordered.waited w hx).resolve_left (not_not.mpr hqueue)
        rw [hquit, hqueue] at hready
        simp at hready
      | cons op rest => exact ⟨_, rfl⟩
    · exact ⟨_, rfl⟩
  | popped op => exact ⟨_, rfl⟩
  | testing =>
    simp only
    split
    · exact ⟨_, rfl⟩
    · exact ⟨_, rfl⟩
  | starting =>
    rw [hx] at hw
    cases hw
  | blocked =>
    rw [hx] at hw
    cases hw
  | notified =>
    rw [hx] at hw
    cases hw
  | unlocked op =>
    rw [hx] at hw
    cases hw
  | running op =>
    rw [hx] at hw
    cases hw
  | relocking =>
    rw [hx] at hw
    cases hw
  | left =>
    rw [hx] at hw
    cases hw

/-- A worker that neither waits nor has left can take its next step when the lock is free. -/
theorem worker_progress_unlocked (hlock : s.lock = none) (hlocked : ¬ (s.workers w).Locked)
    (hblocked : s.workers w ≠ .blocked) (hleft : s.workers w ≠ .left) :
    ∃ t, s.threadHandler w = .ok t := by
  have hacquire : ∀ thread, s.acquire thread = .ok { s with lock := some thread } := by
    intro thread
    rw [acquire, if_pos hlock]
    rfl
  unfold threadHandler
  cases hx : s.workers w with
  | starting =>
    simp only [hacquire]
    exact ⟨_, rfl⟩
  | notified =>
    simp only [hacquire]
    exact ⟨_, rfl⟩
  | relocking =>
    simp only [hacquire]
    exact ⟨_, rfl⟩
  | unlocked op => exact ⟨_, rfl⟩
  | running op => exact ⟨_, rfl⟩
  | blocked => exact absurd hx hblocked
  | left => exact absurd hx hleft
  | waiting =>
    rw [hx] at hlocked
    exact absurd trivial hlocked
  | waited =>
    rw [hx] at hlocked
    exact absurd trivial hlocked
  | popped op =>
    rw [hx] at hlocked
    exact absurd trivial hlocked
  | testing =>
    rw [hx] at hlocked
    exact absurd trivial hlocked

/-- While the main thread is in a call, a thread can take its next step. -/
theorem Valid.progress (h : s.Valid) (hidle : s.main ≠ .idle) (hdestroyed : s.main ≠ .destroyed) :
    (∃ t, s.mainThread = .ok t) ∨ ∃ w t, s.threadHandler w = .ok t := by
  cases hlock : s.lock with
  | some thread =>
    cases thread with
    | worker w => exact Or.inr ⟨w, h.worker_progress ((h.exclusive.worker w).mpr hlock)⟩
    | main =>
      have hlocked := h.exclusive.main.mpr hlock
      refine Or.inl ?_
      unfold mainThread
      cases hmain : s.main with
      | pushing op => exact ⟨_, rfl⟩
      | pushed => exact ⟨_, rfl⟩
      | quitting => exact ⟨_, rfl⟩
      | quitSet => exact ⟨_, rfl⟩
      | _ =>
        rw [hmain] at hlocked
        cases hlocked
  | none =>
    have hacquire : ∀ thread, s.acquire thread = .ok { s with lock := some thread } := by
      intro thread
      rw [acquire, if_pos hlock]
      rfl
    have hworker : ∀ v, ¬ (s.workers v).Locked := by
      intro v hv
      rw [h.exclusive.worker v, hlock] at hv
      cases hv
    unfold mainThread
    cases hmain : s.main with
    | dispatching op =>
      simp only [hacquire]
      exact Or.inl ⟨_, rfl⟩
    | destructing =>
      simp only [hacquire]
      exact Or.inl ⟨_, rfl⟩
    | notifying => exact Or.inl ⟨_, rfl⟩
    | notifyingQuit => exact Or.inl ⟨_, rfl⟩
    | joining i =>
      have hawake := h.ordered.awake (by rw [hmain]; trivial)
      by_cases hi : i < n
      · by_cases hleft : s.workers ⟨i, hi⟩ = .left
        · simp only [dif_pos hi, hleft]
          exact Or.inl ⟨_, rfl⟩
        · exact Or.inr ⟨⟨i, hi⟩,
            worker_progress_unlocked hlock (hworker _) (hawake _) hleft⟩
      · simp only [dif_neg hi]
        exact Or.inl ⟨_, rfl⟩
    | pushing op => exact Or.inl ⟨_, rfl⟩
    | pushed => exact Or.inl ⟨_, rfl⟩
    | quitting => exact Or.inl ⟨_, rfl⟩
    | quitSet => exact Or.inl ⟨_, rfl⟩
    | idle => exact absurd hmain hidle
    | destroyed => exact absurd hmain hdestroyed

/-- A lock that is held is not an access to an empty queue. -/
theorem acquire_ne_front {thread : DispatchThread n}
    {next : DispatchQueue Op n → DispatchQueue Op n} :
    (s.acquire thread >>= fun s => pure (next s)) ≠
      .error "undefined: front of an empty queue" := by
  unfold acquire
  split
  · exact fun h => by cases h
  · intro h
    have hmessage : "The lock is held" = "undefined: front of an empty queue" :=
      Except.error.inj h
    exact absurd hmessage (by decide)

/-- No action takes the front of an empty queue. -/
theorem Valid.front_defined (h : s.Valid) (a : DispatchAction Op n) :
    s.exec a ≠ .error "undefined: front of an empty queue" := by
  cases a with
  | dispatch op =>
    simp only [DispatchQueue.exec]
    split
    · simp [pure, Except.pure]
    · simp [throw, throwThe, MonadExceptOf.throw]
  | destroy =>
    simp only [DispatchQueue.exec]
    split
    · simp [pure, Except.pure]
    · simp [throw, throwThe, MonadExceptOf.throw]
  | main =>
    simp only [DispatchQueue.exec]
    unfold mainThread
    split
    · simp [throw, throwThe, MonadExceptOf.throw]
    · exact acquire_ne_front
    · simp [pure, Except.pure]
    · simp [pure, Except.pure]
    · simp [pure, Except.pure]
    · exact acquire_ne_front
    · simp [pure, Except.pure]
    · simp [pure, Except.pure]
    · simp [pure, Except.pure]
    · split
      · split
        · simp [pure, Except.pure]
        · simp [throw, throwThe, MonadExceptOf.throw]
      · simp [pure, Except.pure]
    · simp [throw, throwThe, MonadExceptOf.throw]
  | worker w =>
    simp only [DispatchQueue.exec]
    by_cases hlocked : (s.workers w).Locked
    · obtain ⟨t, ht⟩ := h.worker_progress hlocked
      rw [ht]
      simp
    · unfold threadHandler
      cases hw : s.workers w with
      | starting => exact acquire_ne_front
      | notified => exact acquire_ne_front
      | relocking => exact acquire_ne_front
      | unlocked op => simp [pure, Except.pure]
      | running op => simp [pure, Except.pure]
      | blocked => simp [throw, throwThe, MonadExceptOf.throw]
      | left => simp [throw, throwThe, MonadExceptOf.throw]
      | _ =>
        rw [hw] at hlocked
        exact absurd trivial hlocked
  | wake w =>
    simp only [DispatchQueue.exec]
    split
    · simp [pure, Except.pure]
    · simp [throw, throwThe, MonadExceptOf.throw]

/-- When all workers have left, the queue is empty and every operation was executed once. -/
theorem Valid.all_left (h : s.Valid) (hn : 1 ≤ n) (hleft : ∀ w, s.workers w = .left) :
    s.queue = [] ∧ s.executed.Perm s.dispatched := by
  have hqueue := (h.ordered.left ⟨0, hn⟩ (hleft _)).2
  have hheld : ∑ w, (s.workers w).held = 0 := by
    refine Finset.sum_eq_zero fun w _ => ?_
    rw [hleft w]
    rfl
  exact ⟨hqueue, h.balanced.done_perm hqueue hheld⟩

/-- In every interleaving, operations are taken in the order in which they were dispatched, and a
single worker starts them in that order; none is executed more often than it was dispatched; the
front of the queue is only taken if there is one; when all workers have left, the queue is empty
and every operation was executed once; this is so when the destructor has returned, and no call of
the main thread gets stuck. -/
theorem dispatched_executed_once (hn : 1 ≤ n)
    (hrun : Runs (StepOf exec) Any (start Op n) s) :
    s.taken <+: s.dispatched ∧ (n = 1 → s.started <+: s.dispatched) ∧
      (s.executed : Multiset Op) ≤ (s.dispatched : Multiset Op) ∧
      (∀ a, s.exec a ≠ .error "undefined: front of an empty queue") ∧
      ((∀ w, s.workers w = .left) → s.queue = [] ∧ s.executed.Perm s.dispatched) ∧
      (s.main = .destroyed → ∀ w, s.workers w = .left) ∧
      (s.main ≠ .idle → s.main ≠ .destroyed →
        (∃ t, s.mainThread = .ok t) ∨ ∃ w t, s.threadHandler w = .ok t) := by
  have hs : s.Valid := hrun.invariant Valid (valid_start Op n) fun _ _ _ hs _ hstep => hs.exec hstep
  have htaken : s.dispatched = s.taken ++ s.queue := hs.balanced.submitted
  refine ⟨⟨s.queue, htaken.symm⟩, fun hone => ?_, hs.balanced.done_le, hs.front_defined,
    hs.all_left hn, hs.ordered.destroyed, hs.progress⟩
  subst hone
  have horder := hs.inOrder 0 fun v => Subsingleton.elim v 0
  rw [htaken, horder, List.append_assoc]
  exact List.prefix_append _ _

/-- Two operations: the worker that takes the second one starts it first. -/
private def overtaking (first second : Fin 2) : List (DispatchAction ℕ 2) :=
  [.dispatch 0, .main, .main, .main, .main, .dispatch 1, .main, .main, .main, .main, .worker first,
    .worker first, .worker first, .worker first, .worker second, .worker second, .worker second,
    .worker second, .worker second]

/-- Both operations are executed, and then the queue is destroyed. -/
private def twoOperations (first second : Fin 2) : List (DispatchAction ℕ 2) :=
  overtaking first second ++ [.worker first, .worker first, .worker first, .worker first,
    .worker first, .worker second, .worker second, .worker second, .worker second, .destroy, .main,
    .main, .main, .main, .worker first, .worker first, .worker first, .worker first,
    .worker second, .worker second, .worker second, .worker second, .main, .main, .main]

/-- Two workers execute one operation each. -/
theorem dispatched_executed_once_twoOperations : ∃ s : DispatchQueue ℕ 2,
    runAll exec Any (start ℕ 2) (twoOperations 0 1) = some s ∧
      (s.main = .destroyed ∧ s.dispatched = [0, 1] ∧ s.started = [1, 0]) ∧
      s.taken <+: s.dispatched ∧ s.executed.Perm s.dispatched ∧ ∀ w, s.workers w = .left := by
  have hrun : (runAll exec Any (start ℕ 2) (twoOperations 0 1)).map
      (fun s => (s.main, s.dispatched, s.started)) = some (.destroyed, [0, 1], [1, 0]) := by
    decide +kernel
  obtain ⟨s, hs, hend⟩ := Option.map_eq_some_iff.mp hrun
  simp only [Prod.mk.injEq] at hend
  obtain ⟨htaken, -, -, -, hexecuted, hdestroyed, -⟩ :=
    dispatched_executed_once (by decide) (runs_of_runAll (twoOperations 0 1) hs)
  have hleft := hdestroyed hend.1
  exact ⟨s, hs, hend, htaken, (hexecuted hleft).2, hleft⟩

/-- With two workers, the operations need not be started in the order in which they were
dispatched. -/
theorem not_started_in_order_overtaking : ∃ s : DispatchQueue ℕ 2,
    Runs (StepOf exec) Any (start ℕ 2) s ∧ ¬ s.started <+: s.dispatched := by
  have hrun : (runAll exec Any (start ℕ 2) (overtaking 0 1)).map
      (fun s => (s.started, s.dispatched)) = some ([1], [0, 1]) := by decide +kernel
  obtain ⟨s, hs, hend⟩ := Option.map_eq_some_iff.mp hrun
  rw [Prod.mk.injEq] at hend
  refine ⟨s, runs_of_runAll (overtaking 0 1) hs, ?_⟩
  rw [hend.1, hend.2]
  decide

end DispatchQueue

end Chimbuko
