import Chimbuko.Core.ADThreadNetClient

/-!
# Runs of the threaded network client

What holds along every interleaving of the caller and the worker. The actions are performed in the
order in which they were enqueued. An action that the worker still uses is not complete, so that
its caller has not destroyed it. The stop is the last action that is enqueued, so the queue is empty
once it was taken.
-/

namespace Chimbuko

open TransitionSystem WorkQueue

namespace ADThreadNetClient

variable {client : NetClient} {s t : ADThreadNetClient client}

/-- What the next step of the worker can be. -/
inductive WorkerStep (s : ADThreadNetClient client) : ADThreadNetClient client → Prop
  | start (hw : s.worker = .starting) :
    WorkerStep s { s with isRunning := true, worker := .reading }
  | read (hw : s.worker = .reading) :
    WorkerStep s { s with worker := .polled s.queue.length }
  | work {nwork : ℕ} (hw : s.worker = .polled nwork) (hnwork : 0 < nwork) :
    WorkerStep s { s with worker := .taking }
  | leave {nwork : ℕ} (hw : s.worker = .polled nwork) (hshutdown : s.shutdown = true) :
    WorkerStep s { s with worker := .exiting }
  | sleep {nwork : ℕ} (hw : s.worker = .polled nwork) : WorkerStep s { s with worker := .reading }
  | pop {obj : ClientObject} {rest : List ClientObject} (hw : s.worker = .taking)
    (hqueue : s.queue = obj :: rest) : WorkerStep s { s with queue := rest, worker := .asking obj }
  | ask {obj : ClientObject} (hw : s.worker = .asking obj) :
    WorkerStep s { s with
      shutdown := s.shutdown || obj.action.shutdownWorker
      worker := .performing obj obj.action.doDelete }
  | perform {obj : ClientObject} {doDelete : Bool} {o : ClientMemory}
    (hw : s.worker = .performing obj doDelete) (hobj : s.objects obj.id = some o) :
    WorkerStep s { s.setMemory obj
        (some { o with result := (obj.action.perform client s.state).2 }) with
      state := (obj.action.perform client s.state).1
      performed := s.performed ++ [(obj, (obj.action.perform client s.state).2)]
      worker := if obj.action.blocking then .notifying obj doDelete else .deleting obj doDelete }
  | notify {obj : ClientObject} {doDelete : Bool} {o : ClientMemory}
    (hw : s.worker = .notifying obj doDelete) (hobj : s.objects obj.id = some o) :
    WorkerStep s { s.setMemory obj (some { o with complete := true }) with
      worker := .deleting obj doDelete }
  | delete {obj : ClientObject} (hw : s.worker = .deleting obj true) :
    WorkerStep s { s.setMemory obj none with worker := .reading }
  | keep {obj : ClientObject} (hw : s.worker = .deleting obj false) :
    WorkerStep s { s with worker := .reading }
  | exit (hw : s.worker = .exiting) :
    WorkerStep s { s with isRunning := false, worker := .exited }

/-- The memory of an action that was not destroyed. -/
theorem memory_eq_ok {obj : ClientObject} {o : ClientMemory} :
    s.memory obj = .ok o ↔ s.objects obj.id = some o := by
  unfold memory
  cases s.objects obj.id with
  | none =>
    constructor
    · exact fun h => by cases h
    · exact fun h => by cases h
  | some o' =>
    constructor
    · exact fun h => congrArg some (Except.ok.inj h)
    · exact fun h => congrArg Except.ok (Option.some.inj h)

/-- The worker takes one of its steps. -/
theorem run_cases (h : s.run = .ok t) : WorkerStep s t := by
  unfold run at h
  split at h
  · rename_i hw
    cases h
    exact .start hw
  · rename_i hw
    cases h
    exact .read hw
  · rename_i nwork hw
    split at h
    · rename_i hnwork
      cases h
      exact .work hw hnwork
    · rename_i hnwork
      split at h
      · rename_i hshutdown
        cases h
        exact .leave hw hshutdown
      · cases h
        exact .sleep hw
  · rename_i hw
    split at h
    · cases h
    · rename_i hqueue
      cases h
      exact .pop hw hqueue
  · rename_i obj hw
    obtain ⟨o, -, h⟩ := bind_eq_ok h
    cases h
    exact .ask hw
  · rename_i obj doDelete hw
    obtain ⟨o, ho, h⟩ := bind_eq_ok h
    cases h
    exact .perform hw (memory_eq_ok.mp ho)
  · rename_i obj doDelete hw
    obtain ⟨o, ho, h⟩ := bind_eq_ok h
    cases h
    exact .notify hw (memory_eq_ok.mp ho)
  · rename_i obj doDelete hw
    split at h
    · rename_i hdelete
      rw [hdelete] at hw
      obtain ⟨o, -, h⟩ := bind_eq_ok h
      cases h
      exact .delete hw
    · rename_i hdelete
      rw [Bool.not_eq_true] at hdelete
      rw [hdelete] at hw
      cases h
      exact .keep hw
  · rename_i hw
    cases h
    exact .exit hw
  · cases h

/-- The object of a new action. -/
def newObject (s : ADThreadNetClient client) (action : ClientAction) : ClientObject :=
  { id := s.enqueued.length, action := action }

/-- The state after an action was enqueued. -/
def push (s : ADThreadNetClient client) (action : ClientAction) : ADThreadNetClient client :=
  { s.setMemory (s.newObject action)
      (some { complete := false, result := action.initialResult }) with
    queue := s.queue ++ [s.newObject action]
    enqueued := s.enqueued ++ [s.newObject action] }

/-- Actions are enqueued while the worker runs. -/
theorem enqueueAction_eq (s : ADThreadNetClient client) (action : ClientAction) :
    s.enqueueAction action = if s.isRunning = false then
        .error "Cannot enqueue an action if the worker thread is not running!"
      else .ok (s.newObject action, s.push action) := by
  unfold enqueueAction
  split
  · rfl
  · rfl

/-- What a call or the next step of the caller can be. -/
inductive MainStep (s : ADThreadNetClient client) : ADThreadNetClient client → Prop
  | construct (hmain : s.main = .constructing) (hrunning : s.isRunning = true) :
    MainStep s { s with main := .ready }
  | call {action : ClientAction} (hmain : s.main = .ready) (hrunning : s.isRunning = true)
    (hstop : action.shutdownWorker = false) :
    MainStep s { s.push action with
      main := if action.blocking then .waiting (s.newObject action) else s.main }
  | stop (hmain : s.main = .ready) (hrunning : s.isRunning = true) :
    MainStep s { s with main := .stopping }
  | skip (hmain : s.main = .ready) (hrunning : s.isRunning = false) :
    MainStep s { s with main := .finished }
  | enqueueStop (hmain : s.main = .stopping) (hrunning : s.isRunning = true) :
    MainStep s { s.push .stopWorker with main := .waiting (s.newObject .stopWorker) }
  | back {obj : ClientObject} {o : ClientMemory} (hmain : s.main = .waiting obj)
    (hobj : s.objects obj.id = some o) (hcomplete : o.complete = true) :
    MainStep s { s.setMemory obj none with
      returned := s.returned ++ [(obj, o.result)]
      main := if obj.action.shutdownWorker then .joining else .ready }
  | join (hmain : s.main = .joining) (hw : s.worker = .exited) :
    MainStep s { s with main := .finished }

/-- Every action is a step of the worker or of the caller. -/
theorem exec_cases {a : ClientStep} (h : s.exec a = .ok t) : WorkerStep s t ∨ MainStep s t := by
  cases a with
  | call action =>
    right
    simp only [exec] at h
    split at h
    · cases h
    · rename_i hmain
      rw [not_not] at hmain
      split at h
      · cases h
      · rename_i hstop
        rw [Bool.not_eq_true] at hstop
        rw [enqueueAction_eq] at h
        split at h
        · cases h
        · rename_i hrunning
          rw [Bool.not_eq_false] at hrunning
          have hcall := MainStep.call hmain hrunning hstop
          obtain ⟨b, hb, h⟩ := bind_eq_ok h
          cases hb
          simp only at h
          split at h
          · rename_i hblocking
            cases h
            rw [if_pos hblocking] at hcall
            exact hcall
          · rename_i hblocking
            cases h
            rw [if_neg hblocking] at hcall
            exact hcall
  | stopWorkerThread =>
    right
    simp only [exec] at h
    split at h
    · cases h
    · rename_i hmain
      rw [not_not] at hmain
      split at h
      · rename_i hrunning
        cases h
        exact .stop hmain hrunning
      · rename_i hrunning
        rw [Bool.not_eq_true] at hrunning
        cases h
        exact .skip hmain hrunning
  | main =>
    right
    simp only [exec, caller] at h
    split at h
    · rename_i hmain
      split at h
      · rename_i hrunning
        cases h
        exact .construct hmain hrunning
      · cases h
    · cases h
    · rename_i obj hmain
      obtain ⟨o, ho, h⟩ := bind_eq_ok h
      split at h
      · rename_i hcomplete
        cases h
        exact .back hmain (memory_eq_ok.mp ho) hcomplete
      · cases h
    · rename_i hmain
      rw [enqueueAction_eq] at h
      split at h
      · cases h
      · rename_i hrunning
        rw [Bool.not_eq_false] at hrunning
        cases h
        exact .enqueueStop hmain hrunning
    · rename_i hmain
      split at h
      · rename_i hw
        cases h
        exact .join hmain hw
      · cases h
    · cases h
  | worker => exact Or.inl (run_cases h)

end ADThreadNetClient

/-- The action that the worker has taken and not performed yet. -/
def ClientWorker.inHand : ClientWorker → List ClientObject
  | .asking obj | .performing obj _ => [obj]
  | _ => []

/-- The action whose memory the worker will still use. -/
def ClientWorker.inUse : ClientWorker → List ClientObject
  | .asking obj | .performing obj _ | .notifying obj _ | .deleting obj true => [obj]
  | _ => []

/-- The caller has enqueued the stop. -/
def ClientMain.Stopped : ClientMain → Prop
  | .waiting obj => obj.action.shutdownWorker = true
  | .joining | .finished => True
  | _ => False

namespace NetClient

variable (client : NetClient)

/-- Performing actions and then others is performing all of them. -/
theorem performAll_append (state : client.State) (a b : List ClientObject) :
    client.performAll state (a ++ b) =
      ((client.performAll (client.performAll state a).1 b).1,
        (client.performAll state a).2 ++ (client.performAll (client.performAll state a).1 b).2) := by
  induction a generalizing state with
  | nil => rfl
  | cons obj rest ih =>
    simp only [List.cons_append, performAll, ih]

end NetClient

namespace ADThreadNetClient

variable {client : NetClient} {init : client.State} {s t : ADThreadNetClient client}

/-- The books of the queue. -/
def ledger (s : ADThreadNetClient client) : Ledger ClientObject where
  submitted := s.enqueued
  queue := s.queue
  taken := s.performed.map Prod.fst ++ s.worker.inHand
  held := s.worker.inHand
  done := s.performed.map Prod.fst

/-- The books balance, the results are those of the client that performs one action after the
other, and the actions are told apart by their numbers. -/
structure Books (init : client.State) (s : ADThreadNetClient client) : Prop where
  balanced : s.ledger.Balanced
  performed : client.performAll init (s.performed.map Prod.fst) = (s.state, s.performed)
  ids : s.enqueued.map ClientObject.id = List.range s.enqueued.length

/-- At the start the books are balanced. -/
theorem books_start (init : client.State) : (start client init).Books init :=
  ⟨⟨rfl, rfl⟩, rfl, rfl⟩

/-- A step of the worker that takes and performs nothing. -/
theorem Books.setWorker (h : s.Books init) {worker : ClientWorker}
    (hw : worker.inHand = s.worker.inHand) {objects : ℕ → Option ClientMemory}
    {running shutdown : Bool} :
    Books init { s with
      worker := worker, objects := objects, isRunning := running, shutdown := shutdown } := by
  refine ⟨⟨h.balanced.submitted.trans ?_, ?_⟩, h.performed, h.ids⟩
  · simp only [ledger, hw]
  · have htaken := h.balanced.taken
    simp only [ledger, hw]
    exact htaken

/-- The books are kept by every step of the worker. -/
theorem Books.workerStep (h : s.Books init) (hstep : WorkerStep s t) : t.Books init := by
  cases hstep with
  | start hw => exact h.setWorker (by rw [hw]; rfl)
  | read hw => exact h.setWorker (by rw [hw]; rfl)
  | work hw hnwork => exact h.setWorker (by rw [hw]; rfl)
  | leave hw hshutdown => exact h.setWorker (by rw [hw]; rfl)
  | sleep hw => exact h.setWorker (by rw [hw]; rfl)
  | @pop obj rest hw hqueue =>
    have hnone : s.worker.inHand = [] := by
      rw [hw]
      rfl
    have hheld : (({obj} : Multiset ClientObject)) = s.ledger.held + {obj} := by
      simp only [ledger, hnone, Multiset.coe_nil, zero_add]
    have htake := h.balanced.take (l := s.ledger) hqueue hheld
    refine ⟨?_, h.performed, h.ids⟩
    simp only [ledger, hnone, List.append_nil] at htake ⊢
    exact htake
  | ask hw => exact h.setWorker (by rw [hw]; rfl)
  | @perform obj doDelete o hw hobj =>
    have hhand : s.worker.inHand = [obj] := by
      rw [hw]
      rfl
    have hafter : ClientWorker.inHand (if obj.action.blocking then .notifying obj doDelete
        else .deleting obj doDelete) = [] := by
      split
      · rfl
      · rfl
    have hheld : s.ledger.held = 0 + {obj} := by
      simp only [ledger, hhand, Multiset.coe_singleton, zero_add]
    have hfinish := h.balanced.finish (l := s.ledger) hheld
    refine ⟨?_, ?_, h.ids⟩
    · simp only [ledger, setMemory, hhand, hafter, List.append_nil, List.map_append,
        List.map_singleton, Multiset.coe_nil] at hfinish ⊢
      exact hfinish
    · simp only [List.map_append, List.map_singleton, NetClient.performAll_append, h.performed]
      rfl
  | notify hw hobj => exact h.setWorker (by rw [hw]; rfl)
  | delete hw => exact h.setWorker (by rw [hw]; rfl)
  | keep hw => exact h.setWorker (by rw [hw]; rfl)
  | exit hw => exact h.setWorker (by rw [hw]; rfl)

/-- The books are kept when an action is enqueued. -/
theorem Books.push (h : s.Books init) (action : ClientAction) : (s.push action).Books init := by
  refine ⟨h.balanced.submit (s.newObject action), h.performed, ?_⟩
  simp only [ADThreadNetClient.push, List.map_append, List.map_singleton, List.length_append,
    List.length_singleton, List.range_succ, h.ids]
  rfl

/-- The books are kept by every step of the caller. -/
theorem Books.mainStep (h : s.Books init) (hstep : MainStep s t) : t.Books init := by
  cases hstep with
  | construct hmain hrunning => exact ⟨h.balanced, h.performed, h.ids⟩
  | @call action hmain hrunning hstop =>
    have hpush := h.push action
    exact ⟨hpush.balanced, hpush.performed, hpush.ids⟩
  | stop hmain hrunning => exact ⟨h.balanced, h.performed, h.ids⟩
  | skip hmain hrunning => exact ⟨h.balanced, h.performed, h.ids⟩
  | enqueueStop hmain hrunning =>
    have hpush := h.push .stopWorker
    exact ⟨hpush.balanced, hpush.performed, hpush.ids⟩
  | back hmain hobj hcomplete => exact ⟨h.balanced, h.performed, h.ids⟩
  | join hmain hw => exact ⟨h.balanced, h.performed, h.ids⟩

/-- The sizes that the worker has read, and the way from the start to the stop of the worker. -/
structure Control (s : ADThreadNetClient client) : Prop where
  polled : ∀ k, s.worker = .polled k → k ≤ s.queue.length
  taking : s.worker = .taking → s.queue ≠ []
  stops : (¬ s.main.Stopped ∧ ∀ obj ∈ s.enqueued, obj.action.shutdownWorker = false) ∨
    (s.main.Stopped ∧ ∃ before last, s.enqueued = before ++ [last] ∧
      ∀ obj ∈ before, obj.action.shutdownWorker = false)
  shutdown : s.shutdown = true → s.main.Stopped ∧ s.queue = []
  leaving : s.worker = .exiting ∨ s.worker = .exited → s.shutdown = true
  running : s.isRunning = true ∨ s.worker = .starting ∨ s.worker = .exited
  starting : s.worker = .starting → s.main = .constructing ∧ s.isRunning = false
  finished : s.main = .finished → s.worker = .exited

/-- At the start the control is right. -/
theorem control_start (init : client.State) : (start client init).Control := by
  refine ⟨fun k hk => ?_, fun h => ?_, Or.inl ⟨id, fun obj hobj => ?_⟩, fun h => ?_, fun h => ?_,
    Or.inr (Or.inl rfl), fun _ => ⟨rfl, rfl⟩, fun h => ?_⟩
  · cases hk
  · cases h
  · exact absurd hobj List.not_mem_nil
  · cases h
  · rcases h with h | h
    · cases h
    · cases h
  · cases h

/-- The stop is taken last. -/
theorem Control.queue_eq_nil (h : s.Control) (hbooks : s.Books init) {obj : ClientObject}
    (hhand : s.worker.inHand = [obj]) (hobj : obj.action.shutdownWorker = true) :
    s.main.Stopped ∧ s.queue = [] := by
  have henqueued : s.enqueued = s.performed.map Prod.fst ++ [obj] ++ s.queue := by
    have hsubmitted := hbooks.balanced.submitted
    simp only [ledger, hhand] at hsubmitted
    exact hsubmitted
  rcases h.stops with ⟨-, hnone⟩ | ⟨hstopped, before, last, heq, hnone⟩
  · have hmem : obj ∈ s.enqueued := by
      rw [henqueued]
      exact List.mem_append_left _ (List.mem_append_right _ List.mem_cons_self)
    have hfalse := hnone obj hmem
    rw [hobj] at hfalse
    cases hfalse
  · refine ⟨hstopped, ?_⟩
    rcases List.eq_nil_or_concat s.queue with hqueue | ⟨rest, other, hqueue⟩
    · exact hqueue
    · -- an action behind the stop would make the stop one of those before the last
      rw [List.concat_eq_append] at hqueue
      rw [hqueue, ← List.append_assoc] at henqueued
      have hbefore := (List.append_inj' (heq.symm.trans henqueued) rfl).1
      have hmem : obj ∈ before := by
        rw [hbefore]
        exact List.mem_append_left _ (List.mem_append_right _ List.mem_cons_self)
      have hfalse := hnone obj hmem
      rw [hobj] at hfalse
      cases hfalse

/-- A step of the worker between its start and its exit that leaves the queue alone. -/
theorem Control.setWorker (h : s.Control) {worker : ClientWorker}
    (hw : s.worker ≠ .starting) (hexited : s.worker ≠ .exited)
    (hpolled : ∀ k, worker = .polled k → k ≤ s.queue.length)
    (htaking : worker = .taking → s.queue ≠ []) (hleaving : worker = .exiting → s.shutdown = true)
    (hstarting : worker ≠ .starting) (hexit : worker ≠ .exited) :
    Control { s with worker := worker } := by
  refine ⟨hpolled, htaking, h.stops, h.shutdown, fun hleave => ?_, ?_, fun hstart => ?_,
    fun hmain => ?_⟩
  · exact hleave.elim hleaving fun hw => absurd hw hexit
  · rcases h.running with hrunning | hstart | hexited'
    · exact Or.inl hrunning
    · exact absurd hstart hw
    · exact absurd hexited' hexited
  · exact absurd hstart hstarting
  · exact absurd (h.finished hmain) hexited

/-- The way of the worker is kept by each of its steps. -/
theorem Control.workerStep (h : s.Control) (hbooks : s.Books init) (hstep : WorkerStep s t) :
    t.Control := by
  cases hstep with
  | start hw =>
    refine ⟨by simp, by simp, h.stops, h.shutdown, by simp, Or.inl rfl, by simp, fun hmain => ?_⟩
    have hexited := h.finished hmain
    rw [hw] at hexited
    cases hexited
  | read hw =>
    refine h.setWorker (by simp [hw]) (by simp [hw]) (fun k hk => ?_) (by simp) (by simp)
      (by simp) (by simp)
    cases hk
    exact le_rfl
  | @work nwork hw hnwork =>
    refine h.setWorker (by simp [hw]) (by simp [hw]) (by simp) (fun _ hqueue => ?_) (by simp)
      (by simp) (by simp)
    have hle := h.polled nwork hw
    rw [hqueue] at hle
    exact absurd hnwork (Nat.not_lt.mpr hle)
  | leave hw hshutdown =>
    exact h.setWorker (by simp [hw]) (by simp [hw]) (by simp) (by simp) (fun _ => hshutdown)
      (by simp) (by simp)
  | sleep hw =>
    exact h.setWorker (by simp [hw]) (by simp [hw]) (by simp) (by simp) (by simp) (by simp)
      (by simp)
  | @pop obj rest hw hqueue =>
    have hset : Control { s with worker := .asking obj } :=
      h.setWorker (by simp [hw]) (by simp [hw]) (by simp) (by simp) (by simp) (by simp) (by simp)
    refine ⟨by simp, by simp, hset.stops, fun hshutdown => ?_, hset.leaving, hset.running,
      hset.starting, hset.finished⟩
    rw [(h.shutdown hshutdown).2] at hqueue
    cases hqueue
  | @ask obj hw =>
    have hset : Control { s with worker := .performing obj obj.action.doDelete } :=
      h.setWorker (by simp [hw]) (by simp [hw]) (by simp) (by simp) (by simp) (by simp) (by simp)
    refine ⟨by simp, by simp, hset.stops, fun hshutdown => ?_, by simp, hset.running,
      hset.starting, hset.finished⟩
    rcases (Bool.or_eq_true_iff).mp hshutdown with hold | hnew
    · exact h.shutdown hold
    · have hhand : s.worker.inHand = [obj] := by
        rw [hw]
        rfl
      exact h.queue_eq_nil hbooks hhand hnew
  | @perform obj doDelete o hw hobj =>
    have hset : Control { s with
        worker := if obj.action.blocking then .notifying obj doDelete
          else .deleting obj doDelete } := by
      split
      · exact h.setWorker (by simp [hw]) (by simp [hw]) (by simp) (by simp) (by simp) (by simp)
          (by simp)
      · exact h.setWorker (by simp [hw]) (by simp [hw]) (by simp) (by simp) (by simp) (by simp)
          (by simp)
    exact ⟨hset.polled, hset.taking, hset.stops, hset.shutdown, hset.leaving, hset.running,
      hset.starting, hset.finished⟩
  | @notify obj doDelete o hw hobj =>
    have hset : Control { s with worker := .deleting obj doDelete } :=
      h.setWorker (by simp [hw]) (by simp [hw]) (by simp) (by simp) (by simp) (by simp) (by simp)
    exact ⟨hset.polled, hset.taking, hset.stops, hset.shutdown, hset.leaving, hset.running,
      hset.starting, hset.finished⟩
  | @delete obj hw =>
    have hset : Control { s with worker := .reading } :=
      h.setWorker (by simp [hw]) (by simp [hw]) (by simp) (by simp) (by simp) (by simp) (by simp)
    exact ⟨hset.polled, hset.taking, hset.stops, hset.shutdown, hset.leaving, hset.running,
      hset.starting, hset.finished⟩
  | keep hw =>
    exact h.setWorker (by simp [hw]) (by simp [hw]) (by simp) (by simp) (by simp) (by simp)
      (by simp)
  | exit hw =>
    exact ⟨by simp, by simp, h.stops, h.shutdown, fun _ => h.leaving (Or.inl hw),
      Or.inr (Or.inr rfl), by simp, fun _ => rfl⟩

/-- The way of the worker is kept by every step of the caller. -/
theorem Control.mainStep (h : s.Control) (hstep : MainStep s t) : t.Control := by
  have hopen : ¬ s.main.Stopped → s.shutdown = true → False :=
    fun hmain hshutdown => hmain (h.shutdown hshutdown).1
  have hstarted : s.isRunning = true → s.worker ≠ .starting := by
    intro hrunning hw
    rw [(h.starting hw).2] at hrunning
    cases hrunning
  have hnone : ¬ s.main.Stopped → ∀ obj ∈ s.enqueued, obj.action.shutdownWorker = false := by
    intro hmain
    rcases h.stops with ⟨-, hnone⟩ | ⟨hstopped, -⟩
    · exact hnone
    · exact absurd hstopped hmain
  cases hstep with
  | construct hmain hrunning =>
    have hmain' : ¬ s.main.Stopped := by
      rw [hmain]
      exact id
    exact ⟨h.polled, h.taking, Or.inl ⟨id, hnone hmain'⟩,
      fun hshutdown => (hopen hmain' hshutdown).elim, h.leaving, h.running,
      fun hw => absurd hw (hstarted hrunning), by simp⟩
  | @call action hmain hrunning hstop =>
    have hmain' : ¬ s.main.Stopped := by
      rw [hmain]
      exact id
    have hafter : ¬ ClientMain.Stopped (if action.blocking then .waiting (s.newObject action)
        else s.main) := by
      split
      · intro hstopped
        have htrue : action.shutdownWorker = true := hstopped
        rw [hstop] at htrue
        cases htrue
      · exact hmain'
    refine ⟨fun k hk => ?_, fun _ => ?_, Or.inl ⟨hafter, fun obj hobj => ?_⟩,
      fun hshutdown => (hopen hmain' hshutdown).elim, h.leaving, h.running,
      fun hw => absurd hw (hstarted hrunning), fun hfinished => ?_⟩
    · have hle := h.polled k hk
      simp only [push, List.length_append]
      omega
    · exact List.append_ne_nil_of_right_ne_nil _ (List.cons_ne_nil _ _)
    · rcases List.mem_append.mp hobj with hold | hnew
      · exact hnone hmain' obj hold
      · rw [List.mem_singleton.mp hnew]
        exact hstop
    · simp only at hfinished
      split at hfinished
      · cases hfinished
      · rw [hmain] at hfinished
        cases hfinished
  | stop hmain hrunning =>
    have hmain' : ¬ s.main.Stopped := by
      rw [hmain]
      exact id
    exact ⟨h.polled, h.taking, Or.inl ⟨id, hnone hmain'⟩,
      fun hshutdown => (hopen hmain' hshutdown).elim, h.leaving, h.running,
      fun hw => absurd hw (hstarted hrunning), by simp⟩
  | skip hmain hrunning =>
    -- the worker is running while the caller has not stopped it
    rcases h.running with htrue | hstart | hexited
    · rw [hrunning] at htrue
      cases htrue
    · rw [(h.starting hstart).1] at hmain
      cases hmain
    · have hstopped := (h.shutdown (h.leaving (Or.inr hexited))).1
      rw [hmain] at hstopped
      cases hstopped
  | enqueueStop hmain hrunning =>
    have hmain' : ¬ s.main.Stopped := by
      rw [hmain]
      exact id
    refine ⟨fun k hk => ?_, fun _ => ?_,
      Or.inr ⟨rfl, s.enqueued, s.newObject .stopWorker, rfl, hnone hmain'⟩,
      fun hshutdown => (hopen hmain' hshutdown).elim, h.leaving, h.running,
      fun hw => absurd hw (hstarted hrunning), by simp⟩
    · have hle := h.polled k hk
      simp only [push, List.length_append]
      omega
    · exact List.append_ne_nil_of_right_ne_nil _ (List.cons_ne_nil _ _)
  | @back obj o hmain hobj hcomplete =>
    have hstopped : ClientMain.Stopped (if obj.action.shutdownWorker then .joining else .ready) ↔
        s.main.Stopped := by
      rw [hmain]
      split
      · rename_i hstop
        exact iff_of_true trivial hstop
      · rename_i hstop
        exact iff_of_false id hstop
    refine ⟨h.polled, h.taking, ?_, fun hshutdown => ?_, h.leaving, h.running, fun hw => ?_,
      fun hfinished => ?_⟩
    · rcases h.stops with ⟨hmain', hall⟩ | ⟨hmain', hlast⟩
      · exact Or.inl ⟨fun hnew => hmain' (hstopped.mp hnew), hall⟩
      · exact Or.inr ⟨hstopped.mpr hmain', hlast⟩
    · exact ⟨hstopped.mpr (h.shutdown hshutdown).1, (h.shutdown hshutdown).2⟩
    · rw [(h.starting hw).1] at hmain
      cases hmain
    · simp only at hfinished
      split at hfinished
      · cases hfinished
      · cases hfinished
  | join hmain hw =>
    have hstopped : s.main.Stopped := by
      rw [hmain]
      trivial
    refine ⟨h.polled, h.taking, Or.inr ⟨trivial, ?_⟩, fun hshutdown => ⟨trivial,
      (h.shutdown hshutdown).2⟩, h.leaving, h.running, fun hstart => ?_, fun _ => hw⟩
    · rcases h.stops with ⟨hmain', -⟩ | ⟨-, hlast⟩
      · exact absurd hstopped hmain'
      · exact hlast
    · simp only at hstart
      rw [hw] at hstart
      cases hstart

/-- An action blocks exactly if the worker does not delete it. -/
theorem blocking_eq_true {action : ClientAction} :
    action.blocking = true ↔ action.doDelete = false := by
  cases action with
  | _ => simp [ClientAction.blocking, ClientAction.doDelete]

section Identity

variable {obj other : ClientObject}

/-- Enqueued actions are told apart by their numbers. -/
theorem Books.eq_of_id (h : s.Books init) (hobj : obj ∈ s.enqueued) (hother : other ∈ s.enqueued)
    (hid : obj.id = other.id) : obj = other := by
  have hnodup : (s.enqueued.map ClientObject.id).Nodup := by
    rw [h.ids]
    exact List.nodup_range
  exact List.inj_on_of_nodup_map hnodup hobj hother hid

/-- The number of a new action is not used yet. -/
theorem Books.id_lt (h : s.Books init) (hobj : obj ∈ s.enqueued) : obj.id < s.enqueued.length := by
  have hmem : obj.id ∈ s.enqueued.map ClientObject.id := List.mem_map_of_mem hobj
  rw [h.ids] at hmem
  exact List.mem_range.mp hmem

/-- An action that was performed was enqueued. -/
theorem Books.mem_of_performed (h : s.Books init) (hobj : obj ∈ s.performed.map Prod.fst) :
    obj ∈ s.enqueued := by
  have hsubmitted := h.balanced.submitted
  simp only [ledger] at hsubmitted
  rw [hsubmitted]
  exact List.mem_append_left _ (List.mem_append_left _ hobj)

/-- An action that was performed does not wait in the queue. -/
theorem Books.id_ne_of_performed (h : s.Books init) (hobj : obj ∈ s.performed.map Prod.fst)
    (hother : other ∈ s.queue) : other.id ≠ obj.id := by
  have hsubmitted := h.balanced.submitted
  simp only [ledger] at hsubmitted
  have hnodup : (s.enqueued.map ClientObject.id).Nodup := by
    rw [h.ids]
    exact List.nodup_range
  rw [hsubmitted, List.map_append] at hnodup
  have hdisjoint := (List.nodup_append.mp hnodup).2.2
  exact (hdisjoint obj.id (List.mem_map_of_mem (List.mem_append_left _ hobj)) other.id
    (List.mem_map_of_mem hother)).symm

end Identity

/-- The memory of the actions: those that are used are there and not complete, and what a complete
one holds is the result with which it was performed. -/
structure Memory (s : ADThreadNetClient client) : Prop where
  alive : ∀ obj ∈ s.worker.inUse ++ s.queue, obj ∈ s.enqueued ∧
    ∃ o, s.objects obj.id = some o ∧ o.complete = false
  flags : ∀ obj doDelete, s.worker = .performing obj doDelete ∨
    s.worker = .notifying obj doDelete ∨ s.worker = .deleting obj doDelete →
      doDelete = obj.action.doDelete
  done : ∀ obj doDelete, s.worker = .notifying obj doDelete ∨ s.worker = .deleting obj doDelete →
    obj ∈ s.performed.map Prod.fst
  notified : ∀ obj doDelete, s.worker = .notifying obj doDelete → obj.action.doDelete = false ∧
    ∃ o, s.objects obj.id = some o ∧ (obj, o.result) ∈ s.performed
  completed : ∀ obj ∈ s.enqueued, ∀ o, s.objects obj.id = some o → o.complete = true →
    (obj, o.result) ∈ s.performed
  waiting : ∀ obj, s.main = .waiting obj → obj ∈ s.enqueued ∧ obj.action.doDelete = false ∧
    ∃ o, s.objects obj.id = some o
  returned : ∀ e ∈ s.returned, e ∈ s.performed

/-- At the start no object was freed. -/
theorem memory_start (init : client.State) : (start client init).Memory := by
  refine ⟨fun obj hobj => ?_, fun obj d h => ?_, fun obj d h => ?_, fun obj d h => ?_,
    fun obj hobj => ?_, fun obj h => ?_, fun e he => ?_⟩
  · exact absurd hobj List.not_mem_nil
  · rcases h with h | h | h
    · cases h
    · cases h
    · cases h
  · rcases h with h | h
    · cases h
    · cases h
  · cases h
  · exact absurd hobj List.not_mem_nil
  · cases h
  · exact absurd he List.not_mem_nil

/-- The memory of one action is changed. -/
theorem objects_setMemory (s : ADThreadNetClient client) (obj other : ClientObject)
    (o : Option ClientMemory) : (s.setMemory obj o).objects other.id =
      if other.id = obj.id then o else s.objects other.id :=
  Function.update_apply _ _ _ _

/-- A step of the worker to a place where it uses no action. -/
theorem Memory.setWorker (h : s.Memory) {worker : ClientWorker} (huse : worker.inUse = [])
    (hflags : ∀ obj doDelete, worker ≠ .performing obj doDelete ∧
      worker ≠ .notifying obj doDelete ∧ worker ≠ .deleting obj doDelete)
    {running : Bool} : Memory { s with worker := worker, isRunning := running } := by
  refine ⟨fun obj hobj => ?_, fun obj d hw => ?_, fun obj d hw => ?_, fun obj d hw => ?_,
    h.completed, h.waiting, h.returned⟩
  · simp only [huse, List.nil_append] at hobj
    exact h.alive obj (List.mem_append_right _ hobj)
  · obtain ⟨hperforming, hnotifying, hdeleting⟩ := hflags obj d
    rcases hw with hw | hw | hw
    · exact absurd hw hperforming
    · exact absurd hw hnotifying
    · exact absurd hw hdeleting
  · obtain ⟨-, hnotifying, hdeleting⟩ := hflags obj d
    rcases hw with hw | hw
    · exact absurd hw hnotifying
    · exact absurd hw hdeleting
  · exact absurd hw (hflags obj d).2.1

/-- The memory of the actions is kept by every step of the worker. -/
theorem Memory.workerStep (h : s.Memory) (hbooks : s.Books init) (hstep : WorkerStep s t) :
    t.Memory := by
  cases hstep with
  | start hw => exact h.setWorker rfl (by simp)
  | read hw => exact h.setWorker rfl (by simp)
  | work hw hnwork => exact h.setWorker rfl (by simp)
  | leave hw hshutdown => exact h.setWorker rfl (by simp)
  | sleep hw => exact h.setWorker rfl (by simp)
  | @pop obj rest hw hqueue =>
    refine ⟨fun other hother => ?_, by simp, by simp, by simp, h.completed, h.waiting, h.returned⟩
    refine h.alive other (List.mem_append_right _ ?_)
    rw [hqueue]
    exact hother
  | @ask obj hw =>
    refine ⟨fun other hother => h.alive other ?_, fun other d hd => ?_, by simp, by simp,
      h.completed, h.waiting, h.returned⟩
    · rw [hw]
      exact hother
    · rcases hd with hd | hd | hd
      · cases hd
        rfl
      · cases hd
      · cases hd
  | @perform obj doDelete o hw hobj =>
    have huse : obj ∈ s.worker.inUse ++ s.queue := by
      rw [hw]
      exact List.mem_cons_self
    obtain ⟨hmem, o', ho', hincomplete⟩ := h.alive obj huse
    rw [hobj] at ho'
    cases ho'
    have hflag := h.flags obj doDelete (Or.inl hw)
    have hobjects := s.objects_setMemory obj (o := some { o with
      result := (obj.action.perform client s.state).2 })
    have hworker : ∀ worker, (if obj.action.blocking then ClientWorker.notifying obj doDelete
        else .deleting obj doDelete) = worker →
          (worker = .notifying obj doDelete ∧ obj.action.doDelete = false) ∨
            worker = .deleting obj doDelete := by
      intro worker heq
      split at heq
      · rename_i hblocking
        exact Or.inl ⟨heq.symm, blocking_eq_true.mp hblocking⟩
      · exact Or.inr heq.symm
    generalize (if obj.action.blocking then ClientWorker.notifying obj doDelete
      else .deleting obj doDelete) = worker at *
    have hworker := hworker worker rfl
    refine ⟨fun other hother => ?_, fun other d hd => ?_, fun other d hd => ?_,
      fun other d hd => ?_, fun other hother o' ho' hcomplete => ?_, fun other hwait => ?_,
      fun e he => List.mem_append_left _ (h.returned e he)⟩
    · have hold : other ∈ s.worker.inUse ++ s.queue := by
        rw [hw]
        rcases List.mem_append.mp hother with hhead | hqueue
        · have heq : other = obj := by
            rcases hworker with ⟨rfl, -⟩ | rfl
            · exact List.mem_singleton.mp hhead
            · cases doDelete with
              | true => exact List.mem_singleton.mp hhead
              | false => exact absurd hhead List.not_mem_nil
          rw [heq]
          exact List.mem_cons_self
        · exact List.mem_append_right _ hqueue
      obtain ⟨hmem', o', ho', hincomplete'⟩ := h.alive other hold
      by_cases hid : other.id = obj.id
      · exact ⟨hmem', _, (hobjects other).trans (if_pos hid), hincomplete⟩
      · exact ⟨hmem', o', ((hobjects other).trans (if_neg hid)).trans ho', hincomplete'⟩
    · rcases hworker with ⟨rfl, -⟩ | rfl
      · rcases hd with hd | hd | hd
        · cases hd
        · cases hd
          exact hflag
        · cases hd
      · rcases hd with hd | hd | hd
        · cases hd
        · cases hd
        · cases hd
          exact hflag
    · rw [List.map_append]
      rcases hworker with ⟨rfl, -⟩ | rfl
      · rcases hd with hd | hd
        · cases hd
          exact List.mem_append_right _ List.mem_cons_self
        · cases hd
      · rcases hd with hd | hd
        · cases hd
        · cases hd
          exact List.mem_append_right _ List.mem_cons_self
    · rcases hworker with ⟨rfl, hkept⟩ | rfl
      · cases hd
        exact ⟨hkept, _, (hobjects obj).trans (if_pos rfl),
          List.mem_append_right _ List.mem_cons_self⟩
      · cases hd
    · have hlookup := (hobjects other).symm.trans ho'
      split at hlookup
      · cases hlookup
        have htrue : o.complete = true := hcomplete
        rw [hincomplete] at htrue
        cases htrue
      · exact List.mem_append_left _ (h.completed other hother o' hlookup hcomplete)
    · obtain ⟨hmem', hblocking, o', ho'⟩ := h.waiting other hwait
      by_cases hid : other.id = obj.id
      · exact ⟨hmem', hblocking, _, (hobjects other).trans (if_pos hid)⟩
      · exact ⟨hmem', hblocking, o', ((hobjects other).trans (if_neg hid)).trans ho'⟩
  | @notify obj doDelete o hw hobj =>
    obtain ⟨hkept, o', ho', hperformed⟩ := h.notified obj doDelete hw
    rw [hobj] at ho'
    cases ho'
    have hflag := h.flags obj doDelete (Or.inr (Or.inl hw))
    have hdone := h.done obj doDelete (Or.inl hw)
    have hobjects := s.objects_setMemory obj (o := some { o with complete := true })
    rw [hkept] at hflag
    subst hflag
    refine ⟨fun other hother => ?_, fun other d hd => ?_, fun other d hd => ?_, by simp,
      fun other hother o' ho' hcomplete => ?_, fun other hwait => ?_, h.returned⟩
    · have hqueue : other ∈ s.queue := hother
      obtain ⟨hmem', o', ho', hincomplete⟩ := h.alive other (List.mem_append_right _ hqueue)
      have hid := hbooks.id_ne_of_performed hdone hqueue
      exact ⟨hmem', o', ((hobjects other).trans (if_neg hid)).trans ho', hincomplete⟩
    · rcases hd with hd | hd | hd
      · cases hd
      · cases hd
      · cases hd
        exact hkept.symm
    · rcases hd with hd | hd
      · cases hd
      · cases hd
        exact hdone
    · have hlookup := (hobjects other).symm.trans ho'
      split at hlookup
      · rename_i hid
        cases hlookup
        rw [hbooks.eq_of_id hother (hbooks.mem_of_performed hdone) hid]
        exact hperformed
      · exact h.completed other hother o' hlookup hcomplete
    · obtain ⟨hmem', hblocking, o', ho'⟩ := h.waiting other hwait
      by_cases hid : other.id = obj.id
      · exact ⟨hmem', hblocking, _, (hobjects other).trans (if_pos hid)⟩
      · exact ⟨hmem', hblocking, o', ((hobjects other).trans (if_neg hid)).trans ho'⟩
  | @delete obj hw =>
    have hflag := h.flags obj true (Or.inr (Or.inr hw))
    have hdone := h.done obj true (Or.inr hw)
    have hobjects := s.objects_setMemory obj (o := none)
    refine ⟨fun other hother => ?_, by simp, by simp, by simp,
      fun other hother o' ho' hcomplete => ?_, fun other hwait => ?_, h.returned⟩
    · have hqueue : other ∈ s.queue := hother
      obtain ⟨hmem', o', ho', hincomplete⟩ := h.alive other (List.mem_append_right _ hqueue)
      have hid := hbooks.id_ne_of_performed hdone hqueue
      exact ⟨hmem', o', ((hobjects other).trans (if_neg hid)).trans ho', hincomplete⟩
    · have hlookup := (hobjects other).symm.trans ho'
      split at hlookup
      · cases hlookup
      · exact h.completed other hother o' hlookup hcomplete
    · obtain ⟨hmem', hblocking, o', ho'⟩ := h.waiting other hwait
      have hid : other.id ≠ obj.id := by
        intro hid
        -- the caller waits for none of the actions that the worker deletes
        rw [hbooks.eq_of_id hmem' (hbooks.mem_of_performed hdone) hid, ← hflag] at hblocking
        cases hblocking
      exact ⟨hmem', hblocking, o', ((hobjects other).trans (if_neg hid)).trans ho'⟩
  | keep hw => exact h.setWorker rfl (by simp)
  | exit hw => exact h.setWorker rfl (by simp)

/-- The memory of the actions is kept when an action is enqueued. -/
theorem Memory.push (h : s.Memory) (hbooks : s.Books init) (action : ClientAction) :
    (s.push action).Memory := by
  have hsame : ∀ obj ∈ s.enqueued, (s.push action).objects obj.id = s.objects obj.id := by
    intro obj hobj
    refine Function.update_of_ne ?_ _ _
    exact Nat.ne_of_lt (hbooks.id_lt hobj)
  have hnew : (s.push action).objects (s.newObject action).id =
      some { complete := false, result := action.initialResult } := Function.update_self _ _ _
  refine ⟨fun obj hobj => ?_, h.flags, h.done, fun obj d hw => ?_,
    fun obj hobj o ho hcomplete => ?_, fun obj hmain => ?_, h.returned⟩
  · rw [ADThreadNetClient.push, ← List.append_assoc] at hobj
    rcases List.mem_append.mp hobj with hold | hlast
    · obtain ⟨hmem, o, ho, hincomplete⟩ := h.alive obj hold
      exact ⟨List.mem_append_left _ hmem, o, (hsame obj hmem).trans ho, hincomplete⟩
    · rw [List.mem_singleton.mp hlast]
      exact ⟨List.mem_append_right _ List.mem_cons_self, _, hnew, rfl⟩
  · obtain ⟨hkept, o, ho, hperformed⟩ := h.notified obj d hw
    have hmem := hbooks.mem_of_performed (h.done obj d (Or.inl hw))
    exact ⟨hkept, o, (hsame obj hmem).trans ho, hperformed⟩
  · rcases List.mem_append.mp hobj with hold | hlast
    · exact h.completed obj hold o ((hsame obj hold).symm.trans ho) hcomplete
    · rw [List.mem_singleton.mp hlast, hnew] at ho
      cases ho
      cases hcomplete
  · obtain ⟨hmem, hblocking, o, ho⟩ := h.waiting obj hmain
    exact ⟨List.mem_append_left _ hmem, hblocking, o, (hsame obj hmem).trans ho⟩

/-- The memory of the actions is kept by every step of the caller. -/
theorem Memory.mainStep (h : s.Memory) (hbooks : s.Books init) (hstep : MainStep s t) :
    t.Memory := by
  cases hstep with
  | construct hmain hrunning =>
    exact ⟨h.alive, h.flags, h.done, h.notified, h.completed, by simp, h.returned⟩
  | @call action hmain hrunning hstop =>
    have hpush := h.push hbooks action
    refine ⟨hpush.alive, hpush.flags, hpush.done, hpush.notified, hpush.completed,
      fun obj hwait => ?_, hpush.returned⟩
    simp only at hwait
    split at hwait
    · rename_i hblocking
      cases hwait
      exact ⟨List.mem_append_right _ List.mem_cons_self, blocking_eq_true.mp hblocking, _,
        Function.update_self _ _ _⟩
    · rw [hmain] at hwait
      cases hwait
  | stop hmain hrunning =>
    exact ⟨h.alive, h.flags, h.done, h.notified, h.completed, by simp, h.returned⟩
  | skip hmain hrunning =>
    exact ⟨h.alive, h.flags, h.done, h.notified, h.completed, by simp, h.returned⟩
  | enqueueStop hmain hrunning =>
    have hpush := h.push hbooks .stopWorker
    refine ⟨hpush.alive, hpush.flags, hpush.done, hpush.notified, hpush.completed,
      fun obj hwait => ?_, hpush.returned⟩
    cases hwait
    exact ⟨List.mem_append_right _ List.mem_cons_self, rfl, _, Function.update_self _ _ _⟩
  | @back obj o hmain hobj hcomplete =>
    obtain ⟨hmem, -, -⟩ := h.waiting obj hmain
    -- what the worker still uses is not complete, so it is not what the caller destroys
    have hkeep : ∀ other ∈ s.worker.inUse ++ s.queue,
        (s.setMemory obj none).objects other.id = s.objects other.id := by
      intro other hother
      obtain ⟨-, o', ho', hincomplete⟩ := h.alive other hother
      refine Function.update_of_ne ?_ _ _
      intro hid
      rw [hid, hobj] at ho'
      cases ho'
      rw [hcomplete] at hincomplete
      cases hincomplete
    refine ⟨fun other hother => ?_, h.flags, h.done, fun other d hw => ?_,
      fun other hother o' ho' hcomplete' => ?_, fun other hwait => ?_, fun e he => ?_⟩
    · obtain ⟨hmem', o', ho', hincomplete⟩ := h.alive other hother
      exact ⟨hmem', o', (hkeep other hother).trans ho', hincomplete⟩
    · obtain ⟨hkept, o', ho', hperformed⟩ := h.notified other d hw
      have huse : other ∈ s.worker.inUse ++ s.queue := by
        have hw : s.worker = .notifying other d := hw
        rw [hw]
        exact List.mem_cons_self
      exact ⟨hkept, o', (hkeep other huse).trans ho', hperformed⟩
    · by_cases hid : other.id = obj.id
      · have hnone : (s.setMemory obj none).objects other.id = none := by
          rw [hid]
          exact Function.update_self _ _ _
        have hsome : (s.setMemory obj none).objects other.id = some o' := ho'
        rw [hnone] at hsome
        cases hsome
      · have hsame : (s.setMemory obj none).objects other.id = s.objects other.id :=
          Function.update_of_ne hid _ _
        exact h.completed other hother o' (hsame.symm.trans ho') hcomplete'
    · simp only at hwait
      split at hwait
      · cases hwait
      · cases hwait
    · rcases List.mem_append.mp he with hold | hnew
      · exact h.returned e hold
      · rw [List.mem_singleton.mp hnew]
        exact h.completed obj hmem o hobj hcomplete
  | join hmain hw =>
    exact ⟨h.alive, h.flags, h.done, h.notified, h.completed, by simp, h.returned⟩

/-- What holds in every state of a run. -/
structure Valid (init : client.State) (s : ADThreadNetClient client) : Prop where
  books : s.Books init
  control : s.Control
  memory : s.Memory

/-- The start is valid. -/
theorem valid_start (init : client.State) : (start client init).Valid init :=
  ⟨books_start init, control_start init, memory_start init⟩

/-- Every step keeps the client valid. -/
theorem Valid.exec (h : s.Valid init) {a : ClientStep} (hstep : s.exec a = .ok t) :
    t.Valid init := by
  rcases exec_cases hstep with hworker | hmain
  · exact ⟨h.books.workerStep hworker, h.control.workerStep h.books hworker,
      h.memory.workerStep h.books hworker⟩
  · exact ⟨h.books.mainStep hmain, h.control.mainStep hmain, h.memory.mainStep h.books hmain⟩

/-- The worker can take its next step until it has exited. -/
theorem Valid.run_progress (h : s.Valid init) (hw : s.worker ≠ .exited) :
    ∃ t, s.run = .ok t := by
  have halive : ∀ obj, obj ∈ s.worker.inUse → ∃ o, s.memory obj = .ok o := by
    intro obj hobj
    obtain ⟨-, o, ho, -⟩ := h.memory.alive obj (List.mem_append_left _ hobj)
    exact ⟨o, memory_eq_ok.mpr ho⟩
  unfold run
  cases hworker : s.worker with
  | starting => exact ⟨_, rfl⟩
  | reading => exact ⟨_, rfl⟩
  | polled nwork =>
    by_cases hnwork : 0 < nwork
    · simp only [if_pos hnwork]
      exact ⟨_, rfl⟩
    · simp only [if_neg hnwork]
      split
      · exact ⟨_, rfl⟩
      · exact ⟨_, rfl⟩
  | taking =>
    cases hqueue : s.queue with
    | nil => exact absurd hqueue (h.control.taking hworker)
    | cons obj rest => exact ⟨_, rfl⟩
  | asking obj =>
    obtain ⟨o, ho⟩ := halive obj (by rw [hworker]; exact List.mem_cons_self)
    simp only [ho]
    exact ⟨_, rfl⟩
  | performing obj doDelete =>
    obtain ⟨o, ho⟩ := halive obj (by rw [hworker]; exact List.mem_cons_self)
    simp only [ho]
    exact ⟨_, rfl⟩
  | notifying obj doDelete =>
    obtain ⟨o, ho⟩ := halive obj (by rw [hworker]; exact List.mem_cons_self)
    simp only [ho]
    exact ⟨_, rfl⟩
  | deleting obj doDelete =>
    cases doDelete with
    | true =>
      obtain ⟨o, ho⟩ := halive obj (by rw [hworker]; exact List.mem_cons_self)
      simp only [ho, if_true]
      exact ⟨_, rfl⟩
    | false => exact ⟨_, rfl⟩
  | exiting => exact ⟨_, rfl⟩
  | exited => exact absurd hworker hw

/-- The worker is running when the caller can enqueue an action. -/
theorem Valid.running (h : s.Valid init) (hmain : s.main = .ready ∨ s.main = .stopping) :
    s.isRunning = true := by
  rcases h.control.running with hrunning | hstart | hexited
  · exact hrunning
  · have hconstructing := (h.control.starting hstart).1
    rcases hmain with hmain | hmain
    · rw [hmain] at hconstructing
      cases hconstructing
    · rw [hmain] at hconstructing
      cases hconstructing
  · have hstopped := (h.control.shutdown (h.control.leaving (Or.inr hexited))).1
    rcases hmain with hmain | hmain
    · rw [hmain] at hstopped
      cases hstopped
    · rw [hmain] at hstopped
      cases hstopped

/-- The messages for steps that are not possible yet. -/
def notEnabled : List String :=
  ["The caller is in a call", "The worker is stopped by a call of its own",
    "The worker is starting", "The caller is in no call", "The action is not complete",
    "The worker is running", "The worker was stopped", "The worker has exited"]

/-- A step fails only because it is not possible yet. -/
theorem Valid.error_mem (h : s.Valid init) {a : ClientStep} {e : String}
    (herror : s.exec a = .error e) : e ∈ notEnabled := by
  cases a with
  | call action =>
    simp only [ADThreadNetClient.exec] at herror
    split at herror
    · cases herror
      simp [notEnabled]
    · rename_i hmain
      split at herror
      · cases herror
        simp [notEnabled]
      · rw [enqueueAction_eq, h.running (Or.inl (not_not.mp hmain)), if_neg (by simp)] at herror
        simp only [bind, Except.bind] at herror
        split at herror
        · cases herror
        · cases herror
  | stopWorkerThread =>
    simp only [ADThreadNetClient.exec] at herror
    split at herror
    · cases herror
      simp [notEnabled]
    · split at herror
      · cases herror
      · cases herror
  | main =>
    simp only [ADThreadNetClient.exec, caller] at herror
    split at herror
    · split at herror
      · cases herror
      · cases herror
        simp [notEnabled]
    · cases herror
      simp [notEnabled]
    · rename_i obj hmain
      obtain ⟨-, -, o, ho⟩ := h.memory.waiting obj hmain
      rw [memory_eq_ok.mpr ho] at herror
      simp only [bind, Except.bind] at herror
      split at herror
      · cases herror
      · cases herror
        simp [notEnabled]
    · rename_i hmain
      rw [enqueueAction_eq, h.running (Or.inr hmain), if_neg (by simp)] at herror
      cases herror
    · split at herror
      · cases herror
      · cases herror
        simp [notEnabled]
    · cases herror
      simp [notEnabled]
  | worker =>
    simp only [ADThreadNetClient.exec] at herror
    by_cases hw : s.worker = .exited
    · rw [run, hw] at herror
      cases herror
      simp [notEnabled]
    · obtain ⟨t, ht⟩ := h.run_progress hw
      rw [ht] at herror
      cases herror

/-- In every interleaving of the caller and the worker, the actions are performed in the order in
which they were enqueued, each once; a call returns the result with which its own action was
performed; when the worker has exited, the queue is empty and every action was performed, and so it
is when the caller has stopped the worker; the worker gets stuck nowhere before; and neither fatal
error is reached, nor an access to an empty queue or to an action that was destroyed. -/
theorem actions_performed_once (hrun : Runs (StepOf exec) Any (start client init) s) :
    s.performed <+: (client.performAll init s.enqueued).2 ∧
      (s.enqueued.map ClientObject.id).Nodup ∧
      (∀ e ∈ s.returned, e ∈ s.performed) ∧
      (s.worker = .exited → s.queue = [] ∧
        s.performed = (client.performAll init s.enqueued).2) ∧
      (s.main = .finished → s.worker = .exited) ∧
      (s.worker ≠ .exited → ∃ t, s.run = .ok t) ∧
      ∀ a, s.exec a ≠ .error "Worker was shut down before emptying its queue!" ∧
        s.exec a ≠ .error "Cannot enqueue an action if the worker thread is not running!" ∧
        s.exec a ≠ .error "undefined: front of an empty queue" ∧
        s.exec a ≠ .error "undefined: action used after it was destroyed" := by
  have hs : s.Valid init := hrun.invariant (Valid init) (valid_start init)
    fun _ _ _ hs _ hstep => hs.exec hstep
  have hsubmitted : s.enqueued = s.performed.map Prod.fst ++ (s.worker.inHand ++ s.queue) := by
    rw [← List.append_assoc]
    exact hs.books.balanced.submitted
  have hresults : (client.performAll init s.enqueued).2 = s.performed ++
      (client.performAll s.state (s.worker.inHand ++ s.queue)).2 := by
    rw [hsubmitted, NetClient.performAll_append, hs.books.performed]
  refine ⟨?_, ?_, hs.memory.returned, fun hexited => ?_, hs.control.finished, hs.run_progress,
    fun a => ⟨fun h => ?_, fun h => ?_, fun h => ?_, fun h => ?_⟩⟩
  · rw [hresults]
    exact List.prefix_append _ _
  · rw [hs.books.ids]
    exact List.nodup_range
  · have hqueue := (hs.control.shutdown (hs.control.leaving (Or.inr hexited))).2
    refine ⟨hqueue, ?_⟩
    rw [hresults, hqueue, hexited]
    exact (List.append_nil _).symm
  · have hmem := hs.error_mem h
    simp [notEnabled] at hmem
  · have hmem := hs.error_mem h
    simp [notEnabled] at hmem
  · have hmem := hs.error_mem h
    simp [notEnabled] at hmem
  · have hmem := hs.error_mem h
    simp [notEnabled] at hmem

/-- A client of a server that sends every message back. -/
private def echoClient : NetClient where
  State := Bool
  connectPs _ _ _ _ := true
  usePs state := state
  disconnectPs _ := false
  sendAndReceive state send := (state, send)
  setRecvTimeout state _ := state

/-- An asynchronous send, a blocking one and the stop. -/
private def twoSends : List ClientStep :=
  [.worker, .main, .call (.asyncSend "first"), .worker, .call (.blockingSendReceive "second"),
    .worker, .worker, .worker, .worker, .worker, .worker, .worker, .worker, .worker, .worker,
    .worker, .main, .worker, .stopWorkerThread, .main, .worker, .worker, .worker, .worker, .worker,
    .worker, .main, .worker, .worker, .worker, .worker, .main]

/-- The run of two sends. -/
theorem actions_performed_once_twoSends : ∃ s,
    runAll exec Any (start echoClient false) twoSends = some s ∧
      (s.main = .finished ∧ s.returned.map Prod.snd = [.received "second", .nothing]) ∧
      s.performed <+: (echoClient.performAll false s.enqueued).2 ∧
      (s.enqueued.map ClientObject.id).Nodup ∧
      (∀ e ∈ s.returned, e ∈ s.performed) ∧
      (s.worker = .exited → s.queue = [] ∧
        s.performed = (echoClient.performAll false s.enqueued).2) ∧
      (s.main = .finished → s.worker = .exited) ∧
      (s.worker ≠ .exited → ∃ t, s.run = .ok t) ∧
      ∀ a, s.exec a ≠ .error "Worker was shut down before emptying its queue!" ∧
        s.exec a ≠ .error "Cannot enqueue an action if the worker thread is not running!" ∧
        s.exec a ≠ .error "undefined: front of an empty queue" ∧
        s.exec a ≠ .error "undefined: action used after it was destroyed" := by
  have hrun : (runAll exec Any (start echoClient false) twoSends).map
      (fun s => (s.main, s.returned.map Prod.snd)) =
        some (.finished, [.received "second", .nothing]) := by decide +kernel
  obtain ⟨s, hs, hend⟩ := Option.map_eq_some_iff.mp hrun
  rw [Prod.mk.injEq] at hend
  exact ⟨s, hs, hend, actions_performed_once (runs_of_runAll twoSends hs)⟩

end ADThreadNetClient

end Chimbuko
