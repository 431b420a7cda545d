import Chimbuko.Pserver.PSparamManager

/-!
# Concurrent publication of the global model

With force update enabled every `updateWorkerModel` call rebuilds and publishes the global model,
and the updater thread does so periodically. A call is several steps: merge the update into the
worker's model, read the worker models one after another into a new model, swap it in under the
lock, and return what is published. Nothing compares the new model with the one it replaces.

Every model carries the list of updates merged into it, and the server a log of what each worker
received. This is a record of the run that no step looks at; that a model holds exactly what its
record says is proved of every algorithm whose updates add up.

In which order the steps were taken is told by a clock that looks at the steps alone.
-/

namespace Chimbuko

namespace ForceUpdate

/-- The updates of a worker are numbered in the order in which it receives them. -/
structure UpdateId where
  worker : ℕ
  number : ℕ
deriving DecidableEq

/-- A model together with the updates merged into it. -/
structure Traced (P : Type) where
  params : P
  contents : List UpdateId

/-- The threads that publish the global model. -/
inductive Thread
  | worker (id : ℕ)
  | updater
deriving DecidableEq

/-- Where a thread stands: outside a call, having read some worker models into a new global
model, or about to return what is published. -/
inductive Phase (P : Type)
  | idle
  | building (own : Option UpdateId) (next : ℕ) (newGlobParams : Traced P)
  | published (own : UpdateId)

/-- The manager's shared state and the threads, and the record of the run: the updates that each
worker has received, and the models published and returned so far. -/
structure Server (P Buffer : Type) where
  workerParams : List (Traced P)
  globalParams : Traced P
  phase : Thread → Phase P
  received : ℕ → List Buffer
  history : List (Traced P)
  replies : List (UpdateId × Traced P)

/-- A step of one thread. -/
inductive Action (Buffer : Type)
  | merge (workerId : ℕ) (param : Buffer)
  | tick
  | read (thread : Thread)
  | swap (thread : Thread)
  | reply (workerId : ℕ)

section Steps

variable {P Buffer Json : Type} (I : ParamInterface P Buffer Json)

/-- The new model that a rebuild starts from. -/
def fresh : Traced P := ⟨I.new, []⟩

/-- A server for a number of workers before the first call. -/
def init (nworker : ℕ) : Server P Buffer :=
  { workerParams := List.replicate nworker (fresh I)
    globalParams := fresh I
    phase := fun _ => .idle
    received := fun _ => []
    history := [fresh I]
    replies := [] }

/-- Move one thread to another phase. -/
def Server.setPhase (s : Server P Buffer) (thread : Thread) (phase : Phase P) : Server P Buffer :=
  { s with phase := Function.update s.phase thread phase }

/-- Merge an update into the worker's model; the rebuild of the global model comes next. -/
def merge (s : Server P Buffer) (workerId : ℕ) (param : Buffer) : Option (Server P Buffer) :=
  match s.phase (.worker workerId), s.workerParams[workerId]? with
  | .idle, some worker =>
    match I.updateSerialized worker.params param with
    | .ok params =>
      let own : UpdateId := ⟨workerId, worker.contents.length⟩
      some (Server.setPhase { s with
        workerParams := s.workerParams.set workerId ⟨params, worker.contents ++ [own]⟩
        received := Function.update s.received workerId (s.received workerId ++ [param]) }
        (.worker workerId) (.building (some own) 0 (fresh I)))
    | .error _ => none
  | _, _ => none

/-- The updater thread starts a rebuild. -/
def tick (s : Server P Buffer) : Option (Server P Buffer) :=
  match s.phase .updater with
  | .idle => some (s.setPhase .updater (.building none 0 (fresh I)))
  | _ => none

/-- A rebuild merges the next worker model into its new model. -/
def read (s : Server P Buffer) (thread : Thread) : Option (Server P Buffer) :=
  match s.phase thread with
  | .building own next newGlobParams =>
    match s.workerParams[next]? with
    | some worker =>
      match I.update newGlobParams.params worker.params with
      | .ok params =>
        some (s.setPhase thread
          (.building own (next + 1) ⟨params, newGlobParams.contents ++ worker.contents⟩))
      | .error _ => none
    | none => none
  | _ => none

/-- A rebuild that has read every worker model publishes its new model. -/
def swap (s : Server P Buffer) (thread : Thread) : Option (Server P Buffer) :=
  match s.phase thread with
  | .building own next newGlobParams =>
    if next = s.workerParams.length then
      some (Server.setPhase { s with
        globalParams := newGlobParams
        history := newGlobParams :: s.history } thread
        (match own with
          | some own => .published own
          | none => .idle))
    else none
  | _ => none

/-- A worker call returns the published model. -/
def reply (s : Server P Buffer) (workerId : ℕ) : Option (Server P Buffer) :=
  match s.phase (.worker workerId) with
  | .published own =>
    some (Server.setPhase { s with replies := (own, s.globalParams) :: s.replies }
      (.worker workerId) .idle)
  | _ => none

/-- One step; `none` where the thread is elsewhere or merging throws. -/
def step (s : Server P Buffer) : Action Buffer → Option (Server P Buffer)
  | .merge workerId param => merge I s workerId param
  | .tick => tick I s
  | .read thread => read I s thread
  | .swap thread => swap s thread
  | .reply workerId => reply s workerId

/-- Run a sequence of steps. -/
def exec (s : Server P Buffer) (actions : List (Action Buffer)) : Option (Server P Buffer) :=
  actions.foldlM (step I) s

/-- The first action is a step, and the others follow. -/
theorem exec_cons {s t : Server P Buffer} {a : Action Buffer} (h : step I s a = some t)
    (rest : List (Action Buffer)) : exec I s (a :: rest) = exec I t rest := by
  rw [exec, List.foldlM_cons, h]
  rfl

/-- The first actions are done, and the others follow. -/
theorem exec_append {s t : Server P Buffer} {before : List (Action Buffer)}
    (h : exec I s before = some t) (rest : List (Action Buffer)) :
    exec I s (before ++ rest) = exec I t rest := by
  rw [exec, List.foldlM_append]
  change (exec I s before >>= fun u => exec I u rest) = _
  rw [h]
  rfl

/-- The step relation. -/
def Step (s : Server P Buffer) (a : Action Buffer) (t : Server P Buffer) : Prop :=
  step I s a = some t

end Steps

/-- A model contains every update that another one contains. -/
def Contains {P : Type} (newer older : Traced P) : Prop := older.contents ⊆ newer.contents

instance {P : Type} (newer older : Traced P) : Decidable (Contains newer older) :=
  inferInstanceAs (Decidable (∀ u ∈ older.contents, u ∈ newer.contents))

/-- Each published model contains every model published before it, and each call returned a
model with the call's own update. -/
def Monotone {P Buffer : Type} (s : Server P Buffer) : Prop :=
  s.history.Pairwise Contains ∧ ∀ entry ∈ s.replies, entry.1 ∈ entry.2.contents

instance {P Buffer : Type} (s : Server P Buffer) : Decidable (Monotone s) :=
  inferInstanceAs (Decidable (_ ∧ _))

section Record

variable {P Buffer Json : Type} {I : ParamInterface P Buffer Json} {M : Type} [AddMonoid M]
  (L : I.Holding M)

/-- What an update added, given the updates that the workers received. -/
def carried (received : ℕ → List Buffer) (u : UpdateId) : M :=
  ((received u.worker)[u.number]?.map L.payload).getD 0

/-- The record of a model is right: its updates were received, and merging each of them once makes
what the model holds. -/
structure Accounts (received : ℕ → List Buffer) (m : Traced P) : Prop where
  nodup : m.contents.Nodup
  received_of_mem : ∀ u ∈ m.contents, u.number < (received u.worker).length
  holds : L.Holds m.params (m.contents.map (carried L received)).sum

end Record

/-- When the steps of a run were taken: the times at which updates were merged into each worker's
model, at which a rebuild has read the worker models, from the first on, and at which the rebuild
that is published had read them. -/
structure Clock where
  now : ℕ
  merged : ℕ → List ℕ
  reads : Thread → List ℕ
  published : List ℕ

namespace Clock

/-- Nothing has been read or merged. -/
def start : Clock := ⟨0, fun _ => [], fun _ => [], []⟩

/-- Take note of a step. -/
def note {Buffer : Type} (c : Clock) : Action Buffer → Clock
  | .merge workerId _ =>
    { c with
      now := c.now + 1
      merged := Function.update c.merged workerId (c.now :: c.merged workerId)
      reads := Function.update c.reads (.worker workerId) [] }
  | .tick => { c with now := c.now + 1, reads := Function.update c.reads .updater [] }
  | .read thread =>
    { c with
      now := c.now + 1
      reads := Function.update c.reads thread (c.reads thread ++ [c.now]) }
  | .swap thread => { c with now := c.now + 1, published := c.reads thread }
  | .reply _ => { c with now := c.now + 1 }

/-- The condition on a swap: since its rebuild read a worker's model, no update was merged into it
that the rebuild that is published has read. -/
def Allows {Buffer : Type} (c : Clock) : Action Buffer → Prop
  | .swap thread => ∀ workerId < c.published.length, ∀ time ∈ c.merged workerId,
      ¬((c.reads thread).getD workerId 0 < time ∧ time < c.published.getD workerId 0)
  | _ => True

instance {Buffer : Type} (c : Clock) : (a : Action Buffer) → Decidable (c.Allows a)
  | .merge _ _ => .isTrue trivial
  | .tick => .isTrue trivial
  | .read _ => .isTrue trivial
  | .swap _ => inferInstanceAs (Decidable (∀ _ < _, _))
  | .reply _ => .isTrue trivial

end Clock

/-- Every swap of a sequence of steps meets the condition. -/
def InOrder {Buffer : Type} (c : Clock) : List (Action Buffer) → Prop
  | [] => True
  | a :: rest => c.Allows a ∧ InOrder (c.note a) rest

instance {Buffer : Type} : (c : Clock) → (actions : List (Action Buffer)) →
    Decidable (InOrder c actions)
  | _, [] => .isTrue trivial
  | c, a :: rest =>
    have := instDecidableInOrder (c.note a) rest
    inferInstanceAs (Decidable (_ ∧ _))

/-- The first updates of a worker. -/
def updatesOf (workerId count : ℕ) : List UpdateId :=
  (List.range count).map fun number => ⟨workerId, number⟩

/-- The updates in the first workers' models when each held the given number. -/
def snapshot (nworker : ℕ) (counts : ℕ → ℕ) : List UpdateId :=
  (List.range nworker).flatMap fun workerId => updatesOf workerId (counts workerId)

/-- The updates of a worker are those that it has sent. -/
theorem mem_updatesOf {workerId count : ℕ} {u : UpdateId} :
    u ∈ updatesOf workerId count ↔ u.worker = workerId ∧ u.number < count := by
  constructor
  · intro hu
    obtain ⟨number, hnumber, rfl⟩ := List.mem_map.mp hu
    exact ⟨rfl, List.mem_range.mp hnumber⟩
  · rintro ⟨rfl, hnumber⟩
    exact List.mem_map.mpr ⟨u.number, List.mem_range.mpr hnumber, rfl⟩

/-- There are as many updates as were sent. -/
theorem updatesOf_length (workerId count : ℕ) : (updatesOf workerId count).length = count := by
  rw [updatesOf, List.length_map, List.length_range]

/-- The last update comes last. -/
theorem updatesOf_succ (workerId count : ℕ) :
    updatesOf workerId (count + 1) = updatesOf workerId count ++ [⟨workerId, count⟩] := by
  rw [updatesOf, List.range_succ, List.map_append]
  rfl

/-- The updates of a worker are distinct. -/
theorem updatesOf_nodup (workerId count : ℕ) : (updatesOf workerId count).Nodup :=
  List.nodup_range.map fun _ _ heq => (UpdateId.mk.inj heq).2

/-- A snapshot has the updates that each worker has sent. -/
theorem mem_snapshot {nworker : ℕ} {counts : ℕ → ℕ} {u : UpdateId} :
    u ∈ snapshot nworker counts ↔ u.worker < nworker ∧ u.number < counts u.worker := by
  constructor
  · intro hu
    obtain ⟨workerId, hworker, hmem⟩ := List.mem_flatMap.mp hu
    obtain ⟨rfl, hnumber⟩ := mem_updatesOf.mp hmem
    exact ⟨List.mem_range.mp hworker, hnumber⟩
  · rintro ⟨hworker, hnumber⟩
    exact List.mem_flatMap.mpr
      ⟨u.worker, List.mem_range.mpr hworker, mem_updatesOf.mpr ⟨rfl, hnumber⟩⟩

/-- A snapshot of one more worker has its updates too. -/
theorem snapshot_succ (nworker : ℕ) (counts : ℕ → ℕ) :
    snapshot (nworker + 1) counts =
      snapshot nworker counts ++ updatesOf nworker (counts nworker) := by
  rw [snapshot, List.range_succ, List.flatMap_append]
  simp [snapshot]

/-- The updates of a snapshot are distinct. -/
theorem snapshot_nodup (nworker : ℕ) (counts : ℕ → ℕ) : (snapshot nworker counts).Nodup := by
  induction nworker with
  | zero => exact List.nodup_nil
  | succ n ih =>
    rw [snapshot_succ]
    apply ih.append (updatesOf_nodup n (counts n))
    intro u hu hu'
    exact absurd (mem_updatesOf.mp hu').1 (mem_snapshot.mp hu).1.ne

/-- A snapshot depends only on the counts of the workers read. -/
theorem snapshot_congr {nworker : ℕ} {counts counts' : ℕ → ℕ}
    (h : ∀ workerId < nworker, counts workerId = counts' workerId) :
    snapshot nworker counts = snapshot nworker counts' := by
  induction nworker with
  | zero => rfl
  | succ n ih =>
    rw [snapshot_succ, snapshot_succ, h n (Nat.lt_succ_self n),
      ih fun w hw => h w (Nat.lt_succ_of_lt hw)]

/-- A snapshot contains another one if it has as many updates of every worker. -/
theorem snapshot_subset_iff {nworker nworker' : ℕ} {older newer : ℕ → ℕ}
    (hle : nworker ≤ nworker') :
    snapshot nworker older ⊆ snapshot nworker' newer ↔
      ∀ workerId < nworker, older workerId ≤ newer workerId := by
  constructor
  · intro hsub workerId hworker
    by_contra hlt
    have hmem : (⟨workerId, newer workerId⟩ : UpdateId) ∈ snapshot nworker' newer :=
      hsub (mem_snapshot.mpr ⟨hworker, Nat.lt_of_not_le hlt⟩)
    exact lt_irrefl _ (mem_snapshot.mp hmem).2
  · intro hall u hu
    obtain ⟨hworker, hnumber⟩ := mem_snapshot.mp hu
    exact mem_snapshot.mpr ⟨hworker.trans_le hle, hnumber.trans_le (hall u.worker hworker)⟩

end ForceUpdate

end Chimbuko
