import Chimbuko.Pserver.ForceUpdate
import Mathlib.Data.List.GetD

/-!
# Which interleavings publish monotonically

Every model in flight is a snapshot: for each worker read so far, the first few of that worker's
updates, as many as had been merged when its model was read. Hence a swap loses an update exactly
when one was merged into some worker's model after the swapping rebuild had read it and before the
rebuild that is published did. The runs in which no swap comes so late are the runs in which
published models only grow and every call returns a model with its own update.
-/

namespace Chimbuko

namespace ForceUpdate

variable {P Buffer Json : Type} (I : ParamInterface P Buffer Json)

/-- The thread that is moved. -/
@[simp] theorem setPhase_same (s : Server P Buffer) (thread : Thread) (phase : Phase P) :
    (s.setPhase thread phase).phase thread = phase := Function.update_self _ _ _

/-- The other threads stand where they stood. -/
theorem setPhase_of_ne (s : Server P Buffer) {thread other : Thread} (phase : Phase P)
    (h : other ≠ thread) : (s.setPhase thread phase).phase other = s.phase other :=
  Function.update_of_ne h _ _

/-- A thread of a state after `setPhase` is the one moved, or another one that stands where it
stood. -/
theorem setPhase_phase {s : Server P Buffer} {thread other : Thread} {phase phase' : Phase P}
    (h : (s.setPhase thread phase).phase other = phase') :
    (other = thread ∧ phase = phase') ∨ (other ≠ thread ∧ s.phase other = phase') := by
  by_cases hother : other = thread
  · subst hother
    exact Or.inl ⟨rfl, (setPhase_same s other phase).symm.trans h⟩
  · rw [setPhase_of_ne s phase hother] at h
    exact Or.inr ⟨hother, h⟩

section Inversion

variable {I} {s t : Server P Buffer}

/-- What a call's merge does. -/
theorem merge_some {workerId : ℕ} {param : Buffer} (h : merge I s workerId param = some t) :
    ∃ worker params, s.phase (.worker workerId) = .idle ∧
      s.workerParams[workerId]? = some worker ∧
      I.updateSerialized worker.params param = .ok params ∧
      t = Server.setPhase { s with
        workerParams := s.workerParams.set workerId
          ⟨params, worker.contents ++ [⟨workerId, worker.contents.length⟩]⟩
        received := Function.update s.received workerId (s.received workerId ++ [param]) }
        (.worker workerId)
        (.building (some ⟨workerId, worker.contents.length⟩) 0 (fresh I)) := by
  unfold merge at h
  split at h
  · rename_i worker hphase hworker
    split at h
    · rename_i params hparams
      exact ⟨worker, params, hphase, hworker, hparams, (Option.some.inj h).symm⟩
    · cases h
  · cases h

/-- What the updater's start of a rebuild does. -/
theorem tick_some (h : tick I s = some t) :
    s.phase .updater = .idle ∧ t = s.setPhase .updater (.building none 0 (fresh I)) := by
  unfold tick at h
  split at h
  · rename_i hphase
    exact ⟨hphase, (Option.some.inj h).symm⟩
  · cases h

/-- What reading a worker model does. -/
theorem read_some {thread : Thread} (h : read I s thread = some t) :
    ∃ own next newGlobParams worker params,
      s.phase thread = .building own next newGlobParams ∧
      s.workerParams[next]? = some worker ∧
      I.update newGlobParams.params worker.params = .ok params ∧
      t = s.setPhase thread
        (.building own (next + 1) ⟨params, newGlobParams.contents ++ worker.contents⟩) := by
  unfold read at h
  split at h
  · rename_i own next newGlobParams hphase
    split at h
    · rename_i worker hworker
      split at h
      · rename_i params hparams
        exact ⟨own, next, newGlobParams, worker, params, hphase, hworker, hparams,
          (Option.some.inj h).symm⟩
      · cases h
    · cases h
  · cases h

/-- What a swap does. -/
theorem swap_some {thread : Thread} (h : swap s thread = some t) :
    ∃ own newGlobParams,
      s.phase thread = .building own s.workerParams.length newGlobParams ∧
      t = Server.setPhase { s with
        globalParams := newGlobParams
        history := newGlobParams :: s.history } thread
        (match own with
          | some own => .published own
          | none => .idle) := by
  unfold swap at h
  split at h
  · rename_i own next newGlobParams hphase
    split at h
    · rename_i hnext
      exact ⟨own, newGlobParams, hnext ▸ hphase, (Option.some.inj h).symm⟩
    · cases h
  · cases h

/-- What returning from a call does. -/
theorem reply_some {workerId : ℕ} (h : reply s workerId = some t) :
    ∃ own, s.phase (.worker workerId) = .published own ∧
      t = Server.setPhase { s with replies := (own, s.globalParams) :: s.replies }
        (.worker workerId) .idle := by
  unfold reply at h
  split at h
  · rename_i own hphase
    exact ⟨own, hphase, (Option.some.inj h).symm⟩
  · cases h

end Inversion

/-- How many updates a worker has received. -/
def Server.sent (s : Server P Buffer) (workerId : ℕ) : ℕ := (s.received workerId).length

/-- What a rebuild has read: a snapshot of the first workers, with the call's own update once
its worker has been read. -/
def Server.HasRead (s : Server P Buffer) (own : Option UpdateId) (next : ℕ)
    (newGlobParams : Traced P) : Prop :=
  ∃ counts, newGlobParams.contents = snapshot next counts ∧
    ∀ u, own = some u → u.worker < s.workerParams.length ∧ u.number < s.sent u.worker ∧
      (u.worker < next → u.number < counts u.worker)

/-- The records of contents are what the workers have received and the rebuilds have read. -/
structure WellTraced (s : Server P Buffer) : Prop where
  workers : ∀ workerId worker, s.workerParams[workerId]? = some worker →
    worker.contents = updatesOf workerId (s.sent workerId)
  building : ∀ thread own next newGlobParams,
    s.phase thread = .building own next newGlobParams → s.HasRead own next newGlobParams
  newest : ∃ older, s.history = s.globalParams :: older

/-- No worker has received anything at first. -/
theorem wellTraced_init (nworker : ℕ) : WellTraced (init I nworker) where
  workers workerId worker hworker := by
    have hfresh : worker = fresh I :=
      List.eq_of_mem_replicate (List.mem_of_getElem? hworker)
    rw [hfresh]
    rfl
  building _ _ _ _ h := by cases h
  newest := ⟨[], rfl⟩

/-- A step that keeps the worker models keeps what rebuilds have read. -/
private theorem HasRead.congr {s t : Server P Buffer} (h : t.workerParams = s.workerParams)
    (hreceived : t.received = s.received) {own : Option UpdateId} {next : ℕ}
    {newGlobParams : Traced P} (hread : s.HasRead own next newGlobParams) :
    t.HasRead own next newGlobParams := by
  simpa only [Server.HasRead, Server.sent, h, hreceived] using hread

/-- The model of the worker that merges has received one more update. -/
private theorem sent_merge (received : ℕ → List Buffer) (workerId : ℕ) (param : Buffer) (w : ℕ) :
    (Function.update received workerId (received workerId ++ [param]) w).length =
      if w = workerId then (received workerId).length + 1 else (received w).length := by
  by_cases hw : w = workerId
  · rw [if_pos hw, hw, Function.update_self, List.length_append, List.length_singleton]
  · rw [if_neg hw, Function.update_of_ne hw]

/-- A merger keeps the records of contents traced. -/
private theorem wellTraced_merge {s t : Server P Buffer} (hs : WellTraced s) {workerId : ℕ}
    {param : Buffer} (h : merge I s workerId param = some t) : WellTraced t := by
  obtain ⟨worker, params, -, hworker, -, rfl⟩ := merge_some h
  have hlt : workerId < s.workerParams.length := (List.getElem?_eq_some_iff.mp hworker).1
  have hcontents := hs.workers workerId worker hworker
  have hlength : worker.contents.length = s.sent workerId := by rw [hcontents, updatesOf_length]
  have hsentNew := sent_merge s.received workerId param
  have hgrow : ∀ w, s.sent w ≤ if w = workerId then s.sent workerId + 1 else s.sent w := by
    intro w
    split
    · rename_i hw
      exact hw ▸ Nat.le_succ _
    · exact le_rfl
  refine ⟨?_, ?_, hs.newest⟩
  · intro w m hm
    change (s.workerParams.set workerId _)[w]? = some m at hm
    unfold Server.sent
    simp only [Server.setPhase]
    rw [hsentNew]
    by_cases hw : w = workerId
    · subst hw
      rw [List.getElem?_set_self hlt] at hm
      rw [if_pos rfl, ← Option.some.inj hm, updatesOf_succ]
      change worker.contents ++ [⟨w, worker.contents.length⟩] = _
      rw [hlength, hcontents]
      rfl
    · rw [List.getElem?_set_ne (Ne.symm hw)] at hm
      rw [if_neg hw]
      exact hs.workers w m hm
  · intro thread own next newGlobParams hphase
    rcases setPhase_phase hphase with ⟨-, hmoved⟩ | ⟨-, hstood⟩
    · cases hmoved
      refine ⟨fun _ => 0, rfl, ?_⟩
      rintro u ⟨⟩
      refine ⟨?_, ?_, fun h => absurd h (Nat.not_lt_zero _)⟩
      · change workerId < (s.workerParams.set workerId _).length
        rwa [List.length_set]
      · unfold Server.sent
        simp only [Server.setPhase]
        rw [hsentNew, if_pos rfl, hlength]
        exact Nat.lt_succ_self _
    · obtain ⟨counts, hcounts, hown⟩ := hs.building thread own next newGlobParams hstood
      refine ⟨counts, hcounts, fun u hu => ?_⟩
      obtain ⟨hworkerLt, hnumber, hread⟩ := hown u hu
      refine ⟨?_, ?_, hread⟩
      · change u.worker < (s.workerParams.set workerId _).length
        rwa [List.length_set]
      · unfold Server.sent
        simp only [Server.setPhase]
        rw [hsentNew]
        exact lt_of_lt_of_le hnumber (hgrow u.worker)

/-- Waiting keeps the records of contents traced. -/
private theorem wellTraced_tick {s t : Server P Buffer} (hs : WellTraced s)
    (h : tick I s = some t) : WellTraced t := by
  obtain ⟨-, rfl⟩ := tick_some h
  refine ⟨hs.workers, ?_, hs.newest⟩
  intro thread own next newGlobParams hphase
  rcases setPhase_phase hphase with ⟨-, hmoved⟩ | ⟨-, hstood⟩
  · cases hmoved
    exact ⟨fun _ => 0, rfl, fun u hu => by cases hu⟩
  · exact HasRead.congr rfl rfl (hs.building thread own next newGlobParams hstood)

/-- Reading the models keeps the records of contents traced. -/
private theorem wellTraced_read {s t : Server P Buffer} (hs : WellTraced s) {thread : Thread}
    (h : read I s thread = some t) : WellTraced t := by
  obtain ⟨own, next, newGlobParams, worker, params, hphase, hworker, -, rfl⟩ := read_some h
  refine ⟨hs.workers, ?_, hs.newest⟩
  intro thread' own' next' newGlobParams' hphase'
  rcases setPhase_phase hphase' with ⟨-, hmoved⟩ | ⟨-, hstood⟩
  · cases hmoved
    obtain ⟨counts, hcounts, hown⟩ := hs.building thread own next newGlobParams hphase
    -- the worker just read contributes all it has received
    refine ⟨fun w => if w = next then s.sent next else counts w, ?_, fun u hu => ?_⟩
    · change newGlobParams.contents ++ worker.contents = _
      rw [snapshot_succ, if_pos rfl, hcounts, hs.workers next worker hworker]
      congr 1
      exact snapshot_congr fun w hw => (if_neg hw.ne).symm
    · obtain ⟨hlt, hnumber, hread⟩ := hown u hu
      refine ⟨hlt, hnumber, fun hnext => ?_⟩
      change u.number < if u.worker = next then s.sent next else counts u.worker
      by_cases hu : u.worker = next
      · rw [if_pos hu, ← hu]
        exact hnumber
      · rw [if_neg hu]
        exact hread (lt_of_le_of_ne (Nat.le_of_lt_succ hnext) hu)
  · exact HasRead.congr rfl rfl (hs.building thread' own' next' newGlobParams' hstood)

/-- Publishing a model keeps the records of contents traced. -/
private theorem wellTraced_swap {s t : Server P Buffer} (hs : WellTraced s) {thread : Thread}
    (h : swap s thread = some t) : WellTraced t := by
  obtain ⟨own, newGlobParams, hphase, rfl⟩ := swap_some h
  refine ⟨hs.workers, ?_, ⟨s.history, rfl⟩⟩
  intro thread' own' next' newGlobParams' hphase'
  rcases setPhase_phase hphase' with ⟨-, hmoved⟩ | ⟨-, hstood⟩
  · cases own <;> cases hmoved
  · exact HasRead.congr rfl rfl (hs.building thread' own' next' newGlobParams' hstood)

/-- A reply keeps the records of contents traced. -/
private theorem wellTraced_reply {s t : Server P Buffer} (hs : WellTraced s) {workerId : ℕ}
    (h : reply s workerId = some t) : WellTraced t := by
  obtain ⟨own, -, rfl⟩ := reply_some h
  refine ⟨hs.workers, ?_, hs.newest⟩
  intro thread' own' next' newGlobParams' hphase'
  rcases setPhase_phase hphase' with ⟨-, hmoved⟩ | ⟨-, hstood⟩
  · cases hmoved
  · exact HasRead.congr rfl rfl (hs.building thread' own' next' newGlobParams' hstood)

/-- Every step keeps the records right. -/
theorem wellTraced_step {s t : Server P Buffer} {a : Action Buffer} (hs : WellTraced s)
    (h : Step I s a t) : WellTraced t := by
  cases a with
  | merge workerId param => exact wellTraced_merge I hs h
  | tick => exact wellTraced_tick I hs h
  | read thread => exact wellTraced_read I hs h
  | swap thread => exact wellTraced_swap hs h
  | reply workerId => exact wellTraced_reply hs h

namespace Clock

/-- How many updates of a worker had been merged at some time. -/
def before (c : Clock) (workerId time : ℕ) : ℕ := (c.merged workerId).countP (· < time)

/-- What a rebuild that reads the worker models at some times reads. -/
def contents (c : Clock) (times : List ℕ) : List UpdateId :=
  snapshot times.length fun workerId => c.before workerId (times.getD workerId 0)

/-- A time in the past at which nothing was merged. -/
def IsRead (c : Clock) (time : ℕ) : Prop :=
  time < c.now ∧ ∀ workerId, time ∉ c.merged workerId

/-- All times are past, and no two steps were taken at the same time. -/
structure Coherent (c : Clock) : Prop where
  merged : ∀ workerId, ∀ time ∈ c.merged workerId, time < c.now
  reads : ∀ thread, ∀ time ∈ c.reads thread, c.IsRead time
  published : ∀ time ∈ c.published, c.IsRead time

/-- The clock of the start is coherent. -/
theorem coherent_start : start.Coherent :=
  ⟨fun _ _ h => absurd h List.not_mem_nil, fun _ _ h => absurd h List.not_mem_nil,
    fun _ h => absurd h List.not_mem_nil⟩

/-- The updates merged after a step: those merged before, and now the step's own. -/
theorem merged_note {c : Clock} {a : Action Buffer} {workerId time : ℕ}
    (h : time ∈ (c.note a).merged workerId) : time ∈ c.merged workerId ∨ time = c.now := by
  cases a with
  | merge other param =>
    change time ∈ Function.update c.merged other _ workerId at h
    by_cases hworker : workerId = other
    · rw [hworker, Function.update_self] at h
      rcases List.mem_cons.mp h with rfl | h
      · exact Or.inr rfl
      · exact Or.inl (hworker ▸ h)
    · rw [Function.update_of_ne hworker] at h
      exact Or.inl h
  | tick => exact Or.inl h
  | read thread => exact Or.inl h
  | swap thread => exact Or.inl h
  | reply other => exact Or.inl h

/-- Every action takes one unit of time. -/
theorem now_note (c : Clock) (a : Action Buffer) : (c.note a).now = c.now + 1 := by
  cases a <;> rfl

/-- A past time at which nothing was merged stays one. -/
theorem IsRead.note {c : Clock} {time : ℕ} (h : c.IsRead time) (a : Action Buffer) :
    (c.note a).IsRead time := by
  refine ⟨?_, fun workerId hmem => ?_⟩
  · rw [now_note]
    exact h.1.trans (Nat.lt_succ_self _)
  · rcases merged_note hmem with hmem | rfl
    · exact h.2 workerId hmem
    · exact lt_irrefl _ h.1

/-- Reading happens when nothing is merged. -/
private theorem isRead_now {c : Clock} (hc : c.Coherent) (thread : Thread) :
    (c.note (.read thread : Action Buffer)).IsRead c.now :=
  ⟨Nat.lt_succ_self _, fun workerId hmem => lt_irrefl _ (hc.merged workerId _ hmem)⟩

/-- Taking note of a step keeps the times apart. -/
theorem Coherent.note {c : Clock} (hc : c.Coherent) (a : Action Buffer) :
    (c.note a).Coherent := by
  refine ⟨fun workerId time hmem => ?_, fun thread time hmem => ?_, fun time hmem => ?_⟩
  · rw [now_note]
    rcases merged_note hmem with hmem | rfl
    · exact (hc.merged workerId time hmem).trans (Nat.lt_succ_self _)
    · exact Nat.lt_succ_self _
  · cases a with
    | merge workerId param =>
      change time ∈ Function.update c.reads _ _ thread at hmem
      by_cases hthread : thread = .worker workerId
      · rw [hthread, Function.update_self] at hmem
        exact absurd hmem List.not_mem_nil
      · rw [Function.update_of_ne hthread] at hmem
        exact (hc.reads thread time hmem).note _
    | tick =>
      change time ∈ Function.update c.reads _ _ thread at hmem
      by_cases hthread : thread = .updater
      · rw [hthread, Function.update_self] at hmem
        exact absurd hmem List.not_mem_nil
      · rw [Function.update_of_ne hthread] at hmem
        exact (hc.reads thread time hmem).note _
    | read other =>
      change time ∈ Function.update c.reads _ _ thread at hmem
      by_cases hthread : thread = other
      · rw [hthread, Function.update_self] at hmem
        rcases List.mem_append.mp hmem with hmem | hmem
        · exact (hc.reads other time hmem).note _
        · rw [List.mem_singleton.mp hmem]
          exact isRead_now hc other
      · rw [Function.update_of_ne hthread] at hmem
        exact (hc.reads thread time hmem).note _
    | swap other => exact (hc.reads thread time hmem).note _
    | reply workerId => exact (hc.reads thread time hmem).note _
  · cases a with
    | merge workerId param => exact (hc.published time hmem).note _
    | tick => exact (hc.published time hmem).note _
    | read thread => exact (hc.published time hmem).note _
    | swap thread => exact (hc.reads thread time hmem).note _
    | reply workerId => exact (hc.published time hmem).note _

/-- What had been merged at a past time does not change. -/
theorem before_note (c : Clock) (a : Action Buffer) (workerId : ℕ) {time : ℕ}
    (htime : time ≤ c.now) : (c.note a).before workerId time = c.before workerId time := by
  cases a with
  | merge other param =>
    unfold before
    change List.countP _ (Function.update c.merged other _ workerId) = _
    by_cases hworker : workerId = other
    · rw [hworker, Function.update_self, List.countP_cons_of_neg]
      rw [decide_eq_true_eq]
      omega
    · rw [Function.update_of_ne hworker]
  | tick => rfl
  | read thread => rfl
  | swap thread => rfl
  | reply other => rfl

/-- What was read at past times does not change. -/
theorem contents_note {c : Clock} {times : List ℕ} (htimes : ∀ time ∈ times, c.IsRead time)
    (a : Action Buffer) : (c.note a).contents times = c.contents times := by
  unfold contents
  apply snapshot_congr
  intro workerId hworker
  apply before_note
  rw [List.getD_eq_getElem _ _ hworker]
  exact (htimes _ (List.getElem_mem hworker)).1.le

/-- All updates of a worker have been merged by now. -/
theorem before_now {c : Clock} (hc : c.Coherent) (workerId : ℕ) :
    c.before workerId c.now = (c.merged workerId).length := by
  unfold before
  rw [List.countP_eq_length]
  exact fun time hmem => decide_eq_true (hc.merged workerId time hmem)

/-- Reading one more worker model reads all that has been merged into it. -/
theorem contents_concat {c : Clock} (hc : c.Coherent) (times : List ℕ) :
    c.contents (times ++ [c.now]) =
      c.contents times ++ updatesOf times.length (c.merged times.length).length := by
  unfold contents
  rw [List.length_append, List.length_singleton, snapshot_succ]
  congr 1
  · apply snapshot_congr
    intro workerId hworker
    rw [List.getD_append _ _ _ _ hworker]
  · rw [List.getD_append_right _ _ _ _ le_rfl, Nat.sub_self]
    exact congrArg _ (before_now hc _)

/-- As many updates had been merged at a time as at another one, unless one was merged between. -/
private theorem countP_le_iff (times : List ℕ) {older newer : ℕ} (hnewer : newer ∉ times) :
    times.countP (· < older) ≤ times.countP (· < newer) ↔
      ∀ time ∈ times, ¬(newer < time ∧ time < older) := by
  constructor
  · intro hle time hmem hbetween
    have hlt : times.countP (· < newer) < times.countP (· < older) := by
      have hsplit := List.perm_cons_erase hmem
      rw [hsplit.countP_eq, hsplit.countP_eq, List.countP_cons_of_neg, List.countP_cons_of_pos]
      · apply Nat.lt_succ_of_le
        apply List.countP_mono_left
        intro other _ hother
        rw [decide_eq_true_eq] at hother ⊢
        omega
      · exact decide_eq_true hbetween.2
      · rw [decide_eq_true_eq]
        omega
    omega
  · intro hnone
    apply List.countP_mono_left
    intro time hmem htime
    rw [decide_eq_true_eq] at htime ⊢
    have hne : time ≠ newer := fun heq => hnewer (heq ▸ hmem)
    have := hnone time hmem
    omega

/-- A swap that the condition allows loses nothing of what is published, and the others do. -/
theorem allows_swap_iff {c : Clock} (hc : c.Coherent) {thread : Thread}
    (hle : c.published.length ≤ (c.reads thread).length) :
    c.Allows (.swap thread : Action Buffer) ↔
      c.contents c.published ⊆ c.contents (c.reads thread) := by
  unfold contents
  rw [snapshot_subset_iff hle]
  apply forall₂_congr
  intro workerId hworker
  apply (countP_le_iff (c.merged workerId) _).symm
  have hread := hworker.trans_le hle
  rw [List.getD_eq_getElem _ _ hread]
  exact (hc.reads thread _ (List.getElem_mem hread)).2 workerId

end Clock

/-- The clock shows when the models in flight were read. -/
structure Timed (s : Server P Buffer) (c : Clock) : Prop where
  coherent : c.Coherent
  merged : ∀ workerId, (c.merged workerId).length = s.sent workerId
  building : ∀ thread own next newGlobParams,
    s.phase thread = .building own next newGlobParams →
      (c.reads thread).length = next ∧ newGlobParams.contents = c.contents (c.reads thread)
  global : s.globalParams.contents = c.contents c.published
  published : c.published.length ≤ s.workerParams.length

/-- Nothing has been read at first. -/
theorem timed_init (nworker : ℕ) : Timed (init I nworker) Clock.start :=
  ⟨Clock.coherent_start, fun _ => rfl, (fun _ _ _ _ h => by cases h), rfl, Nat.zero_le _⟩

/-- A thread that a step does not move has read what it had read. -/
private theorem Timed.stood {s : Server P Buffer} {c : Clock} (h : Timed s c) {a : Action Buffer}
    {thread : Thread} (hreads : (c.note a).reads thread = c.reads thread) {own next newGlobParams}
    (hphase : s.phase thread = .building own next newGlobParams) :
    ((c.note a).reads thread).length = next ∧
      newGlobParams.contents = (c.note a).contents ((c.note a).reads thread) := by
  obtain ⟨hlength, hcontents⟩ := h.building thread own next newGlobParams hphase
  rw [hreads, Clock.contents_note (h.coherent.reads thread)]
  exact ⟨hlength, hcontents⟩

/-- The published model stays what it was. -/
private theorem Timed.kept {s : Server P Buffer} {c : Clock} (h : Timed s c) {a : Action Buffer}
    (hpublished : (c.note a).published = c.published) :
    s.globalParams.contents = (c.note a).contents (c.note a).published := by
  rw [hpublished, Clock.contents_note h.coherent.published]
  exact h.global

/-- A merger keeps the clock true to the server. -/
private theorem timed_merge {s t : Server P Buffer} {c : Clock} (hs : Timed s c) {workerId : ℕ}
    {param : Buffer} (h : merge I s workerId param = some t) :
    Timed t (c.note (.merge workerId param)) := by
  obtain ⟨worker, params, -, -, -, rfl⟩ := merge_some h
  refine ⟨hs.coherent.note _, fun w => ?_, fun thread own next newGlobParams hphase => ?_,
    hs.kept rfl, ?_⟩
  · have hmerged := hs.merged w
    unfold Server.sent at hmerged ⊢
    simp only [Clock.note, Server.setPhase]
    rw [sent_merge, ← hmerged]
    by_cases hw : w = workerId
    · rw [hw, Function.update_self, if_pos rfl, List.length_cons, hs.merged workerId]
      rfl
    · rw [Function.update_of_ne hw, if_neg hw]
  · rcases setPhase_phase hphase with ⟨rfl, hmoved⟩ | ⟨hne, hstood⟩
    · cases hmoved
      simp only [Clock.note, Function.update_self]
      exact ⟨rfl, rfl⟩
    · have hreads : (c.note (.merge workerId param)).reads thread = c.reads thread :=
        Function.update_of_ne hne _ _
      exact hs.stood hreads hstood
  · simp only [Clock.note, Server.setPhase, List.length_set]
    exact hs.published

/-- Waiting keeps the clock true to the server. -/
private theorem timed_tick {s t : Server P Buffer} {c : Clock} (hs : Timed s c)
    (h : tick I s = some t) : Timed t (c.note (.tick : Action Buffer)) := by
  obtain ⟨-, rfl⟩ := tick_some h
  refine ⟨hs.coherent.note _, hs.merged, fun thread own next newGlobParams hphase => ?_,
    hs.kept rfl, hs.published⟩
  rcases setPhase_phase hphase with ⟨rfl, hmoved⟩ | ⟨hne, hstood⟩
  · cases hmoved
    simp only [Clock.note, Function.update_self]
    exact ⟨rfl, rfl⟩
  · have hreads : (c.note (.tick : Action Buffer)).reads thread = c.reads thread :=
      Function.update_of_ne hne _ _
    exact hs.stood hreads hstood

/-- Reading the models keeps the clock true to the server. -/
private theorem timed_read {s t : Server P Buffer} {c : Clock} (htraced : WellTraced s)
    (hs : Timed s c) {thread : Thread} (h : read I s thread = some t) :
    Timed t (c.note (.read thread : Action Buffer)) := by
  obtain ⟨own, next, newGlobParams, worker, params, hphase, hworker, -, rfl⟩ := read_some h
  refine ⟨hs.coherent.note _, hs.merged, fun thread' own' next' newGlobParams' hphase' => ?_,
    hs.kept rfl, hs.published⟩
  rcases setPhase_phase hphase' with ⟨rfl, hmoved⟩ | ⟨hne, hstood⟩
  · cases hmoved
    obtain ⟨hlength, hcontents⟩ := hs.building thread' own next newGlobParams hphase
    -- the clock before the step knows all that has been merged into the worker's model
    have hnew : (c.note (.read thread' : Action Buffer)).contents (c.reads thread' ++ [c.now]) =
        c.contents (c.reads thread' ++ [c.now]) := rfl
    have hreads : (c.note (.read thread' : Action Buffer)).reads thread' =
        c.reads thread' ++ [c.now] := Function.update_self _ _ _
    rw [hreads, hnew, Clock.contents_concat hs.coherent, hlength, ← hcontents, hs.merged,
      ← htraced.workers next worker hworker, List.length_append, hlength]
    exact ⟨rfl, rfl⟩
  · have hreads : (c.note (.read thread : Action Buffer)).reads thread' = c.reads thread' :=
      Function.update_of_ne hne _ _
    exact hs.stood hreads hstood

/-- Publishing a model keeps the clock true to the server. -/
private theorem timed_swap {s t : Server P Buffer} {c : Clock} (hs : Timed s c) {thread : Thread}
    (h : swap s thread = some t) : Timed t (c.note (.swap thread : Action Buffer)) := by
  obtain ⟨own, newGlobParams, hphase, rfl⟩ := swap_some h
  obtain ⟨hlength, hcontents⟩ := hs.building thread own _ newGlobParams hphase
  refine ⟨hs.coherent.note _, hs.merged, fun thread' own' next' newGlobParams' hphase' => ?_,
    hcontents, hlength.le⟩
  rcases setPhase_phase hphase' with ⟨-, hmoved⟩ | ⟨-, hstood⟩
  · cases own <;> cases hmoved
  · exact hs.stood (a := (.swap thread : Action Buffer)) rfl hstood

/-- A reply keeps the clock true to the server. -/
private theorem timed_reply {s t : Server P Buffer} {c : Clock} (hs : Timed s c) {workerId : ℕ}
    (h : reply s workerId = some t) : Timed t (c.note (.reply workerId : Action Buffer)) := by
  obtain ⟨own, -, rfl⟩ := reply_some h
  refine ⟨hs.coherent.note _, hs.merged, fun thread' own' next' newGlobParams' hphase' => ?_,
    hs.kept rfl, hs.published⟩
  rcases setPhase_phase hphase' with ⟨-, hmoved⟩ | ⟨-, hstood⟩
  · cases hmoved
  · exact hs.stood (a := (.reply workerId : Action Buffer)) rfl hstood

/-- The clock goes along with every step. -/
theorem timed_step {s t : Server P Buffer} {c : Clock} {a : Action Buffer} (htraced : WellTraced s)
    (hs : Timed s c) (h : Step I s a t) : Timed t (c.note a) := by
  cases a with
  | merge workerId param => exact timed_merge I hs h
  | tick => exact timed_tick I hs h
  | read thread => exact timed_read I htraced hs h
  | swap thread => exact timed_swap hs h
  | reply workerId => exact timed_reply hs h

/-- A swap that the clock allows is one whose new model contains the published one. -/
theorem allows_iff_contains {s : Server P Buffer} {c : Clock} (hs : Timed s c) {thread : Thread}
    {own : Option UpdateId} {newGlobParams : Traced P}
    (hphase : s.phase thread = .building own s.workerParams.length newGlobParams) :
    c.Allows (.swap thread : Action Buffer) ↔ Contains newGlobParams s.globalParams := by
  obtain ⟨hlength, hcontents⟩ := hs.building thread own _ newGlobParams hphase
  unfold Contains
  rw [hcontents, hs.global]
  exact Clock.allows_swap_iff hs.coherent (hlength ▸ hs.published)

/-- Published models only grow, and a call that has published and not yet returned finds its
update in the published model. -/
def Growing (s : Server P Buffer) : Prop :=
  Monotone s ∧ ∀ thread own, s.phase thread = .published own → own ∈ s.globalParams.contents

/-- At first only the fresh model is published. -/
theorem growing_init (nworker : ℕ) : Growing (init I nworker) :=
  ⟨⟨List.pairwise_singleton _ _, fun _ h => absurd h List.not_mem_nil⟩, fun _ _ h => by cases h⟩

/-- A step that the clock allows keeps published models growing. -/
theorem growing_step {s t : Server P Buffer} {c : Clock} {a : Action Buffer}
    (htraced : WellTraced s) (htimed : Timed s c) (hs : Growing s) (hallows : c.Allows a)
    (h : Step I s a t) : Growing t := by
  obtain ⟨⟨hhistory, hreplies⟩, hpublished⟩ := hs
  cases a with
  | merge workerId param =>
    obtain ⟨worker, params, -, -, -, rfl⟩ := merge_some h
    refine ⟨⟨hhistory, hreplies⟩, fun thread own hphase => ?_⟩
    rcases setPhase_phase hphase with ⟨-, hmoved⟩ | ⟨-, hstood⟩
    · cases hmoved
    · exact hpublished thread own hstood
  | tick =>
    obtain ⟨-, rfl⟩ := tick_some h
    refine ⟨⟨hhistory, hreplies⟩, fun thread own hphase => ?_⟩
    rcases setPhase_phase hphase with ⟨-, hmoved⟩ | ⟨-, hstood⟩
    · cases hmoved
    · exact hpublished thread own hstood
  | read thread =>
    obtain ⟨_, _, _, _, _, -, -, -, rfl⟩ := read_some h
    refine ⟨⟨hhistory, hreplies⟩, fun thread' own hphase => ?_⟩
    rcases setPhase_phase hphase with ⟨-, hmoved⟩ | ⟨-, hstood⟩
    · cases hmoved
    · exact hpublished thread' own hstood
  | swap thread =>
    obtain ⟨own, newGlobParams, hphase, rfl⟩ := swap_some h
    have hcontains := (allows_iff_contains htimed hphase).mp hallows
    obtain ⟨counts, hcounts, hown⟩ := htraced.building thread own _ newGlobParams hphase
    refine ⟨⟨List.pairwise_cons.mpr ⟨fun older holder => ?_, hhistory⟩, hreplies⟩, ?_⟩
    · obtain ⟨rest, hnewest⟩ := htraced.newest
      rw [hnewest] at hhistory holder
      rcases List.mem_cons.mp holder with rfl | holder
      · exact hcontains
      · exact List.Subset.trans ((List.pairwise_cons.mp hhistory).1 older holder) hcontains
    · intro thread' own' hphase'
      rcases setPhase_phase hphase' with ⟨-, hmoved⟩ | ⟨-, hstood⟩
      · cases own with
        | none => cases hmoved
        | some u =>
          cases hmoved
          obtain ⟨hworker, -, hread⟩ := hown own' rfl
          change own' ∈ newGlobParams.contents
          rw [hcounts]
          exact mem_snapshot.mpr ⟨hworker, hread hworker⟩
      · exact hcontains (hpublished thread' own' hstood)
  | reply workerId =>
    obtain ⟨own, hphase, rfl⟩ := reply_some h
    refine ⟨⟨hhistory, fun entry hentry => ?_⟩, fun thread own' hphase' => ?_⟩
    · rcases List.mem_cons.mp hentry with rfl | hentry
      · exact hpublished _ _ hphase
      · exact hreplies entry hentry
    · rcases setPhase_phase hphase' with ⟨-, hmoved⟩ | ⟨-, hstood⟩
      · cases hmoved
      · exact hpublished thread own' hstood

/-- A state after which published models have only grown was preceded by such a state, and the
clock allowed the step between them. -/
theorem monotone_step_inv {s t : Server P Buffer} {c : Clock} {a : Action Buffer}
    (htraced : WellTraced s) (htimed : Timed s c) (ht : Monotone t) (h : Step I s a t) :
    Monotone s ∧ c.Allows a := by
  obtain ⟨hhistory, hreplies⟩ := ht
  cases a with
  | merge workerId param =>
    obtain ⟨worker, params, -, -, -, rfl⟩ := merge_some h
    exact ⟨⟨hhistory, hreplies⟩, trivial⟩
  | tick =>
    obtain ⟨-, rfl⟩ := tick_some h
    exact ⟨⟨hhistory, hreplies⟩, trivial⟩
  | read thread =>
    obtain ⟨_, _, _, _, _, -, -, -, rfl⟩ := read_some h
    exact ⟨⟨hhistory, hreplies⟩, trivial⟩
  | swap thread =>
    obtain ⟨own, newGlobParams, hphase, rfl⟩ := swap_some h
    obtain ⟨hnew, hold⟩ := List.pairwise_cons.mp hhistory
    refine ⟨⟨hold, hreplies⟩, (allows_iff_contains htimed hphase).mpr (hnew _ ?_)⟩
    obtain ⟨rest, hnewest⟩ := htraced.newest
    rw [hnewest]
    exact List.mem_cons_self
  | reply workerId =>
    obtain ⟨own, -, rfl⟩ := reply_some h
    exact ⟨⟨hhistory, fun entry hentry => hreplies entry (List.mem_cons_of_mem _ hentry)⟩,
      trivial⟩

section Accounted

variable {I} {M : Type} [AddMonoid M] (L : I.Holding M)

/-- A record that is right stays right when more updates are received. -/
theorem Accounts.extend {received received' : ℕ → List Buffer} {m : Traced P}
    (h : Accounts L received m) (hmore : ∀ workerId, received workerId <+: received' workerId) :
    Accounts L received' m := by
  refine ⟨h.nodup, fun u hu => (h.received_of_mem u hu).trans_le (hmore u.worker).length_le, ?_⟩
  have hcarried : m.contents.map (carried L received') = m.contents.map (carried L received) := by
    apply List.map_congr_left
    intro u hu
    have hlt := h.received_of_mem u hu
    obtain ⟨more, hmore⟩ := hmore u.worker
    unfold carried
    rw [← hmore, List.getElem?_append_left hlt]
  rw [hcarried]
  exact h.holds

/-- A fresh model holds nothing. -/
theorem accounts_fresh (received : ℕ → List Buffer) : Accounts L received (fresh I) :=
  ⟨List.nodup_nil, fun _ h => absurd h List.not_mem_nil, L.new⟩

/-- The records of all models of a server are right. -/
structure Accounted (s : Server P Buffer) : Prop where
  workers : ∀ (workerId : ℕ) m, s.workerParams[workerId]? = some m → Accounts L s.received m
  global : Accounts L s.received s.globalParams
  building : ∀ thread own next m, s.phase thread = .building own next m → Accounts L s.received m
  history : ∀ m ∈ s.history, Accounts L s.received m
  replies : ∀ entry ∈ s.replies, Accounts L s.received entry.2

/-- At first all models are fresh. -/
theorem accounted_init (nworker : ℕ) : Accounted L (init I nworker) where
  workers workerId m hm := by
    rw [List.eq_of_mem_replicate (List.mem_of_getElem? hm)]
    exact accounts_fresh L _
  global := accounts_fresh L _
  building _ _ _ _ h := by cases h
  history m hm := by
    rw [List.mem_singleton.mp hm]
    exact accounts_fresh L _
  replies _ h := absurd h List.not_mem_nil

/-- Merging an update into a worker's model adds it to the record. -/
private theorem accounted_merge {s t : Server P Buffer} (htraced : WellTraced s)
    (hs : Accounted L s) {workerId : ℕ} {param : Buffer} (hformed : L.WellFormed param)
    (h : merge I s workerId param = some t) : Accounted L t := by
  obtain ⟨worker, params, -, hworker, hparams, rfl⟩ := merge_some h
  have hlt : workerId < s.workerParams.length := (List.getElem?_eq_some_iff.mp hworker).1
  have hcontents := htraced.workers workerId worker hworker
  have hlength : worker.contents.length = (s.received workerId).length := by
    rw [hcontents, updatesOf_length]
    rfl
  set t := Server.setPhase { s with
    workerParams := s.workerParams.set workerId
      ⟨params, worker.contents ++ [⟨workerId, worker.contents.length⟩]⟩
    received := Function.update s.received workerId (s.received workerId ++ [param]) }
    (.worker workerId) (.building (some ⟨workerId, worker.contents.length⟩) 0 (fresh I)) with ht
  have hself : t.received workerId = s.received workerId ++ [param] := Function.update_self _ _ _
  have hreceived : ∀ w, s.received w <+: t.received w := by
    intro w
    by_cases hw : w = workerId
    · rw [hw, hself]
      exact List.prefix_append _ _
    · have hother : t.received w = s.received w := Function.update_of_ne hw _ _
      exact hother.symm ▸ List.prefix_refl _
  have hold := (hs.workers workerId worker hworker).extend L hreceived
  have hown : carried L t.received ⟨workerId, worker.contents.length⟩ = L.payload param := by
    unfold carried
    dsimp only
    rw [hself, hlength, List.getElem?_concat_length]
    rfl
  have hmerged : Accounts L t.received
      ⟨params, worker.contents ++ [⟨workerId, worker.contents.length⟩]⟩ := by
    refine ⟨?_, fun u hu => ?_, ?_⟩
    · have hnext : worker.contents ++ [⟨workerId, worker.contents.length⟩] =
          updatesOf workerId (s.sent workerId + 1) := by
        rw [updatesOf_succ, hlength, hcontents]
        rfl
      exact hnext ▸ updatesOf_nodup _ _
    · rcases List.mem_append.mp hu with hu | hu
      · exact hold.received_of_mem u hu
      · rw [List.mem_singleton.mp hu]
        dsimp only
        rw [hself, hlength, List.length_append]
        exact Nat.lt_succ_self _
    · have hholds := L.updateSerialized hold.holds hformed hparams
      dsimp only
      rw [List.map_append, List.sum_append, List.map_singleton, List.sum_singleton, hown]
      exact hholds
  refine ⟨fun w m hm => ?_, hs.global.extend L hreceived, fun thread own next m hphase => ?_,
    fun m hm => (hs.history m hm).extend L hreceived,
    fun entry hentry => (hs.replies entry hentry).extend L hreceived⟩
  · change (s.workerParams.set workerId _)[w]? = some m at hm
    by_cases hw : w = workerId
    · rw [hw, List.getElem?_set_self hlt] at hm
      rw [← Option.some.inj hm]
      exact hmerged
    · rw [List.getElem?_set_ne (Ne.symm hw)] at hm
      exact (hs.workers w m hm).extend L hreceived
  · rcases setPhase_phase hphase with ⟨-, hmoved⟩ | ⟨-, hstood⟩
    · cases hmoved
      exact accounts_fresh L _
    · exact (hs.building thread own next m hstood).extend L hreceived

/-- Reading a worker's model adds its record. -/
private theorem accounted_read {s t : Server P Buffer} (htraced : WellTraced t)
    (hs : Accounted L s) {thread : Thread} (h : read I s thread = some t) : Accounted L t := by
  obtain ⟨own, next, newGlobParams, worker, params, hphase, hworker, hparams, rfl⟩ := read_some h
  have hglobal := hs.building thread own next newGlobParams hphase
  have hread := hs.workers next worker hworker
  refine ⟨hs.workers, hs.global, fun thread' own' next' m hphase' => ?_, hs.history, hs.replies⟩
  rcases setPhase_phase hphase' with ⟨rfl, hmoved⟩ | ⟨-, hstood⟩
  · cases hmoved
    obtain ⟨counts, hcounts, -⟩ := htraced.building thread' own (next + 1) _ hphase'
    refine ⟨hcounts ▸ snapshot_nodup _ _, fun u hu => ?_, ?_⟩
    · exact (List.mem_append.mp hu).elim (hglobal.received_of_mem u) (hread.received_of_mem u)
    · have hholds := L.update hglobal.holds hread.holds hparams
      dsimp only
      rw [List.map_append, List.sum_append]
      exact hholds
  · exact hs.building thread' own' next' m hstood

/-- Every step keeps the records of all models right. -/
theorem accounted_step {s t : Server P Buffer} {a : Action Buffer} (htraced : WellTraced s)
    (hs : Accounted L s)
    (hformed : ∀ workerId param, a = .merge workerId param → L.WellFormed param)
    (h : Step I s a t) : Accounted L t := by
  cases a with
  | merge workerId param =>
    exact accounted_merge L htraced hs (hformed workerId param rfl) h
  | tick =>
    obtain ⟨-, rfl⟩ := tick_some h
    refine ⟨hs.workers, hs.global, fun thread own next m hphase => ?_, hs.history, hs.replies⟩
    rcases setPhase_phase hphase with ⟨-, hmoved⟩ | ⟨-, hstood⟩
    · cases hmoved
      exact accounts_fresh L _
    · exact hs.building thread own next m hstood
  | read thread => exact accounted_read L (wellTraced_step I htraced h) hs h
  | swap thread =>
    obtain ⟨own, newGlobParams, hphase, rfl⟩ := swap_some h
    have hnew := hs.building thread own _ newGlobParams hphase
    refine ⟨hs.workers, hnew, fun thread' own' next m hphase' => ?_,
      List.forall_mem_cons.mpr ⟨hnew, hs.history⟩, hs.replies⟩
    rcases setPhase_phase hphase' with ⟨-, hmoved⟩ | ⟨-, hstood⟩
    · cases own <;> cases hmoved
    · exact hs.building thread' own' next m hstood
  | reply workerId =>
    obtain ⟨own, -, rfl⟩ := reply_some h
    refine ⟨hs.workers, hs.global, fun thread own' next m hphase => ?_, hs.history,
      List.forall_mem_cons.mpr ⟨hs.global, hs.replies⟩⟩
    rcases setPhase_phase hphase with ⟨-, hmoved⟩ | ⟨-, hstood⟩
    · cases hmoved
    · exact hs.building thread own' next m hstood

/-- Runs from a state in which the records are right: the records stay right, and published models
only grow exactly if they did before and every swap comes in order. -/
private theorem exec_monotone_iff {s t : Server P Buffer} {c : Clock}
    {actions : List (Action Buffer)} (htraced : WellTraced s) (htimed : Timed s c)
    (haccounted : Accounted L s)
    (hformed : ∀ workerId param, Action.merge workerId param ∈ actions → L.WellFormed param)
    (hrun : exec I s actions = some t) :
    Accounted L t ∧ (Growing s → InOrder c actions → Growing t) ∧
      (Monotone t → Monotone s ∧ InOrder c actions) := by
  induction actions generalizing s c with
  | nil =>
    cases hrun
    exact ⟨haccounted, fun hs _ => hs, fun ht => ⟨ht, trivial⟩⟩
  | cons a rest ih =>
    rw [exec, List.foldlM_cons] at hrun
    obtain ⟨u, hstep, hrest⟩ := Option.bind_eq_some_iff.mp hrun
    obtain ⟨haccounted', hgrow, hmonotone⟩ := ih (wellTraced_step I htraced hstep)
      (timed_step I htraced htimed hstep)
      (accounted_step L htraced haccounted
        (fun workerId param heq => hformed workerId param (heq ▸ List.mem_cons_self)) hstep)
      (fun workerId param hmem => hformed workerId param (List.mem_cons_of_mem a hmem)) hrest
    refine ⟨haccounted', fun hs horder => ?_, fun ht => ?_⟩
    · exact hgrow (growing_step I htraced htimed hs horder.1 hstep) horder.2
    · obtain ⟨hu, horder⟩ := hmonotone ht
      obtain ⟨hs, hallows⟩ := monotone_step_inv I htraced htimed hu hstep
      exact ⟨hs, hallows, horder⟩

/-- In every run in which well-formed updates arrive, each published model and each reply holds
exactly the updates of its record, each once; and published models only grow, with every call
returning a model with its own update, exactly if no swap publishes a rebuild that has missed an
update which the published model has. -/
theorem published_monotone_iff {nworker : ℕ} {actions : List (Action Buffer)}
    (hformed : ∀ workerId param, Action.merge workerId param ∈ actions → L.WellFormed param)
    {s : Server P Buffer} (hrun : exec I (init I nworker) actions = some s) :
    (∀ m ∈ s.history, Accounts L s.received m) ∧
      (∀ entry ∈ s.replies, Accounts L s.received entry.2) ∧
      (Monotone s ↔ InOrder Clock.start actions) := by
  obtain ⟨haccounted, hgrow, hmonotone⟩ := exec_monotone_iff L (wellTraced_init I nworker)
    (timed_init I nworker) (accounted_init L nworker) hformed hrun
  exact ⟨haccounted.history, haccounted.replies, fun hs => (hmonotone hs).2,
    fun horder => (hgrow (growing_init I nworker) horder).1⟩

end Accounted

/-- Two calls of one worker that nobody overtakes publish and return their updates, and the
published models hold their power sums. -/
theorem published_monotone_single :
    let I := SstdParam.interface MapArchive.direct
    let L := SstdParam.holding MapArchive.direct
    let update : ModelMap RunStats := AList.singleton 7 ((RunStats.new false).push 2)
    let call : List (Action (ModelMap RunStats)) :=
      [.merge 0 update, .read (.worker 0), .swap (.worker 0), .reply 0]
    ∃ s ∈ exec I (init I 1) (call ++ call), s.history.length = 3 ∧ s.replies.length = 2 ∧
      (∀ m ∈ s.history, Accounts L s.received m) ∧
      (∀ entry ∈ s.replies, Accounts L s.received entry.2) ∧
      Monotone s := by
  intro I L update call
  have hvalid : (SstdParam.mk update).Valid := SstdParam.valid_singleton 7 (RunStats.valid_push
    (RunStats.valid_new false) 2)
  have hformed : ∀ workerId param, Action.merge workerId param ∈ call ++ call →
      L.WellFormed param := by
    intro workerId param hmem
    have hparam : workerId = 0 ∧ param = update := by simpa [call] using hmem
    exact ⟨param, rfl, hparam.2 ▸ hvalid⟩
  have hrun : ∃ s ∈ exec I (init I 1) (call ++ call), s.history.length = 3 ∧
      s.replies.length = 2 := by
    decide +kernel
  obtain ⟨s, hs, hpublished, hreturned⟩ := hrun
  obtain ⟨hhistory, hreplies, hiff⟩ := published_monotone_iff L hformed hs
  have horder : InOrder Clock.start (call ++ call) := by decide +kernel
  exact ⟨s, hs, hpublished, hreturned, hhistory, hreplies, hiff.mpr horder⟩

/-- The updater reads the only worker's model before its first update arrives and publishes
after the call has: the published model loses the update, and the call returns without it. -/
theorem published_stale :
    let I := SstdParam.interface MapArchive.direct
    let update : ModelMap RunStats := AList.singleton 7 ((RunStats.new false).push 2)
    let actions : List (Action (ModelMap RunStats)) :=
      [.tick, .read .updater, .merge 0 update, .read (.worker 0), .swap (.worker 0),
        .swap .updater, .reply 0]
    ∃ s ∈ exec I (init I 1) actions, ¬s.history.Pairwise Contains ∧
      (¬∀ entry ∈ s.replies, entry.1 ∈ entry.2.contents) ∧
      (s.history.map fun m => (m.params.runstats.lookup 7).map RunStats.count) =
        [none, some 1, none] := by
  decide +kernel

/-- The manager that the shared state of a server implements. -/
def Server.manager (s : Server P Buffer) : PSparamManager P Buffer :=
  { workerParams := s.workerParams.map Traced.params
    globalParams := s.globalParams.params
    latestGlobalParams := I.serialize s.globalParams.params
    forceUpdate := true }

/-- Of two phases the last one stays. -/
private theorem setPhase_setPhase (s : Server P Buffer) (thread : Thread) (phase phase' : Phase P) :
    (s.setPhase thread phase).setPhase thread phase' = s.setPhase thread phase' := by
  simp [Server.setPhase, Function.update_idem]

/-- Reading the remaining worker models with no other step in between merges them in order. -/
private theorem exec_reads {s : Server P Buffer} {thread : Thread} {own : Option UpdateId}
    {next : ℕ} {newGlobParams : Traced P} (rest : List (Traced P))
    (hphase : s.phase thread = .building own next newGlobParams)
    (hrest : s.workerParams.drop next = rest) {result : P}
    (h : I.updateAll newGlobParams.params (rest.map Traced.params) = .ok result) :
    ∃ contents, exec I s (List.replicate rest.length (.read thread)) =
      some (s.setPhase thread (.building own (next + rest.length) ⟨result, contents⟩)) := by
  induction rest generalizing s next newGlobParams with
  | nil =>
    cases h
    refine ⟨newGlobParams.contents, ?_⟩
    change some s = some _
    rw [Server.setPhase, List.length_nil, Nat.add_zero, ← hphase, Function.update_eq_self]
  | cons worker rest ih =>
    have hworker : s.workerParams[next]? = some worker := by
      rw [← List.head?_drop, hrest]
      rfl
    have hdrop : s.workerParams.drop (next + 1) = rest := by
      rw [← List.tail_drop, hrest]
      rfl
    cases hupdate : I.update newGlobParams.params worker.params with
    | error e =>
      change (I.update newGlobParams.params worker.params >>= _) = _ at h
      rw [hupdate] at h
      cases h
    | ok params =>
      change (I.update newGlobParams.params worker.params >>= _) = _ at h
      rw [hupdate] at h
      obtain ⟨contents, hexec⟩ := ih
        (setPhase_same s thread (.building own (next + 1)
          ⟨params, newGlobParams.contents ++ worker.contents⟩)) hdrop h
      refine ⟨contents, ?_⟩
      rw [List.length_cons, List.replicate_succ, exec, List.foldlM_cons]
      change (read I s thread >>= _) = _
      rw [read, hphase]
      simp only [hworker, hupdate]
      change exec I (s.setPhase thread _) _ = _
      rw [hexec, setPhase_setPhase, Nat.add_right_comm, Nat.add_assoc]

/-- The steps of a call that no other thread interrupts are `updateWorkerModel` with force
update enabled. -/
theorem exec_call {s : Server P Buffer} {workerId : ℕ} (hidle : s.phase (.worker workerId) = .idle)
    {param : Buffer} {man : PSparamManager P Buffer} {latest : Buffer}
    (h : PSparamManager.updateWorkerModel I (s.manager I) param workerId = .ok (man, latest)) :
    ∃ t ∈ exec I s (.merge workerId param ::
        (List.replicate s.workerParams.length (.read (.worker workerId)) ++
          [.swap (.worker workerId), .reply workerId])),
      t.manager I = man ∧ latest = man.latestGlobalParams := by
  obtain ⟨_, params, hworker, hmerged, rfl, hglobal⟩ :=
    PSparamManager.updateWorkerModel_eq_ok I h
  obtain ⟨glob, hbuilt, rfl⟩ := PSparamManager.updateGlobalModel_eq_ok I hglobal
  simp only [Server.manager, Int.toNat_natCast, List.getElem?_map, Option.map_eq_some_iff]
    at hworker
  obtain ⟨worker, hworker, rfl⟩ := hworker
  let own : UpdateId := ⟨workerId, worker.contents.length⟩
  let workers := s.workerParams.set workerId ⟨params, worker.contents ++ [own]⟩
  let s₁ : Server P Buffer := Server.setPhase { s with
    workerParams := workers
    received := Function.update s.received workerId (s.received workerId ++ [param]) }
    (.worker workerId) (.building (some own) 0 (fresh I))
  have hmerge : step I s (.merge workerId param) = some s₁ := by
    rw [step, merge, hidle, hworker]
    simp only [hmerged]
    rfl
  have hmap : workers.map Traced.params = (s.workerParams.map Traced.params).set workerId params :=
    List.map_set
  have hmerged' : I.updateAll (fresh I).params (workers.map Traced.params) = .ok glob := by
    rw [hmap]
    exact hbuilt
  obtain ⟨contents, hreads⟩ := exec_reads I workers
    (setPhase_same _ _ _ : s₁.phase (.worker workerId) = _) rfl hmerged'
  let s₂ := s₁.setPhase (.worker workerId)
    (.building (some own) (0 + workers.length) ⟨glob, contents⟩)
  let s₃ := Server.setPhase { s₂ with
    globalParams := ⟨glob, contents⟩
    history := ⟨glob, contents⟩ :: s₂.history } (.worker workerId) (.published own)
  let s₄ := Server.setPhase { s₃ with replies := (own, s₃.globalParams) :: s₃.replies }
    (.worker workerId) .idle
  have hswap : step I s₂ (.swap (.worker workerId)) = some s₃ := by
    rw [step, swap, setPhase_same]
    exact if_pos (Nat.zero_add _)
  have hreply : step I s₃ (.reply workerId) = some s₄ := by
    rw [step, reply, setPhase_same]
  refine ⟨s₄, ?_, ?_, rfl⟩
  · have hlength : s.workerParams.length = workers.length := List.length_set.symm
    rw [Option.mem_def, exec_cons I hmerge, hlength, exec_append I hreads, exec_cons I hswap,
      exec_cons I hreply]
    rfl
  · rw [Server.manager]
    exact congrArg (fun workerParams => (⟨workerParams, glob, I.serialize glob, true⟩ :
      PSparamManager P Buffer)) hmap

end ForceUpdate

end Chimbuko
