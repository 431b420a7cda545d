import Chimbuko.AD.ADEventRuns

/-!
# Call stack reconstruction

Along any stream of events whose times do not decrease per thread and fit into a `long`, and in
which every entry has an identifier of its own, the open calls of a thread are a chain of parents,
and the intervals, numbers of children and exclusive times of ended calls fit together. An event
that is refused changes nothing but which event indices are known. Times from `2 ^ 63` on turn
negative when they are cast, so that calls that start on both sides of it do not nest.
-/

namespace Chimbuko

open TransitionSystem

namespace ADEvent

/-- What an event does to the call forest: nothing, or it starts a call, or it ends the call on
top of the stack of its thread, which must have started before. -/
theorem addEvent_forest {self self' : ADEvent} {ev : Event} {err : EventError}
    (h : self.addEvent ev = .ok (self', err)) :
    self'.forest = self.forest ∨
    ev.type = .FUNC ∧
      self'.forest = self.forest.push EventID.root ev.id ev.thread (toLong ev.ts) ∨
    ∃ it stack, self.forest.stack ev.thread = it :: stack ∧
      (self.forest.node it).entry ≤ toLong ev.ts ∧
      self'.forest = self.forest.pop ev.thread it stack (toLong ev.ts) := by
  rw [addEvent] at h
  split at h
  · rename_i htype
    rcases addFunc_cases h with ⟨-, -, hindices⟩ | ⟨-, -, self₁, funcName, hindices, rfl⟩ |
      ⟨-, self₁, _, it, stack, d, -, hindices, -, hstack, hd, hmatch⟩
    · exact Or.inl hindices.forest
    · refine Or.inr (Or.inl ⟨htype, ?_⟩)
      rw [forest_addEntry, hindices.forest]
    · refine Or.inr (Or.inr ⟨it, stack, ?_, ?_, ?_⟩)
      · rw [← hindices.forest]
        exact hstack
      · rw [ExecData.updateExit] at hd
        split at hd
        · cases hd
        · rename_i hnot
          rw [← hindices.forest]
          push Not at hnot
          exact hnot.2
      · have hd' : d = (self₁.calls it).updateExitAt ev.ts := by
          rw [ExecData.updateExit] at hd
          split at hd
          · cases hd
          · exact (Option.some.inj hd).symm
        have hend : (self₁.endCall ev it d stack).forest =
            self₁.forest.pop ev.thread it stack (toLong ev.ts) := by
          change ((((self₁.popCall ev.thread it d stack).attachComms it ev).attachCounters it
            ev).pushExecData ev.fid it).forest = _
          change (((self₁.popCall ev.thread it d stack).attachComms it ev).attachCounters it
            ev).forest = _
          rw [forest_attachCounters, forest_attachComms, hd', forest_popCall]
        rw [forest_congr (forgetRefs_checkAndMatch hmatch), hend, hindices.forest]
  · rcases addComm_cases (Except.ok.inj h) with ⟨-, -, hindices⟩ | ⟨-, self₁, _, -, hindices, rfl⟩
    · exact Or.inl hindices.forest
    · exact Or.inl hindices.forest
  · rcases addCounter_cases (Except.ok.inj h) with ⟨-, -, rfl⟩ | ⟨-, _, -, rfl⟩
    · exact Or.inl rfl
    · exact Or.inl rfl

/-- The calls whose parent a call is. -/
def childrenOf (self : ADEvent) (x : CallRef) : Finset CallRef :=
  (Finset.range self.nextRef).filter fun z => (self.calls z).parent = (self.calls x).id

/-- Some open calls are a chain of parents from the first one to the root. -/
def ChainToRoot (self : ADEvent) : List CallRef → Prop
  | [] => True
  | x :: rest =>
    (self.calls x).parent = (rest.head?.map fun y => (self.calls y).id).getD EventID.root ∧
      self.ChainToRoot rest

/-- The data of an ended call fit the calls around it. -/
structure CallCorrect (self : ADEvent) (x : CallRef) : Prop where
  entry_le_exit : (self.calls x).entry ≤ (self.calls x).exit
  runtime_eq : (self.calls x).runtime = (self.calls x).exit - (self.calls x).entry
  inside_parent : ∀ y < self.nextRef, (self.calls x).parent = (self.calls y).id →
    (self.calls y).entry ≤ (self.calls x).entry ∧
      (self.Completed y → (self.calls x).exit ≤ (self.calls y).exit)
  nChildren_eq : (self.calls x).nChildren = (self.childrenOf x).card
  exclusive_eq : (self.calls x).exclusive =
    (self.calls x).runtime - ∑ z ∈ self.childrenOf x, (self.calls z).runtime
  exclusive_bounds : 0 ≤ (self.calls x).exclusive ∧
    (self.calls x).exclusive ≤ (self.calls x).runtime

end ADEvent

namespace EventSystem

/-- A stream of events: they come in time order per thread, before a bound that the type of their
times sets, and function events have identifiers of their own. Calls are labeled and purged
between them. -/
def Ordered (bound : ℕ) (s : EventSystem) : EventAction → Prop
  | .addEvent ev =>
    s.lastTs ev.thread ≤ ev.ts ∧ ev.ts < bound ∧
      (ev.type = .FUNC → ev.id ∉ s.ids ∧ ev.id ≠ EventID.root)
  | .addCall _ => False
  | _ => True

instance (bound : ℕ) (s : EventSystem) : (a : EventAction) → Decidable (s.Ordered bound a)
  | .addEvent ev => inferInstanceAs (Decidable (s.lastTs ev.thread ≤ ev.ts ∧ ev.ts < bound ∧
      (ev.type = .FUNC → ev.id ∉ s.ids ∧ ev.id ≠ EventID.root)))
  | .addCall _ => inferInstanceAs (Decidable False)
  | .link .. => inferInstanceAs (Decidable True)
  | .ignoreCorrelationIDsForFunction _ => inferInstanceAs (Decidable True)
  | .setLabel .. => inferInstanceAs (Decidable True)
  | .purgeCallList .. => inferInstanceAs (Decidable True)

/-- The call forest of the event manager satisfies the invariant of call forests. -/
def Valid (s : EventSystem) : Prop :=
  s.manager.forest.Valid EventID.root (· ∈ s.ids) fun thr => s.lastTs thr

/-- The start is valid. -/
theorem valid_start : start.Valid :=
  CallForest.valid_empty rfl fun _ => rfl

/-- An event of an ordered stream keeps the invariant. -/
private theorem Valid.addEvent {s : EventSystem} (hs : s.Valid) {ev : Event} {manager : ADEvent}
    {err : EventError} (hts : s.lastTs ev.thread ≤ ev.ts) (hbound : ev.ts < 2 ^ 63)
    (hids : ev.type = .FUNC → ev.id ∉ s.ids ∧ ev.id ≠ EventID.root)
    (hadd : s.manager.addEvent ev = .ok (manager, err)) :
    EventSystem.Valid { manager := manager
                        lastTs := Function.update s.lastTs ev.thread ev.ts
                        ids := if ev.type = .FUNC then ev.id :: s.ids else s.ids } := by
  have hnow : ∀ thr, (s.lastTs thr : ℤ) ≤
      (Function.update s.lastTs ev.thread ev.ts thr : ℕ) := by
    intro thr
    by_cases hthr : thr = ev.thread
    · rw [hthr, Function.update_self]
      exact_mod_cast hts
    · rw [Function.update_of_ne hthr]
  have hupdate : ∀ thr, Function.update (fun thr => (s.lastTs thr : ℤ)) ev.thread ev.ts thr ≤
      (Function.update s.lastTs ev.thread ev.ts thr : ℕ) := by
    intro thr
    by_cases hthr : thr = ev.thread
    · rw [hthr, Function.update_self, Function.update_self]
    · rw [Function.update_of_ne hthr, Function.update_of_ne hthr]
  have hused : ∀ k, k ∈ s.ids → k ∈ if ev.type = .FUNC then ev.id :: s.ids else s.ids := by
    intro k hk
    split
    · exact List.mem_cons_of_mem _ hk
    · exact hk
  have hts' : (s.lastTs ev.thread : ℤ) ≤ ev.ts := by exact_mod_cast hts
  have hforest := ADEvent.addEvent_forest hadd
  rw [toLong_of_lt hbound] at hforest
  rw [Valid]
  rcases hforest with hsame | ⟨htype, hpush⟩ | ⟨it, stack, hstack, hentry, hpop⟩
  · rw [hsame]
    exact CallForest.Valid.mono hs hused hnow
  · obtain ⟨hfresh, hroot⟩ := hids htype
    rw [hpush]
    refine (CallForest.Valid.push hs hfresh hroot hts' (Int.natCast_nonneg _)).mono ?_ hupdate
    rintro k (hk | rfl)
    · exact hused k hk
    · rw [if_pos htype]
      exact List.mem_cons_self
  · rw [hpop]
    exact (CallForest.Valid.pop hs hstack hentry hts').mono hused hupdate

/-- One step keeps the invariant. -/
theorem Valid.exec {s t : EventSystem} (hs : s.Valid) {a : EventAction}
    (ha : s.Ordered (2 ^ 63) a) (h : s.exec a = .ok t) : t.Valid := by
  cases a with
  | link funcMap eventType counterMap gpuThreadMap =>
    cases h
    exact hs
  | ignoreCorrelationIDsForFunction func =>
    cases h
    exact hs
  | addEvent ev =>
    rw [EventSystem.exec] at h
    cases hadd : s.manager.addEvent ev with
    | error e =>
      rw [hadd] at h
      cases h
    | ok result =>
      rw [hadd] at h
      cases h
      exact hs.addEvent ha.1 ha.2.1 ha.2.2 hadd
  | addCall exec => exact ha.elim
  | setLabel it label =>
    cases h
    have hforest : (s.manager.modifyCall it fun d => d.setLabel label).forest =
        s.manager.forest := by
      rw [ADEvent.forest_modifyCall]
      exact CallForest.modify_eq_self _ it
    rw [Valid, hforest]
    exact hs
  | purgeCallList threads nKeepThread =>
    rw [EventSystem.exec] at h
    cases hpurge : s.manager.purgeCallList threads nKeepThread with
    | error e =>
      rw [hpurge] at h
      cases h
    | ok result =>
      rw [hpurge] at h
      cases h
      rw [Valid, ADEvent.forest_purgeCallList hpurge]
      exact hs

/-- The call forest of every reachable state satisfies the invariant. -/
theorem valid_of_runs {s : EventSystem} (hrun : Runs (StepOf exec) (Ordered (2 ^ 63)) start s) :
    s.Valid :=
  hrun.invariant Valid valid_start fun _ _ _ hs ha hstep => hs.exec ha hstep

/-- A chain in the forest is one of identifiers. -/
theorem chainToRoot_of_chain {self : ADEvent} {xs : List CallRef}
    (h : self.forest.Chain EventID.root xs) : self.ChainToRoot xs := by
  induction xs with
  | nil => trivial
  | cons x rest ih => exact ⟨h.1, ih h.2⟩

/-- The data of every ended call fit the calls around it. -/
theorem Valid.callCorrect {s : EventSystem} (hs : s.Valid) {x : CallRef}
    (hx : s.manager.Completed x) : s.manager.CallCorrect x := by
  obtain ⟨hentry, hruntime, -⟩ := CallForest.Valid.done hs x hx.1 hx.2
  refine ⟨hentry, hruntime, fun y hy hparent => ⟨?_, fun hdone => ?_⟩,
    CallForest.Valid.nChildren_eq hs x hx.1, CallForest.Valid.exclusive_eq hs x hx.1,
    CallForest.Valid.exclusive_bounds hs hx.1 hx.2⟩
  · rcases CallForest.Valid.parent_eq hs x hx.1 with hroot | ⟨z, hz, hparent', hle⟩
    · exact absurd (hparent.symm.trans hroot) (CallForest.Valid.id_ne_root hs y hy)
    · have hyz := CallForest.Valid.id_inj hs y hy z hz (hparent.symm.trans hparent')
      exact hyz ▸ hle
  · exact (CallForest.Valid.done hs y hdone.1 hdone.2).2.2.1 x
      (CallForest.mem_children.mpr ⟨hx.1, hparent⟩)

/-- As long as times fit into a `long`, in every reachable state the open calls of each thread are
a chain of parents to the root, the data of every ended call fit the calls around it, and an event
that is refused changes nothing but the known event indices. -/
theorem callStack_correct {s : EventSystem} (hrun : Runs (StepOf exec) (Ordered (2 ^ 63)) start s) :
    (∀ thr, s.manager.ChainToRoot (s.manager.callStack thr)) ∧
      (∀ x, s.manager.Completed x → s.manager.CallCorrect x) ∧
      ∀ ev manager err, s.manager.addEvent ev = .ok (manager, err) → err ≠ .OK →
        s.manager.OnlyIndices manager := by
  have hs := valid_of_runs hrun
  exact ⟨fun thr => chainToRoot_of_chain (CallForest.Valid.chain hs thr),
    fun x hx => hs.callCorrect hx, fun ev manager err h herr => ADEvent.addEvent_refused h herr⟩

/-- A function with one child. -/
def nestedCalls : List EventAction :=
  let names := (AList.singleton (0 : ℤ) "ENTRY").insert 1 "EXIT"
  let event (eid fid ts idx : ℕ) : EventAction := .addEvent
    { data := [0, 0, 0, eid, fid, ts], type := .FUNC, idx := idx,
      id := { rank := 0, step := 0, idx := idx } }
  [.link (some ((AList.singleton (0 : ℤ) "parent").insert 1 "child")) (some names) none none,
    event 0 0 10 0, event 0 1 12 1, event 1 1 15 2, event 1 0 20 3]

/-- The function's data fit those of its child. -/
theorem callStack_correct_nested :
    ∃ s, runAll exec (Ordered (2 ^ 63)) start nestedCalls = some s ∧ s.manager.CallCorrect 0 := by
  have hrun : ∃ s ∈ runAll exec (Ordered (2 ^ 63)) start nestedCalls, s.manager.Completed 0 := by
    decide +kernel
  obtain ⟨s, hs, hdone⟩ := hrun
  exact ⟨s, hs, (callStack_correct (runs_of_runAll nestedCalls hs)).2.1 0 hdone⟩

/-- A function that starts at time 1, with a child from `2 ^ 63` on. -/
def wrappedCalls : List EventAction :=
  let names := (AList.singleton (0 : ℤ) "ENTRY").insert 1 "EXIT"
  let event (eid fid ts idx : ℕ) : EventAction := .addEvent
    { data := [0, 0, 0, eid, fid, ts], type := .FUNC, idx := idx,
      id := { rank := 0, step := 0, idx := idx } }
  [.link (some ((AList.singleton (0 : ℤ) "parent").insert 1 "child")) (some names) none none,
    event 0 0 1 0, event 0 1 (2 ^ 63 + 1) 1, event 1 1 (2 ^ 63 + 2) 2,
    event 1 0 (2 ^ 63 + 3) 3]

/-- Times that do not fit into a `long` break the nesting: the recorded entry of the child is
negative, before that of its parent. -/
theorem not_callStack_correct_wrapped :
    ¬∀ s, Runs (StepOf exec) (Ordered (2 ^ 64)) start s →
      ∀ x, s.manager.Completed x → s.manager.CallCorrect x := by
  intro h
  have hrun : ∃ s ∈ runAll exec (Ordered (2 ^ 64)) start wrappedCalls,
      s.manager.Completed 1 ∧ 0 < s.manager.nextRef ∧
        (s.manager.calls 1).parent = (s.manager.calls 0).id ∧
          ¬(s.manager.calls 0).entry ≤ (s.manager.calls 1).entry := by
    decide +kernel
  obtain ⟨s, hs, hdone, hlt, hparent, hbefore⟩ := hrun
  obtain ⟨-, -, hinside, -⟩ := h s (runs_of_runAll wrappedCalls hs) 1 hdone
  exact hbefore (hinside 0 hlt hparent).1

end EventSystem

end Chimbuko
