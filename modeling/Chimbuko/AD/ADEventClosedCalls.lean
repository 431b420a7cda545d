import Chimbuko.AD.ADEventExecData

/-!
# Closed calls

A call that left its call stack keeps its thread and its runtimes. Messages and counters are only
attached to a call when it ends, runtimes of children are taken off calls that are still open, and
a purge concerns references and protections. A call leaves its call stack unlabeled, and is put
into the exec-data map then.
-/

namespace Chimbuko

namespace ExecData

/-- The thread of a call and its inclusive and exclusive runtime. -/
def measured (d : ExecData) : Thread × ℤ × ℤ := (d.thread, d.runtime, d.exclusive)

/-- A message does not change what was measured of a call. -/
@[simp] theorem measured_addMessage (d : ExecData) (comm : CommData) :
    (d.addMessage comm).measured = d.measured := by
  unfold addMessage
  split <;> rfl

/-- A counter does not change what was measured of a call. -/
@[simp] theorem measured_addCounter (d : ExecData) (counter : CounterData) :
    (d.addCounter counter).measured = d.measured := by
  unfold addCounter
  split <;> rfl

end ExecData

namespace ADEvent

/-- Taking a call off its call stack concerns that call and the next one on the stack. -/
theorem popCall_calls_of_ne (self : ADEvent) (thr : Thread) {it x : CallRef} (d : ExecData)
    {stack : List CallRef} (hit : x ≠ it) (hstack : x ∉ stack) :
    (self.popCall thr it d stack).calls x = self.calls x := by
  have hended : (self.modifyCall it fun _ => d).calls x = self.calls x :=
    Function.update_of_ne hit _ _
  cases stack with
  | nil => exact hended
  | cons top rest =>
    have hne : x ≠ top := fun heq => hstack (heq ▸ List.mem_cons_self)
    refine Eq.trans ?_ hended
    exact Function.update_of_ne hne _ _

/-- Ending a call leaves the closed calls as they were measured. -/
theorem measured_endCall {self : ADEvent} {ev : Event} {it : CallRef} {stack : List CallRef}
    (hstack : self.callStack ev.thread = it :: stack) (d : ExecData) {x : CallRef}
    (hx : self.Closed x) :
    ((self.endCall ev it d stack).calls x).measured = (self.calls x).measured := by
  have hnot := hx.2 ev.thread
  rw [hstack, List.mem_cons, not_or] at hnot
  let popped := self.popCall ev.thread it d stack
  have hpop : popped.calls x = self.calls x :=
    popCall_calls_of_ne self ev.thread d hnot.1 hnot.2
  have hcomms := proj_attachComms ExecData.measured ExecData.measured_addMessage popped it ev x
  have hcounters := proj_attachCounters ExecData.measured ExecData.measured_addCounter
    (popped.attachComms it ev) it ev x
  refine (hcounters.trans hcomms).trans ?_
  rw [hpop]

/-- States that differ in references and protections only have the same measurements. -/
theorem measured_of_forgetRefs {self self' : ADEvent} (h : self'.forgetRefs = self.forgetRefs)
    (x : CallRef) : (self'.calls x).measured = (self.calls x).measured :=
  (congrArg (fun m : ADEvent => (m.calls x).measured) h :)

/-- A purge leaves all calls as they were measured. -/
theorem measured_purgeCallList {self self' : ADEvent} {threads : List Thread} {nKeepThread : ℕ}
    {report : PurgeReport} (h : self.purgeCallList threads nKeepThread = .ok (self', report))
    (x : CallRef) : (self'.calls x).measured = (self.calls x).measured := by
  obtain ⟨callIDMap, callList, hm⟩ := purgeCallList_cases h
  exact measured_of_forgetRefs hm x

/-- A later state, in which the closed calls are as they were measured, calls are opened without a
label, and those closed in between are in the exec-data map. -/
structure Completes (m m' : ADEvent) : Prop extends m.Extends m' where
  measured : ∀ it, m.Closed it → (m'.calls it).measured = (m.calls it).measured
  opened : ∀ it, m.nextRef ≤ it → it < m'.nextRef → (m'.calls it).label = 0
  pushed : m.StacksValid → ∀ it, ¬m.Closed it → m'.Closed it →
    it ∈ m'.execDataMap (m'.calls it).fid

/-- Every state completes itself. -/
theorem Completes.refl (self : ADEvent) : self.Completes self :=
  ⟨.refl self, fun _ _ => rfl, fun _ hle hlt => absurd hle (Nat.not_le_of_lt hlt),
    fun _ _ hnot h => absurd h hnot⟩

/-- What completes a completion of a state completes the state. -/
theorem Completes.trans {m₁ m₂ m₃ : ADEvent} (h : m₁.Completes m₂) (h' : m₂.Completes m₃) :
    m₁.Completes m₃ := by
  refine ⟨h.toExtends.trans h'.toExtends, fun it hit => ?_, fun it hle hlt => ?_,
    fun hstacks it hopen hclosed => ?_⟩
  · rw [h'.measured it (h.toExtends.closed it hit), h.measured it hit]
  · by_cases hlt₂ : it < m₂.nextRef
    · have hlabel := congrArg Prod.fst (h'.toExtends.labelOf it hlt₂)
      exact hlabel.trans (h.opened it hle hlt₂)
    · exact h'.opened it (Nat.le_of_not_lt hlt₂) hlt
  · by_cases hclosed₂ : m₂.Closed it
    · have hmem := h.pushed hstacks it hopen hclosed₂
      have hfid : (m₃.calls it).fid = (m₂.calls it).fid :=
        congrArg Prod.snd (h'.toExtends.labelOf it hclosed₂.1)
      obtain ⟨new, hmap, -⟩ :=
        h'.toExtends.execData (h.toExtends.stacksValid hstacks) (m₂.calls it).fid
      rw [hfid, hmap]
      exact List.mem_append_left _ hmem
    · exact h'.pushed (h.toExtends.stacksValid hstacks) it hclosed₂ hclosed

/-- A state with the same calls, call stacks and exec-data map. -/
theorem completes_of_eq {self self' : ADEvent} (hstack : self'.callStack = self.callStack)
    (hnext : self'.nextRef = self.nextRef) (hexec : self'.execDataMap = self.execDataMap)
    (hcalls : ∀ it, (self'.calls it).labelOf = (self.calls it).labelOf)
    (hmeasured : ∀ it, (self'.calls it).measured = (self.calls it).measured) :
    self.Completes self' := by
  refine ⟨extends_of_eq hstack hnext hexec hcalls, fun it _ => hmeasured it, fun it hle hlt => ?_,
    fun _ it hopen hclosed => ?_⟩
  · rw [hnext] at hlt
    exact absurd hle (Nat.not_le_of_lt hlt)
  · unfold Closed at hopen hclosed
    rw [hstack, hnext] at hclosed
    exact absurd hclosed hopen

/-- A state in which only indices differ is a completion. -/
theorem OnlyIndices.completes {self self' : ADEvent} (h : self.OnlyIndices self') :
    self.Completes self' := by
  obtain ⟨entry, exit, send, recv, rfl⟩ := h
  exact completes_of_eq rfl rfl rfl (fun _ => rfl) fun _ => rfl

/-- An entry opens a call without a label. -/
theorem completes_addEntry (self : ADEvent) (ev : Event) (funcName : String) :
    self.Completes (self.addEntry ev funcName) := by
  have hnext : (self.addEntry ev funcName).nextRef = self.nextRef + 1 := rfl
  have hnew : ∀ it, self.nextRef ≤ it → it < (self.addEntry ev funcName).nextRef →
      it = self.nextRef := by
    intro it hle hlt
    exact le_antisymm (Nat.le_of_lt_succ hlt) hle
  refine ⟨extends_addEntry self ev funcName, fun it hit => ?_, fun it hle hlt => ?_,
    fun _ it hopen hclosed => ?_⟩
  · exact proj_addEntry ExecData.measured (fun _ => rfl) self ev funcName (Nat.ne_of_lt hit.1)
  · rw [hnew it hle hlt]
    unfold addEntry
    simp only [Function.update_self]
    rfl
  · have hstack := hclosed.2
    rw [addEntry_callStack] at hstack
    have hold : ∀ thr, it ∉ self.callStack thr := by
      intro thr hmem
      by_cases hthr : thr = ev.thread
      · subst hthr
        have hnot := hstack ev.thread
        rw [Function.update_self] at hnot
        exact hnot (List.mem_cons_of_mem _ hmem)
      · have hnot := hstack thr
        rw [Function.update_of_ne hthr] at hnot
        exact hnot hmem
    have hlt : it < self.nextRef := by
      by_contra hle
      have hnot := hstack ev.thread
      rw [Function.update_self, hnew it (Nat.le_of_not_lt hle) hclosed.1] at hnot
      exact hnot List.mem_cons_self
    exact absurd ⟨hlt, hold⟩ hopen

/-- An exit closes the call on top of the call stack and puts it into the exec-data map. -/
theorem completes_endCall {self : ADEvent} {ev : Event} {it : CallRef} {d : ExecData}
    {stack : List CallRef} (hstack : self.callStack ev.thread = it :: stack)
    (hd : (self.calls it).updateExit ev = some d) :
    self.Completes (self.endCall ev it d stack) := by
  have hnext := endCall_nextRef self ev it d stack
  have hextends := extends_endCall hstack hd
  refine ⟨hextends, fun x hx => measured_endCall hstack d hx, fun x hle hlt => ?_,
    fun hvalid x hopen hclosed => ?_⟩
  · rw [hnext] at hlt
    exact absurd hle (Nat.not_le_of_lt hlt)
  · have hx : x = it := by
      by_contra hne
      apply hopen
      refine ⟨hnext ▸ hclosed.1, fun thr hmem => ?_⟩
      have hnot := hclosed.2 thr
      rw [endCall_callStack] at hnot
      by_cases hthr : thr = ev.thread
      · subst hthr
        rw [Function.update_self] at hnot
        rw [hstack] at hmem
        exact hnot ((List.mem_cons.mp hmem).resolve_left hne)
      · rw [Function.update_of_ne hthr] at hnot
        exact hnot hmem
    have hfid : (self.calls it).fid = ev.fid := (ExecData.labelOf_updateExit hd).2
    have htop : it < self.nextRef := hvalid.lt ev.thread it (hstack ▸ List.mem_cons_self)
    have hfid' : ((self.endCall ev it d stack).calls it).fid = ev.fid :=
      (congrArg Prod.snd (hextends.labelOf it htop)).trans hfid
    rw [hx, hfid', endCall_execDataMap, Function.update_self]
    exact List.mem_append_right _ List.mem_cons_self

/-- Adding an event closes at most one call, which is put into the exec-data map. -/
theorem completes_addEvent {self self' : ADEvent} {ev : Event} {err : EventError}
    (h : self.addEvent ev = .ok (self', err)) : self.Completes self' := by
  rw [addEvent] at h
  split at h
  · rcases addFunc_cases h with ⟨-, -, hindices⟩ | ⟨-, -, self₁, funcName, hindices, rfl⟩ |
      ⟨-, self₁, funcName, it, stack, d, -, hindices, -, hstack, hd, hmatch⟩
    · exact hindices.completes
    · exact hindices.completes.trans (completes_addEntry self₁ ev funcName)
    · have hrefs := forgetRefs_checkAndMatch hmatch
      exact (hindices.completes.trans (completes_endCall hstack hd)).trans (completes_of_eq
        (congrArg ADEvent.callStack hrefs :) (congrArg ADEvent.nextRef hrefs :)
        (congrArg ADEvent.execDataMap hrefs :)
        (fun it => (congrArg (fun m : ADEvent => (m.calls it).labelOf) hrefs :))
        (measured_of_forgetRefs hrefs))
  · rcases addComm_cases (Except.ok.inj h) with ⟨-, -, hindices⟩ | ⟨-, self₁, _, -, hindices, rfl⟩
    · exact hindices.completes
    · exact hindices.completes.trans (completes_of_eq rfl rfl rfl (fun _ => rfl) fun _ => rfl)
  · rcases addCounter_cases (Except.ok.inj h) with ⟨-, -, rfl⟩ | ⟨-, _, -, rfl⟩
    · exact .refl self'
    · exact completes_of_eq rfl rfl rfl (fun _ => rfl) fun _ => rfl

/-- The calls in the exec-data map are distinct closed calls of their functions, and calls that are
not closed have no label. -/
structure Executions (m : ADEvent) : Prop where
  stacksValid : m.StacksValid
  closed : ∀ fid, ∀ it ∈ m.execDataMap fid, m.Closed it ∧ (m.calls it).fid = fid
  nodup : ∀ fid, (m.execDataMap fid).Nodup
  unlabeled : ∀ it < m.nextRef, ¬m.Closed it → (m.calls it).label = 0

/-- A new event manager has no executions. -/
theorem executions_new : ADEvent.new.Executions := by
  refine ⟨⟨?_, fun _ => List.nodup_nil, ?_⟩, ?_, fun _ => List.nodup_nil, ?_⟩
  · intro _ _ h
    cases h
  · intro _ _ _ h
    cases h
  · intro _ _ h
    cases h
  · intro _ h
    cases h

/-- Completing calls keeps the executions in order. -/
theorem Executions.completes {m m' : ADEvent} (h : m.Executions) (h' : m.Completes m') :
    m'.Executions := by
  refine ⟨h'.stacksValid h.stacksValid, fun fid it hit => ?_, fun fid => ?_, fun it hlt hopen => ?_⟩
  · obtain ⟨new, hmap, -, hnew⟩ := h'.execData h.stacksValid fid
    rw [hmap] at hit
    rcases List.mem_append.mp hit with hold | hmem
    · obtain ⟨hclosed, hfid⟩ := h.closed fid it hold
      exact ⟨h'.closed it hclosed, (congrArg Prod.snd (h'.labelOf it hclosed.1)).trans hfid⟩
    · exact (hnew it hmem).2
  · obtain ⟨new, hmap, hnodup, hnew⟩ := h'.execData h.stacksValid fid
    rw [hmap, List.nodup_append']
    exact ⟨h.nodup fid, hnodup, fun it hold hmem => (hnew it hmem).1 (h.closed fid it hold).1⟩
  · by_cases hold : it < m.nextRef
    · have hlabel := congrArg Prod.fst (h'.labelOf it hold)
      exact hlabel.trans (h.unlabeled it hold fun hclosed => hopen (h'.closed it hclosed))
    · exact h'.opened it (Nat.le_of_not_lt hold) hlt

/-- States with the same call stacks and open calls, and with an exec-data map that is not
larger. -/
theorem Executions.of_sublist {m m' : ADEvent} (h : m.Executions)
    (hstack : m'.callStack = m.callStack) (hnext : m'.nextRef = m.nextRef)
    (hexec : ∀ fid, (m'.execDataMap fid).Sublist (m.execDataMap fid))
    (hfid : ∀ it, (m'.calls it).fid = (m.calls it).fid)
    (hlabel : ∀ it, ¬m.Closed it → (m'.calls it).label = (m.calls it).label) : m'.Executions := by
  have hclosed : ∀ it, m'.Closed it ↔ m.Closed it := by
    intro it
    unfold Closed
    rw [hstack, hnext]
  refine ⟨⟨?_, ?_, ?_⟩, fun fid it hit => ?_, fun fid => (h.nodup fid).sublist (hexec fid),
    fun it hlt hopen => ?_⟩
  · rw [hstack, hnext]
    exact h.stacksValid.lt
  · rw [hstack]
    exact h.stacksValid.nodup
  · rw [hstack]
    exact h.stacksValid.thread_eq
  · rw [hclosed, hfid]
    exact h.closed fid it ((hexec fid).subset hit)
  · rw [hclosed] at hopen
    rw [hlabel it hopen]
    exact h.unlabeled it (hnext ▸ hlt) hopen

end ADEvent

end Chimbuko
