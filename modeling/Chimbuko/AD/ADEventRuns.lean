import Chimbuko.AD.ADEventForest
import Chimbuko.AD.ADEventPurge
import Chimbuko.Library.TransitionSystem

/-!
# Runs of the event manager

What each event can do, and the event manager as a system: events are added, completed calls are
labeled by the anomaly detection, and the call list is purged, in any order. An event that is
refused changes nothing but which event indices are known.
-/

namespace Chimbuko

open TransitionSystem

namespace ADEvent

/-- A state that differs in the known event indices only. -/
def OnlyIndices (self self' : ADEvent) : Prop :=
  ∃ entry exit send recv, self' = { self with
    eidxFuncEntry := entry, eidxFuncExit := exit, eidxCommSend := send, eidxCommRecv := recv }

/-- Nothing differs from itself. -/
theorem onlyIndices_self (self : ADEvent) : self.OnlyIndices self :=
  ⟨_, _, _, _, rfl⟩

/-- The forest does not depend on indices. -/
theorem OnlyIndices.forest {self self' : ADEvent} (h : self.OnlyIndices self') :
    self'.forest = self.forest := by
  obtain ⟨entry, exit, send, recv, rfl⟩ := h
  rfl

/-- Finding the kind of a function event changes indices only. -/
theorem funcEventKind_indices {self self' : ADEvent} {eventType : AList fun _ : ℤ => String}
    {eid : ℤ} {kind : FuncEventType}
    (h : self.funcEventKind eventType eid = some (self', kind)) : self.OnlyIndices self' := by
  rw [funcEventKind] at h
  split at h
  · cases h
    exact onlyIndices_self self
  split at h
  · cases h
    exact onlyIndices_self self
  split at h
  · cases h
  split at h
  · cases h
    exact ⟨_, _, _, _, rfl⟩
  split at h
  · cases h
    exact ⟨_, _, _, _, rfl⟩
  · cases h
    exact onlyIndices_self self

/-- Finding the kind of a message event changes indices only. -/
theorem commEventKind_indices {self self' : ADEvent} {eventType : AList fun _ : ℤ => String}
    {eid : ℤ} {commType : Option String}
    (h : self.commEventKind eventType eid = some (self', commType)) : self.OnlyIndices self' := by
  rw [commEventKind] at h
  split at h
  · cases h
    exact onlyIndices_self self
  split at h
  · cases h
    exact onlyIndices_self self
  split at h
  · cases h
  split at h
  · cases h
    exact ⟨_, _, _, _, rfl⟩
  split at h
  · cases h
    exact ⟨_, _, _, _, rfl⟩
  · cases h
    exact onlyIndices_self self

/-- The message that a communication event brings, unless it is refused. -/
def acceptedComm (self : ADEvent) (ev : Event) : Option CommData :=
  match self.eventType with
  | none => none
  | some eventType =>
    match self.commEventKind eventType (toInt ev.eid) with
    | some (_, some commType) => some (CommData.ofEvent ev commType)
    | _ => none

/-- The counter that a counter event brings, unless it is refused. -/
def acceptedCounter (self : ADEvent) (ev : Event) : Option CounterData :=
  match self.counterMap with
  | none => none
  | some counterMap => (findInt counterMap ev.counterId).map (CounterData.ofEvent ev)

/-- The call that a function event ends, if it ends one. -/
def endedCall (self : ADEvent) (ev : Event) : Option CallRef :=
  match (self.resolveFunc ev).2, self.callStack ev.thread with
  | .ok (.EXIT, _), it :: _ => ((self.calls it).updateExit ev).map fun _ => it
  | _, _ => none

/-- What an exit event can do: it is refused, or it ends the call on top of the stack. -/
theorem addExit_cases {self self' : ADEvent} {ev : Event} {err : EventError}
    (h : self.addExit ev = .ok (self', err)) :
    err ≠ .OK ∧ self' = self ∧
      (∀ it stack, self.callStack ev.thread = it :: stack → (self.calls it).updateExit ev = none) ∨
    err = .OK ∧ ∃ it stack d, self.callStack ev.thread = it :: stack ∧
      (self.calls it).updateExit ev = some d ∧
      (self.endCall ev it d stack).checkAndMatchCorrelationID it = .ok self' := by
  rw [addExit] at h
  cases hstack : self.callStack ev.thread with
  | nil =>
    simp only [hstack] at h
    cases h
    exact Or.inl ⟨by decide, rfl, fun _ _ h => by cases h⟩
  | cons it stack =>
    simp only [hstack] at h
    cases hd : (self.calls it).updateExit ev with
    | none =>
      simp only [hd] at h
      cases h
      refine Or.inl ⟨by decide, rfl, fun it' stack' h => ?_⟩
      cases h
      exact hd
    | some d =>
      simp only [hd] at h
      cases hmatch : (self.endCall ev it d stack).checkAndMatchCorrelationID it with
      | error e =>
        rw [hmatch] at h
        cases h
      | ok self₁ =>
        rw [hmatch] at h
        cases h
        exact Or.inr ⟨rfl, it, stack, d, rfl, hd, hmatch⟩

/-- Resolving a function event changes nothing but the known event indices, and refuses it with
an error. -/
theorem resolveFunc_cases {self self' : ADEvent} {ev : Event}
    {result : Except EventError (FuncEventType × String)}
    (h : self.resolveFunc ev = (self', result)) :
    self.OnlyIndices self' ∧ ∀ err, result = .error err → err ≠ .OK := by
  rw [resolveFunc] at h
  cases htypes : self.eventType with
  | none =>
    rw [htypes] at h
    cases h
    exact ⟨onlyIndices_self self, fun err herr => by cases herr; decide⟩
  | some eventType =>
  rw [htypes] at h
  simp only at h
  cases hkind : self.funcEventKind eventType (toInt ev.eid) with
  | none =>
    rw [hkind] at h
    cases h
    exact ⟨onlyIndices_self self, fun err herr => by cases herr; decide⟩
  | some found =>
  obtain ⟨self₁, kind⟩ := found
  have hindices := funcEventKind_indices hkind
  rw [hkind] at h
  simp only at h
  cases hfuncs : self₁.funcMap with
  | none =>
    rw [hfuncs] at h
    cases h
    exact ⟨hindices, fun err herr => by cases herr; decide⟩
  | some funcMap =>
  rw [hfuncs] at h
  simp only at h
  cases hname : findInt funcMap ev.fid with
  | none =>
    rw [hname] at h
    cases h
    exact ⟨hindices, fun err herr => by cases herr; decide⟩
  | some funcName =>
    rw [hname] at h
    cases h
    exact ⟨hindices, fun err herr => by cases herr⟩

/-- What a function event can do: it is refused, it starts a call, or it ends one. -/
theorem addFunc_cases {self self' : ADEvent} {ev : Event} {err : EventError}
    (h : self.addFunc ev = .ok (self', err)) :
    err ≠ .OK ∧ self.endedCall ev = none ∧ self.OnlyIndices self' ∨
    err = .OK ∧ self.endedCall ev = none ∧
      (∃ self₁ funcName, self.OnlyIndices self₁ ∧ self' = self₁.addEntry ev funcName) ∨
    err = .OK ∧ ∃ self₁ funcName it stack d, self.endedCall ev = some it ∧
      self.OnlyIndices self₁ ∧ self.resolveFunc ev = (self₁, .ok (.EXIT, funcName)) ∧
      self₁.callStack ev.thread = it :: stack ∧ (self₁.calls it).updateExit ev = some d ∧
      (self₁.endCall ev it d stack).checkAndMatchCorrelationID it = .ok self' := by
  rw [addFunc] at h
  cases hresolve : self.resolveFunc ev with
  | mk self₁ result =>
  obtain ⟨hindices, herror⟩ := resolveFunc_cases hresolve
  rw [hresolve] at h
  cases result with
  | error err =>
    cases h
    exact Or.inl ⟨herror _ rfl, by rw [endedCall, hresolve], hindices⟩
  | ok found =>
  obtain ⟨kind, funcName⟩ := found
  cases kind with
  | ENTRY =>
    cases h
    exact Or.inr (Or.inl ⟨rfl, by rw [endedCall, hresolve], self₁, funcName, hindices, rfl⟩)
  | EXIT =>
    have hsame : self.callStack = self₁.callStack ∧ self.calls = self₁.calls := by
      obtain ⟨entry, exit, send, recv, rfl⟩ := hindices
      exact ⟨rfl, rfl⟩
    rcases addExit_cases h with ⟨herr, rfl, hnone⟩ | ⟨herr, it, stack, d, hcall, hd, hmatch⟩
    · refine Or.inl ⟨herr, ?_, hindices⟩
      rw [endedCall, hresolve, hsame.1, hsame.2]
      cases hcall : self'.callStack ev.thread with
      | nil => rfl
      | cons it stack => simp [hnone it stack hcall]
    · refine Or.inr (Or.inr ⟨herr, self₁, funcName, it, stack, d, ?_, hindices, rfl, hcall, hd,
        hmatch⟩)
      rw [endedCall, hresolve, hsame.1, hsame.2, hcall]
      simp [hd]
  | NA =>
    cases h
    exact Or.inl ⟨by decide, by rw [endedCall, hresolve], hindices⟩

/-- A communication event is refused, or its message is put on the stack of its thread. -/
theorem addComm_cases {self self' : ADEvent} {ev : Event} {err : EventError}
    (h : self.addComm ev = (self', err)) :
    err ≠ .OK ∧ self.acceptedComm ev = none ∧ self.OnlyIndices self' ∨
    err = .OK ∧ ∃ self₁ commType, self.acceptedComm ev = some (CommData.ofEvent ev commType) ∧
      self.OnlyIndices self₁ ∧ self' = { self₁ with
        commStack := Function.update self₁.commStack ev.thread
          (CommData.ofEvent ev commType :: self₁.commStack ev.thread) } := by
  rw [addComm] at h
  rw [acceptedComm]
  cases htypes : self.eventType with
  | none =>
    rw [htypes] at h
    cases h
    exact Or.inl ⟨by decide, rfl, onlyIndices_self self⟩
  | some eventType =>
  rw [htypes] at h
  simp only at h ⊢
  cases hkind : self.commEventKind eventType (toInt ev.eid) with
  | none =>
    rw [hkind] at h
    cases h
    exact Or.inl ⟨by decide, rfl, onlyIndices_self self⟩
  | some result =>
  obtain ⟨self₁, commType⟩ := result
  have hindices := commEventKind_indices hkind
  rw [hkind] at h
  cases commType with
  | none =>
    cases h
    exact Or.inl ⟨by decide, rfl, hindices⟩
  | some commType =>
    cases h
    exact Or.inr ⟨rfl, self₁, commType, rfl, hindices, rfl⟩

/-- A counter event is refused, or its counter is put on the stack of its thread. -/
theorem addCounter_cases {self self' : ADEvent} {ev : Event} {err : EventError}
    (h : self.addCounter ev = (self', err)) :
    err ≠ .OK ∧ self.acceptedCounter ev = none ∧ self' = self ∨
    err = .OK ∧ ∃ counterName, self.acceptedCounter ev = some (CounterData.ofEvent ev counterName) ∧
      self' = { self with
        counterStack := Function.update self.counterStack ev.thread
          (CounterData.ofEvent ev counterName :: self.counterStack ev.thread) } := by
  rw [addCounter] at h
  rw [acceptedCounter]
  cases hmap : self.counterMap with
  | none =>
    rw [hmap] at h
    cases h
    exact Or.inl ⟨by decide, rfl, rfl⟩
  | some counterMap =>
  rw [hmap] at h
  simp only at h ⊢
  cases hname : findInt counterMap ev.counterId with
  | none =>
    rw [hname] at h
    cases h
    exact Or.inl ⟨by decide, rfl, rfl⟩
  | some counterName =>
    rw [hname] at h
    cases h
    exact Or.inr ⟨rfl, counterName, rfl, rfl⟩

/-- An event that is refused changes nothing but the known event indices. -/
theorem addEvent_refused {self self' : ADEvent} {ev : Event} {err : EventError}
    (h : self.addEvent ev = .ok (self', err)) (herr : err ≠ .OK) : self.OnlyIndices self' := by
  rw [addEvent] at h
  split at h
  · rcases addFunc_cases h with ⟨-, -, hindices⟩ | ⟨hok, -⟩ | ⟨hok, -⟩
    · exact hindices
    · exact absurd hok herr
    · exact absurd hok herr
  · rcases addComm_cases (Except.ok.inj h) with ⟨-, -, hindices⟩ | ⟨hok, -⟩
    · exact hindices
    · exact absurd hok herr
  · rcases addCounter_cases (Except.ok.inj h) with ⟨-, -, heq⟩ | ⟨hok, -⟩
    · exact heq ▸ onlyIndices_self self
    · exact absurd hok herr

/-- A call that has ended. -/
def Completed (self : ADEvent) (x : CallRef) : Prop :=
  x < self.nextRef ∧ x ∉ self.callStack (self.calls x).thread

instance (self : ADEvent) (x : CallRef) : Decidable (self.Completed x) :=
  inferInstanceAs (Decidable (_ ∧ _))

end ADEvent

/-- An event manager, the latest time of each thread, and the identifiers of the function events
and calls so far. -/
structure EventSystem where
  manager : ADEvent
  lastTs : Thread → ℕ
  ids : List EventID

/-- The maps that the parser fills are linked, a function's correlation identifiers are ignored,
an event or a complete call is added, a call is labeled, or the call list is purged. -/
inductive EventAction
  | link (funcMap eventType counterMap : Option (AList fun _ : ℤ => String))
      (gpuThreadMap : Option (List ℕ))
  | ignoreCorrelationIDsForFunction (func : String)
  | addEvent (ev : Event)
  | addCall (exec : ExecData)
  | setLabel (it : CallRef) (label : ℤ)
  | purgeCallList (threads : List Thread) (nKeepThread : ℕ)

namespace EventSystem

/-- No event was added yet. -/
def start : EventSystem := { manager := ADEvent.new, lastTs := fun _ => 0, ids := [] }

/-- What an action does. -/
def exec (s : EventSystem) : EventAction → Except String EventSystem
  | .link funcMap eventType counterMap gpuThreadMap =>
    pure { s with manager := { s.manager with
      funcMap := funcMap, eventType := eventType, counterMap := counterMap,
      gpuThreadMap := gpuThreadMap } }
  | .ignoreCorrelationIDsForFunction func =>
    pure { s with manager := { s.manager with
      ignoreCorrelationID := func :: s.manager.ignoreCorrelationID } }
  | .addEvent ev => do
    let (manager, _) ← s.manager.addEvent ev
    pure { manager := manager
           lastTs := Function.update s.lastTs ev.thread ev.ts
           ids := if ev.type = .FUNC then ev.id :: s.ids else s.ids }
  | .addCall exec => do
    let manager ← s.manager.addCall exec
    pure { s with manager := manager, ids := exec.id :: s.ids }
  | .setLabel it label =>
    pure { s with manager := s.manager.modifyCall it fun d => d.setLabel label }
  | .purgeCallList threads nKeepThread => do
    let (manager, _) ← s.manager.purgeCallList threads nKeepThread
    pure { s with manager := manager }

end EventSystem

end Chimbuko
