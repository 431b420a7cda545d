import Chimbuko.AD.ADEventPurge
import Chimbuko.Library.CallForest

/-!
# The call forest of the event manager

Entry and exit events start and end calls of a call forest. Everything else that the event
manager does leaves the forest as it is, and matching correlation identifiers touches nothing but
the references and the partners of calls and the record of what waits for a partner.
-/

namespace Chimbuko

open TransitionSystem

namespace ExecData

/-- What concerns the call stack. -/
def node (d : ExecData) : CallForest.Node EventID Thread where
  id := d.id
  parent := d.parent
  thread := d.thread
  entry := d.entry
  exit := d.exit
  runtime := d.runtime
  exclusive := d.exclusive
  nChildren := d.nChildren

/-- Execution data without the references and partners. -/
def forgetRefs (d : ExecData) : ExecData :=
  { d with references := 0, gpuCorrelationIDpartner := [] }

/-- A partner is forgotten. -/
@[simp] theorem forgetRefs_setGPUcorrelationIDpartner (d : ExecData) (e : EventID) :
    (d.setGPUcorrelationIDpartner e).forgetRefs = d.forgetRefs := rfl

/-- A message does not change the node of a call. -/
@[simp] theorem node_addMessage (d : ExecData) (comm : CommData) :
    (d.addMessage comm).node = d.node := by
  rw [addMessage]
  split <;> rfl

/-- A counter does not change the node of a call. -/
@[simp] theorem node_addCounter (d : ExecData) (counter : CounterData) :
    (d.addCounter counter).node = d.node := by
  rw [addCounter]
  split <;> rfl

end ExecData

namespace ADEvent

/-- The calls and the open calls of each thread. -/
def forest (self : ADEvent) : CallForest EventID Thread where
  node x := (self.calls x).node
  size := self.nextRef
  stack := self.callStack

/-- The event manager without references, partners and protections. -/
def forgetRefs (self : ADEvent) : ADEvent :=
  { self with
    calls := fun x => (self.calls x).forgetRefs
    unmatchedCorrelationID := ∅
    stackLockedUnlabeled := ∅
    cidxCorrId := -1 }

/-- The forest does not depend on references, partners and protections. -/
theorem forest_congr {self self' : ADEvent} (h : self'.forgetRefs = self.forgetRefs) :
    self'.forest = self.forest := by
  have hforest : ∀ self : ADEvent, self.forgetRefs.forest = self.forest := fun _ => rfl
  rw [← hforest self', ← hforest self, h]

/-- Changing a call keeps what the change keeps. -/
theorem proj_modifyCall {β : Type} (g : ExecData → β) (self : ADEvent) {it x : CallRef}
    {f : ExecData → ExecData} (hf : x = it → g (f (self.calls it)) = g (self.calls it)) :
    g ((self.modifyCall it f).calls x) = g (self.calls x) := by
  rw [modifyCall_calls]
  by_cases hx : x = it
  · rw [hx, Function.update_self, hf hx]
  · rw [Function.update_of_ne hx]

/-- Changing references and partners of a call changes nothing else. -/
theorem forgetRefs_modifyCall (self : ADEvent) (it : CallRef) {f : ExecData → ExecData}
    (hf : (f (self.calls it)).forgetRefs = (self.calls it).forgetRefs) :
    (self.modifyCall it f).forgetRefs = self.forgetRefs := by
  have hcalls : (fun x => ((self.modifyCall it f).calls x).forgetRefs) =
      fun x => (self.calls x).forgetRefs :=
    funext fun x => proj_modifyCall ExecData.forgetRefs self fun _ => hf
  rw [forgetRefs, forgetRefs, hcalls]
  rfl

/-- The event manager with other reference counts. -/
def withRefs (self : ADEvent) (refs : CallRef → ℕ) : ADEvent :=
  { self with calls := fun x => { self.calls x with references := refs x } }

/-- The calls only get their references. -/
@[simp] theorem withRefs_calls (self : ADEvent) (refs : CallRef → ℕ) (x : CallRef) :
    (self.withRefs refs).calls x = { self.calls x with references := refs x } := rfl

/-- The references are the given ones. -/
@[simp] theorem withRefs_references (self : ADEvent) (refs : CallRef → ℕ) (x : CallRef) :
    ((self.withRefs refs).calls x).references = refs x := rfl

/-- Registering a reference adds one to the references of the call. -/
theorem registerReference_eq (self : ADEvent) (it : CallRef) : self.registerReference it =
    self.withRefs fun y => (self.calls y).references + [it].count y := by
  have hcalls : (self.registerReference it).calls = (self.withRefs fun y =>
      (self.calls y).references + [it].count y).calls := by
    funext y
    by_cases hy : y = it
    · subst hy
      rw [registerReference, modifyCall_calls, Function.update_self, withRefs_calls,
        List.count_singleton_self]
      rfl
    · rw [registerReference, modifyCall_calls, Function.update_of_ne hy, withRefs_calls,
        List.count_singleton, if_neg (by simpa using Ne.symm hy)]
      rfl
  exact congrArg (fun calls => { self with calls := calls }) hcalls

/-- Registering counts every reference. -/
theorem registerAll_eq (covers : List CallRef) (self : ADEvent) :
    covers.foldl registerReference self =
      self.withRefs fun y => (self.calls y).references + covers.count y := by
  induction covers generalizing self with
  | nil => rfl
  | cons x rest ih =>
    rw [List.foldl_cons, ih, registerReference_eq]
    refine congrArg self.withRefs (funext fun y => ?_)
    rw [withRefs_references, add_assoc, ← List.count_append]
    rfl

/-- A reference that is there can be taken back. -/
theorem deregisterReference_eq {self self' : ADEvent} {it : CallRef} :
    self.deregisterReference it = .ok self' ↔ 0 < (self.calls it).references ∧
      self' = self.withRefs fun y => (self.calls y).references - [it].count y := by
  have hcalls : (self.modifyCall it fun d => { d with references := d.references - 1 }).calls =
      (self.withRefs fun y => (self.calls y).references - [it].count y).calls := by
    funext y
    by_cases hy : y = it
    · subst hy
      rw [modifyCall_calls, Function.update_self, withRefs_calls, List.count_singleton_self]
    · rw [modifyCall_calls, Function.update_of_ne hy, withRefs_calls, List.count_singleton,
        if_neg (by simpa using Ne.symm hy)]
      rfl
  have hself := congrArg (fun calls => { self with calls := calls }) hcalls
  rw [deregisterReference, ExecData.deregisterReference]
  by_cases hzero : (self.calls it).references = 0
  · rw [if_pos hzero, hzero]
    exact iff_of_false (fun h => nomatch h) fun h => lt_irrefl 0 h.1
  · rw [if_neg hzero]
    refine ⟨fun h => ⟨Nat.pos_of_ne_zero hzero, (Except.ok.inj h).symm.trans hself⟩, fun h => ?_⟩
    rw [h.2]
    exact congrArg Except.ok hself

/-- Deregistering succeeds if and only if there are enough references, and takes them back. -/
theorem deregisterAll_eq {covers : List CallRef} {self self' : ADEvent} :
    covers.foldlM deregisterReference self = .ok self' ↔
      (∀ y, covers.count y ≤ (self.calls y).references) ∧
      self' = self.withRefs fun y => (self.calls y).references - covers.count y := by
  induction covers generalizing self with
  | nil => exact ⟨fun h => ⟨fun y => Nat.zero_le _, (Except.ok.inj h).symm⟩,
      fun h => congrArg Except.ok h.2.symm⟩
  | cons x rest ih =>
    have hcount : ∀ y, (x :: rest).count y = [x].count y + rest.count y := fun y => by
      rw [← List.count_append, List.singleton_append]
    have hself : [x].count x = 1 := List.count_singleton_self
    rw [List.foldlM_cons]
    constructor
    · intro h
      cases hx : self.deregisterReference x with
      | error e =>
        rw [hx] at h
        cases h
      | ok self₁ =>
        rw [hx] at h
        obtain ⟨hpos, rfl⟩ := deregisterReference_eq.mp hx
        obtain ⟨hle, rfl⟩ := ih.mp h
        refine ⟨fun y => ?_, congrArg self.withRefs (funext fun y => ?_)⟩
        · have hy := hle y
          rw [withRefs_references] at hy
          rw [hcount]
          by_cases hxy : y = x
          · subst hxy
            omega
          · rw [List.count_singleton, if_neg (by simpa using Ne.symm hxy)] at hy ⊢
            omega
        · rw [withRefs_references, hcount, Nat.sub_add_eq]
    · rintro ⟨hle, rfl⟩
      have hpos : 0 < (self.calls x).references := by
        have := hle x
        rw [hcount] at this
        omega
      rw [deregisterReference_eq.mpr ⟨hpos, rfl⟩]
      refine ih.mpr ⟨fun y => ?_, congrArg self.withRefs (funext fun y => ?_)⟩
      · have hy := hle y
        rw [hcount] at hy
        rw [withRefs_references]
        omega
      · rw [withRefs_references, hcount, Nat.sub_add_eq]

/-- Setting references changes nothing else. -/
theorem forgetRefs_withRefs (self : ADEvent) (refs : CallRef → ℕ) :
    (self.withRefs refs).forgetRefs = self.forgetRefs := rfl

/-- Protecting a stack only changes references. -/
theorem forgetRefs_stackProtectGC (self : ADEvent) (it : CallRef) :
    (self.stackProtectGC it).1.forgetRefs = self.forgetRefs := by
  change ((self.coveredCalls it).foldl registerReference self).forgetRefs = _
  rw [registerAll_eq, forgetRefs_withRefs]

/-- Lifting a protection only changes references. -/
theorem forgetRefs_stackUnProtectGC {self self' : ADEvent} {it : CallRef}
    (h : self.stackUnProtectGC it = .ok self') : self'.forgetRefs = self.forgetRefs := by
  rw [(deregisterAll_eq.mp h).2, forgetRefs_withRefs]

/-- Setting partners only changes partners. -/
theorem forgetRefs_setPartners (self : ADEvent) (it partner : CallRef) :
    (self.setPartners it partner).forgetRefs = self.forgetRefs :=
  (forgetRefs_modifyCall _ partner rfl).trans (forgetRefs_modifyCall self it rfl)

/-- What matching one counter can do: nothing, lift the protection of the call that waits for the
identifier, or protect the call and let it wait. -/
theorem matchCorrelationID_cases {it : CallRef} {self self' : ADEvent} {c : CounterData}
    (h : matchCorrelationID it self c = .ok self') :
    self.isCorrelationID c = false ∧ self' = self ∨
    self.isCorrelationID c = true ∧ (∃ p self₁,
      self.unmatchedCorrelationID.lookup c.value = some p ∧
      self.callIDMap (self.calls p.start).id ≠ none ∧
      (({ self with cidxCorrId := toInt c.cid }).setPartners it p.start).stackUnProtectGC p.start =
        .ok self₁ ∧
      self' = { self₁ with
        unmatchedCorrelationID := self₁.unmatchedCorrelationID.erase c.value }) ∨
    self.isCorrelationID c = true ∧ self.unmatchedCorrelationID.lookup c.value = none ∧
      ∃ self₁ p, ({ self with cidxCorrId := toInt c.cid }).stackProtectGC it = (self₁, p) ∧
        self' = { self₁ with
          unmatchedCorrelationID := self₁.unmatchedCorrelationID.insert c.value p } := by
  rw [matchCorrelationID] at h
  by_cases hc : self.isCorrelationID c = true
  · rw [if_pos hc] at h
    refine Or.inr ?_
    cases hlookup : self.unmatchedCorrelationID.lookup c.value with
    | none =>
      simp only [hlookup] at h
      exact Or.inr ⟨hc, rfl, _, _, rfl, (Except.ok.inj h).symm⟩
    | some p =>
      simp only [hlookup] at h
      refine Or.inl ⟨hc, p, ?_⟩
      by_cases halive : self.callIDMap (self.calls p.start).id = none
      · rw [if_pos halive] at h
        cases h
      · rw [if_neg halive] at h
        cases hun : (({ self with cidxCorrId := toInt c.cid }).setPartners it
            p.start).stackUnProtectGC p.start with
        | error e =>
          rw [hun] at h
          cases h
        | ok self₁ =>
          rw [hun] at h
          exact ⟨self₁, rfl, halive, rfl, (Except.ok.inj h).symm⟩
  · rw [if_neg hc] at h
    exact Or.inl ⟨by simpa using hc, (Except.ok.inj h).symm⟩

/-- The waiting correlation identifiers are forgotten. -/
theorem forgetRefs_unmatched (self : ADEvent) (unmatched : AList fun _ : ℕ => Protection) :
    ({ self with unmatchedCorrelationID := unmatched }).forgetRefs = self.forgetRefs := rfl

/-- The counter of correlation identifiers is forgotten. -/
theorem forgetRefs_cidxCorrId (self : ADEvent) (cidx : ℤ) :
    ({ self with cidxCorrId := cidx }).forgetRefs = self.forgetRefs := rfl

/-- Matching a correlation identifier only changes what is forgotten. -/
theorem forgetRefs_matchCorrelationID {it : CallRef} {self self' : ADEvent} {c : CounterData}
    (h : matchCorrelationID it self c = .ok self') : self'.forgetRefs = self.forgetRefs := by
  rcases matchCorrelationID_cases h with ⟨-, rfl⟩ | ⟨-, p, self₁, -, -, hun, rfl⟩ |
    ⟨-, -, self₁, p, hprotect, rfl⟩
  · rfl
  · rw [forgetRefs_unmatched, forgetRefs_stackUnProtectGC hun, forgetRefs_setPartners,
      forgetRefs_cidxCorrId]
  · have h₁ := forgetRefs_stackProtectGC { self with cidxCorrId := toInt c.cid } it
    rw [hprotect] at h₁
    rw [forgetRefs_unmatched, h₁, forgetRefs_cidxCorrId]

/-- Matching correlation identifiers touches nothing but references, partners and protections. -/
theorem forgetRefs_checkAndMatch {self self' : ADEvent} {it : CallRef}
    (h : self.checkAndMatchCorrelationID it = .ok self') :
    self'.forgetRefs = self.forgetRefs := by
  rw [checkAndMatchCorrelationID] at h
  split at h
  · cases h
    rfl
  · exact foldlM_invariant (P := fun manager => manager.forgetRefs = self.forgetRefs)
      (fun _ _ _ hs hmatch => (forgetRefs_matchCorrelationID hmatch).trans hs) _ rfl h

/-- Changing a call changes its node. -/
theorem forest_modifyCall (self : ADEvent) (it : CallRef) (f : ExecData → ExecData) :
    (self.modifyCall it f).forest =
      self.forest.modify it fun _ => (f (self.calls it)).node := by
  have hnode : (fun x => ((self.modifyCall it f).calls x).node) =
      Function.update (fun x => (self.calls x).node) it (f (self.calls it)).node := by
    funext x
    by_cases hx : x = it
    · subst hx
      rw [modifyCall_calls, Function.update_self, Function.update_self]
    · rw [modifyCall_calls, Function.update_of_ne hx, Function.update_of_ne hx]
  rw [forest, hnode]
  rfl

/-- Flushing a stack keeps what each element keeps. -/
theorem proj_flushStack {α β : Type} (g : ExecData → β) (ts : α → ℕ) (exit : ℕ)
    {accept : ExecData → α → ExecData} (haccept : ∀ d a, g (accept d a) = g d) (xs : List α)
    (d : ExecData) : g (flushStack ts exit accept xs d).1 = g d := by
  induction xs generalizing d with
  | nil => rfl
  | cons top rest ih =>
    rw [flushStack]
    split
    · rfl
    split
    · exact ih d
    · exact (ih _).trans (haccept d top)

/-- Attaching messages leaves what messages do not change. -/
theorem proj_attachComms {β : Type} (g : ExecData → β)
    (hmessage : ∀ d comm, g (ExecData.addMessage d comm) = g d) (self : ADEvent) (it : CallRef)
    (ev : Event) (x : CallRef) : g ((self.attachComms it ev).calls x) = g (self.calls x) := by
  change g ((self.modifyCall it fun _ => (flushStack CommData.ts ev.ts ExecData.addMessage
    (self.commStack ev.thread) (self.calls it)).1).calls x) = _
  exact proj_modifyCall g self fun _ => proj_flushStack g CommData.ts ev.ts hmessage _ _

/-- Attaching counters leaves what counters do not change. -/
theorem proj_attachCounters {β : Type} (g : ExecData → β)
    (hcounter : ∀ d counter, g (ExecData.addCounter d counter) = g d) (self : ADEvent)
    (it : CallRef) (ev : Event) (x : CallRef) :
    g ((self.attachCounters it ev).calls x) = g (self.calls x) := by
  change g ((self.modifyCall it fun _ => (flushStack CounterData.ts ev.ts ExecData.addCounter
    (self.counterStack ev.thread) (self.calls it)).1).calls x) = _
  exact proj_modifyCall g self fun _ => proj_flushStack g CounterData.ts ev.ts hcounter _ _

/-- Attaching messages leaves the forest. -/
theorem forest_attachComms (self : ADEvent) (it : CallRef) (ev : Event) :
    (self.attachComms it ev).forest = self.forest := by
  have hnode : (fun x => ((self.attachComms it ev).calls x).node) =
      fun x => (self.calls x).node :=
    funext (proj_attachComms ExecData.node ExecData.node_addMessage self it ev)
  rw [forest, hnode]
  rfl

/-- Attaching counters leaves the forest. -/
theorem forest_attachCounters (self : ADEvent) (it : CallRef) (ev : Event) :
    (self.attachCounters it ev).forest = self.forest := by
  have hnode : (fun x => ((self.attachCounters it ev).calls x).node) =
      fun x => (self.calls x).node :=
    funext (proj_attachCounters ExecData.node ExecData.node_addCounter self it ev)
  rw [forest, hnode]
  rfl

/-- An entry event starts a call. -/
theorem forest_addEntry (self : ADEvent) (ev : Event) (funcName : String) :
    (self.addEntry ev funcName).forest =
      self.forest.push EventID.root ev.id ev.thread (toLong ev.ts) := by
  have hparent : ((self.callStack ev.thread).head?.map fun top => (self.calls top).id) =
      (self.forest.stack ev.thread).head?.map fun top => (self.forest.node top).id := rfl
  have hupdate : ∀ (calls : CallRef → ExecData) (x : CallRef) (d : ExecData),
      (fun y => (Function.update calls x d y).node) =
        Function.update (fun y => (calls y).node) x d.node := by
    intro calls x d
    funext y
    by_cases hy : y = x
    · subst hy
      rw [Function.update_self, Function.update_self]
    · rw [Function.update_of_ne hy, Function.update_of_ne hy]
  rw [addEntry, CallForest.push, forest]
  simp only [hupdate]
  cases hstack : self.callStack ev.thread with
  | nil =>
    have hstack' : self.forest.stack ev.thread = [] := hstack
    rw [hstack']
    rfl
  | cons top rest =>
    have hstack' : self.forest.stack ev.thread = top :: rest := hstack
    rw [hstack']
    simp only [modifyCall_calls, hupdate]
    rfl

/-- An exit event ends a call. -/
theorem forest_popCall (self : ADEvent) (thr : Thread) (it : CallRef) (exit : ℕ)
    (stack : List CallRef) :
    (self.popCall thr it ((self.calls it).updateExitAt exit) stack).forest =
      self.forest.pop thr it stack (toLong exit) := by
  have hclose : ({ self.modifyCall it (fun _ => (self.calls it).updateExitAt exit) with
      callStack := Function.update self.callStack thr stack }).forest =
        self.forest.close thr it stack (toLong exit) := by
    have h := forest_modifyCall self it fun _ => (self.calls it).updateExitAt exit
    exact congrArg (fun F : CallForest EventID Thread =>
      { F with stack := Function.update self.callStack thr stack }) h
  cases stack with
  | nil => exact hclose
  | cons top rest =>
    rw [popCall, CallForest.pop]
    simp only
    rw [forest_modifyCall, hclose, CallForest.modify, CallForest.modify, ← hclose]
    rfl

/-- Lifting a lock touches nothing but references and the locks. -/
theorem unlockLabeled_cases {self self' : ADEvent} {it : CallRef}
    (h : self.unlockLabeled it = .ok self') :
    self' = self ∧ ((self.calls it).label ≠ 0 →
      self.stackLockedUnlabeled.lookup (self.calls it).id = none) ∨
    (self.calls it).label ≠ 0 ∧ (∃ p,
      self.stackLockedUnlabeled.lookup (self.calls it).id = some p) ∧
      ∃ self₁, self.stackUnProtectGC it = .ok self₁ ∧ self' = { self₁ with
        stackLockedUnlabeled := self₁.stackLockedUnlabeled.erase (self.calls it).id } := by
  rw [unlockLabeled] at h
  split at h
  · rename_i hlocked
    obtain ⟨hlabel, hsome⟩ := hlocked
    cases hun : self.stackUnProtectGC it with
    | error e =>
      rw [hun] at h
      cases h
    | ok self₁ =>
      rw [hun] at h
      exact Or.inr ⟨hlabel, Option.isSome_iff_exists.mp hsome, self₁, rfl,
        (Except.ok.inj h).symm⟩
  · rename_i hnot
    refine Or.inl ⟨(Except.ok.inj h).symm, fun hlabel => ?_⟩
    rw [Option.eq_none_iff_forall_ne_some]
    exact fun p hp => hnot ⟨hlabel, Option.isSome_iff_exists.mpr ⟨p, hp⟩⟩

/-- Unlocking a labeled call leaves the forest. -/
theorem forest_unlockLabeled {self self' : ADEvent} {it : CallRef}
    (h : self.unlockLabeled it = .ok self') : self'.forest = self.forest := by
  rcases unlockLabeled_cases h with ⟨rfl, -⟩ | ⟨-, -, self₁, hun, rfl⟩
  · rfl
  · have hforest : self₁.forest = self.forest := forest_congr (forgetRefs_stackUnProtectGC hun)
    exact hforest

/-- Locking an unlabeled call leaves the forest. -/
theorem forest_lockUnlabeled (self : ADEvent) (it : CallRef) :
    (self.lockUnlabeled it).forest = self.forest :=
  forest_congr (forgetRefs_stackProtectGC self it)

/-- Visiting a call in a sweep leaves the forest. -/
theorem forest_purgeCall {self self' : ADEvent} {report report' : PurgeReport} {thr : Thread}
    {it : CallRef} (h : self.purgeCall report thr it = .ok (self', report')) :
    self'.forest = self.forest := by
  obtain ⟨self₁, hunlock, hcase⟩ := purgeCall_cases h
  rw [← forest_unlockLabeled hunlock]
  rcases hcase with ⟨rfl, -⟩ | ⟨rfl, -⟩ | rfl
  · rfl
  · exact forest_lockUnlabeled self₁ it
  · rfl

/-- Purging the call list leaves the call forest as it is. -/
theorem forest_purgeCallList {self self' : ADEvent} {threads : List Thread} {nKeepThread : ℕ}
    {report : PurgeReport} (h : self.purgeCallList threads nKeepThread = .ok (self', report)) :
    self'.forest = self.forest :=
  purgeCallList_invariant (P := fun manager => manager.forest = self.forest)
    (fun hself hcall => (forest_purgeCall hcall).trans hself) (fun hself => hself) rfl h

end ADEvent

end Chimbuko
