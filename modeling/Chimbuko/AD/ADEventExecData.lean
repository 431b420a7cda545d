import Chimbuko.AD.ADEventRuns

/-!
# The exec-data map

A call is put into the exec-data map once, when it leaves the call stack, and stays there until a
purge finds it labeled. Adding events labels no call.
-/

namespace Chimbuko

open TransitionSystem

namespace ExecData

/-- The label of a call and its function. -/
def labelOf (d : ExecData) : ℤ × ℕ := (d.label, d.fid)

/-- A message does not change the label of a call. -/
@[simp] theorem labelOf_addMessage (d : ExecData) (comm : CommData) :
    (d.addMessage comm).labelOf = d.labelOf := by
  rw [addMessage]
  split <;> rfl

/-- A counter does not change the label of a call. -/
@[simp] theorem labelOf_addCounter (d : ExecData) (counter : CounterData) :
    (d.addCounter counter).labelOf = d.labelOf := by
  rw [addCounter]
  split <;> rfl

/-- An exit event ends a call of its own function and does not label it. -/
theorem labelOf_updateExit {d d' : ExecData} {ev : Event} (h : d.updateExit ev = some d') :
    d'.labelOf = d.labelOf ∧ d.fid = ev.fid := by
  rw [updateExit] at h
  split at h
  · cases h
  · rename_i hnot
    cases h
    exact ⟨rfl, not_not.mp fun hne => hnot (Or.inl hne)⟩

end ExecData

namespace ADEvent

/-- The open calls are in use, and each is once on one call stack. -/
structure StacksValid (m : ADEvent) : Prop where
  lt : ∀ thr, ∀ it ∈ m.callStack thr, it < m.nextRef
  nodup : ∀ thr, (m.callStack thr).Nodup
  thread_eq : ∀ thr thr' it, it ∈ m.callStack thr → it ∈ m.callStack thr' → thr = thr'

/-- A call in use that is on no call stack. -/
def Closed (self : ADEvent) (it : CallRef) : Prop :=
  it < self.nextRef ∧ ∀ thr, it ∉ self.callStack thr

/-- A later state: no call is opened again or labeled, and the exec-data map has got the calls
that were closed in between. -/
structure Extends (m m' : ADEvent) : Prop where
  stacksValid : m.StacksValid → m'.StacksValid
  nextRef_le : m.nextRef ≤ m'.nextRef
  closed : ∀ it, m.Closed it → m'.Closed it
  labelOf : ∀ it < m.nextRef, (m'.calls it).labelOf = (m.calls it).labelOf
  execData : m.StacksValid → ∀ fid, ∃ new, m'.execDataMap fid = m.execDataMap fid ++ new ∧
    new.Nodup ∧ ∀ it ∈ new, ¬m.Closed it ∧ m'.Closed it ∧ (m'.calls it).fid = fid

/-- A state that differs neither in the call stacks nor in the exec-data map nor in labels. -/
theorem extends_of_eq {self self' : ADEvent} (hstack : self'.callStack = self.callStack)
    (hnext : self'.nextRef = self.nextRef) (hexec : self'.execDataMap = self.execDataMap)
    (hlabel : ∀ it, (self'.calls it).labelOf = (self.calls it).labelOf) :
    self.Extends self' := by
  refine ⟨fun h => ⟨?_, ?_, ?_⟩, hnext.ge, fun it h => ?_, fun it _ => hlabel it, fun _ fid =>
    ⟨[], ?_, List.nodup_nil, fun _ h => absurd h List.not_mem_nil⟩⟩
  · rw [hstack, hnext]
    exact h.lt
  · rw [hstack]
    exact h.nodup
  · rw [hstack]
    exact h.thread_eq
  · rw [Closed, hstack, hnext]
    exact h
  · rw [hexec, List.append_nil]

/-- Every state extends itself. -/
theorem Extends.refl (self : ADEvent) : self.Extends self :=
  extends_of_eq rfl rfl rfl fun _ => rfl

/-- What extends an extension of a state extends the state. -/
theorem Extends.trans {m₁ m₂ m₃ : ADEvent} (h : m₁.Extends m₂) (h' : m₂.Extends m₃) :
    m₁.Extends m₃ := by
  refine ⟨fun hs => h'.stacksValid (h.stacksValid hs), h.nextRef_le.trans h'.nextRef_le,
    fun it hit => h'.closed it (h.closed it hit), fun it hit => ?_, fun hs fid => ?_⟩
  · rw [h'.labelOf it (hit.trans_le h.nextRef_le), h.labelOf it hit]
  · obtain ⟨new, hnew, hnodup, hclosed⟩ := h.execData hs fid
    obtain ⟨new', hnew', hnodup', hclosed'⟩ := h'.execData (h.stacksValid hs) fid
    refine ⟨new ++ new', by rw [hnew', hnew, List.append_assoc], ?_, fun it hit => ?_⟩
    · refine List.nodup_append'.mpr ⟨hnodup, hnodup', fun it hit hit' => ?_⟩
      exact (hclosed' it hit').1 (hclosed it hit).2.1
    · rcases List.mem_append.mp hit with hit | hit
      · obtain ⟨hopen, hclosed₂, hfid⟩ := hclosed it hit
        refine ⟨hopen, h'.closed it hclosed₂, ?_⟩
        exact (congrArg Prod.snd (h'.labelOf it hclosed₂.1)).trans hfid
      · exact ⟨fun hclosed₁ => (hclosed' it hit).1 (h.closed it hclosed₁), (hclosed' it hit).2⟩

/-- A state in which only indices differ is an extension. -/
theorem OnlyIndices.extends {self self' : ADEvent} (h : self.OnlyIndices self') :
    self.Extends self' := by
  obtain ⟨entry, exit, send, recv, rfl⟩ := h
  exact extends_of_eq rfl rfl rfl fun _ => rfl

/-- References, partners and protections concern neither stacks nor labels. -/
theorem extends_of_forgetRefs {self self' : ADEvent} (h : self'.forgetRefs = self.forgetRefs) :
    self.Extends self' := by
  refine extends_of_eq (congrArg ADEvent.callStack h :) (congrArg ADEvent.nextRef h :)
    (congrArg ADEvent.execDataMap h :) fun it => ?_
  exact (congrArg (fun m : ADEvent => (m.calls it).labelOf) h :)

/-- An entry tells the parent of the new call that it has a child. -/
theorem proj_addEntry {β : Type} (g : ExecData → β)
    (hchild : ∀ d, g (ExecData.incNChildren d) = g d) (self : ADEvent) (ev : Event)
    (funcName : String) {x : CallRef} (hx : x ≠ self.nextRef) :
    g ((self.addEntry ev funcName).calls x) = g (self.calls x) := by
  rw [addEntry]
  simp only [Function.update_of_ne hx]
  cases self.callStack ev.thread with
  | nil => rfl
  | cons top rest => exact proj_modifyCall g self fun _ => hchild _

/-- A call that starts is put on the stack of its thread. -/
theorem addEntry_callStack (self : ADEvent) (ev : Event) (funcName : String) :
    (self.addEntry ev funcName).callStack = Function.update self.callStack ev.thread
      (self.nextRef :: self.callStack ev.thread) := by
  rw [addEntry]
  cases self.callStack ev.thread <;> rfl

/-- An entry opens a new call. -/
theorem extends_addEntry (self : ADEvent) (ev : Event) (funcName : String) :
    self.Extends (self.addEntry ev funcName) := by
  have hstack := addEntry_callStack self ev funcName
  have hnext : (self.addEntry ev funcName).nextRef = self.nextRef + 1 := rfl
  have hexec : (self.addEntry ev funcName).execDataMap = self.execDataMap := by
    rw [addEntry]
    cases self.callStack ev.thread <;> rfl
  have hlabel : ∀ it < self.nextRef,
      ((self.addEntry ev funcName).calls it).labelOf = (self.calls it).labelOf := fun it hit =>
    proj_addEntry ExecData.labelOf (fun _ => rfl) self ev funcName (Nat.ne_of_lt hit)
  have hmem : ∀ thr it, it ∈ (self.addEntry ev funcName).callStack thr →
      it = self.nextRef ∧ thr = ev.thread ∨ it ∈ self.callStack thr := by
    intro thr it hit
    rw [hstack] at hit
    by_cases hthr : thr = ev.thread
    · subst hthr
      rw [Function.update_self] at hit
      exact (List.mem_cons.mp hit).imp_left fun heq => ⟨heq, rfl⟩
    · rw [Function.update_of_ne hthr] at hit
      exact Or.inr hit
  refine ⟨fun h => ⟨fun thr it hit => ?_, fun thr => ?_, fun thr thr' it hit hit' => ?_⟩,
    Nat.le_succ _, fun it hit => ⟨Nat.lt_succ_of_lt hit.1, fun thr hmem' => ?_⟩, hlabel,
    fun _ fid => ⟨[], by rw [hexec, List.append_nil], List.nodup_nil,
      fun _ h => absurd h List.not_mem_nil⟩⟩
  · rcases hmem thr it hit with ⟨rfl, -⟩ | hold
    · exact Nat.lt_succ_self _
    · exact Nat.lt_succ_of_lt (h.lt thr it hold)
  · rw [hstack]
    by_cases hthr : thr = ev.thread
    · subst hthr
      rw [Function.update_self, List.nodup_cons]
      exact ⟨fun hnew => lt_irrefl _ (h.lt _ _ hnew), h.nodup _⟩
    · rw [Function.update_of_ne hthr]
      exact h.nodup thr
  · rcases hmem thr it hit with ⟨rfl, hthr⟩ | hold
    · rcases hmem thr' _ hit' with ⟨-, hthr'⟩ | hold'
      · rw [hthr, hthr']
      · exact absurd (h.lt thr' _ hold') (lt_irrefl _)
    · rcases hmem thr' it hit' with ⟨rfl, -⟩ | hold'
      · exact absurd (h.lt thr _ hold) (lt_irrefl _)
      · exact h.thread_eq thr thr' it hold hold'
  · rcases hmem thr it hmem' with ⟨rfl, -⟩ | hold
    · exact lt_irrefl _ hit.1
    · exact hit.2 thr hold

/-- A call that ends leaves the stack of its thread. -/
theorem endCall_callStack (self : ADEvent) (ev : Event) (it : CallRef) (d : ExecData)
    (stack : List CallRef) : (self.endCall ev it d stack).callStack =
      Function.update self.callStack ev.thread stack := by
  rw [endCall_eq, pushExecData, attachCounters_eq, attachComms_eq]
  cases stack <;> rfl

/-- No call is created when one ends. -/
theorem endCall_nextRef (self : ADEvent) (ev : Event) (it : CallRef) (d : ExecData)
    (stack : List CallRef) : (self.endCall ev it d stack).nextRef = self.nextRef := by
  rw [endCall_eq, pushExecData, attachCounters_eq, attachComms_eq]
  cases stack <;> rfl

/-- A call that ends waits in the exec-data map. -/
theorem endCall_execDataMap (self : ADEvent) (ev : Event) (it : CallRef) (d : ExecData)
    (stack : List CallRef) : (self.endCall ev it d stack).execDataMap =
      Function.update self.execDataMap ev.fid (self.execDataMap ev.fid ++ [it]) := by
  rw [endCall_eq, pushExecData, attachCounters_eq, attachComms_eq]
  cases stack <;> rfl

/-- A call taken off the call stack has its new data, and its parent gets its runtime. -/
theorem proj_popCall {β : Type} (g : ExecData → β)
    (hexclusive : ∀ d t, g (ExecData.updateExclusive d t) = g d) (self : ADEvent) (thr : Thread)
    (it : CallRef) (d : ExecData) (stack : List CallRef) (x : CallRef) :
    g ((self.popCall thr it d stack).calls x) = g (Function.update self.calls it d x) := by
  cases stack with
  | nil => rfl
  | cons top rest =>
    let ended : ADEvent := { self.modifyCall it (fun _ => d) with
      callStack := Function.update self.callStack thr (top :: rest) }
    have hparent : g ((ended.modifyCall top fun p => p.updateExclusive d.runtime).calls x) =
        g (ended.calls x) := proj_modifyCall g ended fun _ => hexclusive _ _
    exact hparent

/-- An ended call has its new data, up to what messages, counters and its children add to it and
what it adds to its parent. -/
theorem proj_endCall {β : Type} (g : ExecData → β)
    (hexclusive : ∀ d t, g (ExecData.updateExclusive d t) = g d)
    (hmessage : ∀ d comm, g (ExecData.addMessage d comm) = g d)
    (hcounter : ∀ d counter, g (ExecData.addCounter d counter) = g d) (self : ADEvent)
    (ev : Event) (it : CallRef) (d : ExecData) (stack : List CallRef) (x : CallRef) :
    g ((self.endCall ev it d stack).calls x) = g (Function.update self.calls it d x) := by
  let popped := self.popCall ev.thread it d stack
  have hpop := proj_popCall g hexclusive self ev.thread it d stack x
  have hcomms := proj_attachComms g hmessage popped it ev x
  have hcounters := proj_attachCounters g hcounter (popped.attachComms it ev) it ev x
  exact hcounters.trans (hcomms.trans hpop)

/-- An exit closes the call on top of the call stack. -/
theorem closed_endCall {self : ADEvent} (h : self.StacksValid) {ev : Event} {it : CallRef}
    {stack : List CallRef} (hstack : self.callStack ev.thread = it :: stack) (d : ExecData) :
    (self.endCall ev it d stack).Closed it := by
  have htop : it ∈ self.callStack ev.thread := hstack ▸ List.mem_cons_self
  refine ⟨(endCall_nextRef self ev it d stack).ge.trans_lt' (h.lt _ it htop), fun thr hmem => ?_⟩
  rw [endCall_callStack] at hmem
  by_cases hthr : thr = ev.thread
  · rw [hthr, Function.update_self] at hmem
    have hnodup := h.nodup ev.thread
    rw [hstack] at hnodup
    exact (List.nodup_cons.mp hnodup).1 hmem
  · rw [Function.update_of_ne hthr] at hmem
    exact hthr (h.thread_eq thr ev.thread it hmem htop)

/-- An exit closes the call on top of the call stack and puts it into the exec-data map. -/
theorem extends_endCall {self : ADEvent} {ev : Event} {it : CallRef} {d : ExecData}
    {stack : List CallRef} (hstack : self.callStack ev.thread = it :: stack)
    (hd : (self.calls it).updateExit ev = some d) :
    self.Extends (self.endCall ev it d stack) := by
  have hcallStack : (self.endCall ev it d stack).callStack =
      Function.update self.callStack ev.thread stack := endCall_callStack self ev it d stack
  have hnext := endCall_nextRef self ev it d stack
  have hexec := endCall_execDataMap self ev it d stack
  have hlabel : ∀ x, ((self.endCall ev it d stack).calls x).labelOf = (self.calls x).labelOf := by
    intro x
    rw [proj_endCall ExecData.labelOf (fun _ _ => rfl) ExecData.labelOf_addMessage
      ExecData.labelOf_addCounter]
    by_cases hx : x = it
    · rw [hx, Function.update_self, (ExecData.labelOf_updateExit hd).1]
    · rw [Function.update_of_ne hx]
  have hsub : ∀ thr, ((self.endCall ev it d stack).callStack thr).Sublist (self.callStack thr) := by
    intro thr
    rw [hcallStack]
    by_cases hthr : thr = ev.thread
    · rw [hthr, Function.update_self, hstack]
      exact List.sublist_cons_self it stack
    · rw [Function.update_of_ne hthr]
  have htop : it ∈ self.callStack ev.thread := hstack ▸ List.mem_cons_self
  refine ⟨fun h => ⟨fun thr x hx => ?_, fun thr => (h.nodup thr).sublist (hsub thr),
      fun thr thr' x hx hx' => h.thread_eq thr thr' x ((hsub thr).subset hx)
        ((hsub thr').subset hx')⟩,
    hnext.ge, fun x hx => ⟨hnext ▸ hx.1, fun thr hmem => hx.2 thr ((hsub thr).subset hmem)⟩,
    fun x _ => hlabel x, fun h fid => ?_⟩
  · rw [hnext]
    exact h.lt thr x ((hsub thr).subset hx)
  · rw [hexec]
    by_cases hfid : fid = ev.fid
    · subst hfid
      refine ⟨[it], Function.update_self _ _ _, List.nodup_singleton it, fun x hx => ?_⟩
      obtain rfl := List.mem_singleton.mp hx
      exact ⟨fun hclosed => hclosed.2 _ htop, closed_endCall h hstack d,
        (congrArg Prod.snd (hlabel x)).trans (ExecData.labelOf_updateExit hd).2⟩
    · rw [Function.update_of_ne hfid]
      exact ⟨[], (List.append_nil _).symm, List.nodup_nil, fun _ h => absurd h List.not_mem_nil⟩

/-- Adding an event extends the state. -/
theorem extends_addEvent {self self' : ADEvent} {ev : Event} {err : EventError}
    (h : self.addEvent ev = .ok (self', err)) : self.Extends self' := by
  rw [addEvent] at h
  split at h
  · rcases addFunc_cases h with ⟨-, -, hindices⟩ | ⟨-, -, self₁, funcName, hindices, rfl⟩ |
      ⟨-, self₁, funcName, it, stack, d, -, hindices, -, hstack, hd, hmatch⟩
    · exact hindices.extends
    · exact hindices.extends.trans (extends_addEntry self₁ ev funcName)
    · exact (hindices.extends.trans (extends_endCall hstack hd)).trans
        (extends_of_forgetRefs (forgetRefs_checkAndMatch hmatch))
  · rcases addComm_cases (Except.ok.inj h) with ⟨-, -, hindices⟩ | ⟨-, self₁, _, -, hindices, rfl⟩
    · exact hindices.extends
    · exact hindices.extends.trans (extends_of_eq rfl rfl rfl fun _ => rfl)
  · rcases addCounter_cases (Except.ok.inj h) with ⟨-, -, rfl⟩ | ⟨-, _, -, rfl⟩
    · exact Extends.refl self'
    · exact extends_of_eq rfl rfl rfl fun _ => rfl

/-- The calls whose stacks are locked are forgotten. -/
theorem forgetRefs_stackLocked (self : ADEvent) (locked : AList fun _ : EventID => Protection) :
    ({ self with stackLockedUnlabeled := locked }).forgetRefs = self.forgetRefs := rfl

/-- A sweep takes calls off the call list and out of the map of identifiers. Apart from that it
concerns references and locks only. -/
theorem sweepCallLists_cases {self swept : ADEvent} {threads : List Thread} {nKeepThread : ℕ}
    {report : PurgeReport} (h : self.sweepCallLists threads nKeepThread = .ok (swept, report)) :
    ∃ callIDMap callList, swept.forgetRefs =
      ({ self with callIDMap := callIDMap, callList := callList } : ADEvent).forgetRefs := by
  have hcall : ∀ {m m' : ADEvent} {report report' thr it},
      (∃ callIDMap callList, m.forgetRefs =
        ({ self with callIDMap := callIDMap, callList := callList } : ADEvent).forgetRefs) →
      m.purgeCall report thr it = .ok (m', report') →
      ∃ callIDMap callList, m'.forgetRefs =
        ({ self with callIDMap := callIDMap, callList := callList } : ADEvent).forgetRefs := by
    rintro m m' _ _ thr it ⟨callIDMap, callList, hm⟩ hcall
    obtain ⟨m₁, hunlock, hcase⟩ := purgeCall_cases hcall
    have hm₁ : m₁.forgetRefs = m.forgetRefs := by
      rcases unlockLabeled_cases hunlock with ⟨rfl, -⟩ | ⟨-, -, m₂, hun, rfl⟩
      · rfl
      · exact (forgetRefs_stackLocked m₂ _).trans (forgetRefs_stackUnProtectGC hun)
    rcases hcase with ⟨rfl, -⟩ | ⟨rfl, -⟩ | rfl
    · refine ⟨Function.update m₁.callIDMap (m₁.calls it).id none,
        Function.update m₁.callList thr ((m₁.callList thr).erase it), ?_⟩
      have herase := congrArg (fun m : ADEvent => { m with
        callIDMap := Function.update m₁.callIDMap (m₁.calls it).id none
        callList := Function.update m₁.callList thr ((m₁.callList thr).erase it) }) (hm₁.trans hm)
      exact herase
    · exact ⟨callIDMap, callList, (forgetRefs_stackProtectGC m₁ it).trans (hm₁.trans hm)⟩
    · exact ⟨callIDMap, callList, hm₁.trans hm⟩
  exact sweepCallLists_invariant hcall ⟨self.callIDMap, self.callList, rfl⟩ h

/-- A purge takes calls off the call list and out of the map of identifiers, and keeps the
unlabeled calls of the exec-data map. Apart from that it concerns references and locks only. -/
theorem purgeCallList_cases {self self' : ADEvent} {threads : List Thread} {nKeepThread : ℕ}
    {report : PurgeReport} (h : self.purgeCallList threads nKeepThread = .ok (self', report)) :
    ∃ callIDMap callList, self'.forgetRefs = ({ self with
      callIDMap := callIDMap
      callList := callList
      execDataMap := fun fid =>
        (self.execDataMap fid).filter fun it => (self.calls it).label = 0 } :
        ADEvent).forgetRefs := by
  obtain ⟨⟨swept, report'⟩, hsweep, hrest⟩ := bind_eq_ok h
  cases hrest
  obtain ⟨callIDMap, callList, hm⟩ := sweepCallLists_cases hsweep
  refine ⟨callIDMap, callList, ?_⟩
  have hlabel : ∀ it, (swept.calls it).label = (self.calls it).label := fun it =>
    (congrArg (fun m : ADEvent => (m.calls it).label) hm :)
  have hexec : swept.execDataMap = self.execDataMap := (congrArg ADEvent.execDataMap hm :)
  have hclear := congrArg (fun m : ADEvent => { m with
      execDataMap := fun fid =>
        (self.execDataMap fid).filter fun it => (self.calls it).label = 0 }) hm
  rw [clearUnlabeled]
  simp only [hlabel, hexec]
  exact hclear

/-- A purge keeps the unlabeled calls of the exec-data map, and neither opens, closes nor labels
calls. -/
theorem purgeCallList_execData {self self' : ADEvent} {threads : List Thread} {nKeepThread : ℕ}
    {report : PurgeReport} (h : self.purgeCallList threads nKeepThread = .ok (self', report)) :
    self'.callStack = self.callStack ∧ self'.nextRef = self.nextRef ∧
      (∀ it, (self'.calls it).labelOf = (self.calls it).labelOf) ∧
      ∀ fid, self'.execDataMap fid =
        (self.execDataMap fid).filter fun it => (self.calls it).label = 0 := by
  obtain ⟨callIDMap, callList, hm⟩ := purgeCallList_cases h
  exact ⟨(congrArg ADEvent.callStack hm :), (congrArg ADEvent.nextRef hm :),
    fun it => (congrArg (fun m : ADEvent => (m.calls it).labelOf) hm :),
    fun fid => (congrArg (fun m : ADEvent => m.execDataMap fid) hm :)⟩

end ADEvent

end Chimbuko
