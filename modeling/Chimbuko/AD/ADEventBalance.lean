import Chimbuko.AD.ADEventProtect

/-!
# Reference counts balance

Events, complete calls and purges keep the reference counts of the calls those of the outstanding
protections, as long as each protection is set up for calls that it counts once and is lifted when
the call's GPU partner is the one it had then. The conditions are on the states in which
protections are set up or lifted, in the middle of a step or not.
-/

namespace Chimbuko

open KeyedMap TransitionSystem

namespace ADEvent

/-- An identifier that no call has and no call refers to. -/
def Fresh (m : ADEvent) (id : EventID) : Prop := id ≠ EventID.root ∧ ¬m.Named id

instance (m : ADEvent) (id : EventID) : Decidable (m.Fresh id) :=
  inferInstanceAs (Decidable (_ ∧ _))

/-- A state with a further call at the end of the list of its thread. -/
structure Appended (m m' : ADEvent) (d : ExecData) : Prop where
  nextRef : m'.nextRef = m.nextRef + 1
  callIDMap : m'.callIDMap = Function.update m.callIDMap d.id (some m.nextRef)
  callList : m'.callList =
    Function.update m.callList d.thread (m.callList d.thread ++ [m.nextRef])
  unmatched : m'.unmatchedCorrelationID = m.unmatchedCorrelationID
  locked : m'.stackLockedUnlabeled = m.stackLockedUnlabeled
  new : (m'.calls m.nextRef).tracked = d.tracked
  old : ∀ x, x ≠ m.nextRef → (m'.calls x).tracked = (m.calls x).tracked
  exit_old : ∀ x, x ≠ m.nextRef → (m'.calls x).exit = (m.calls x).exit

variable {m m' : ADEvent} {d : ExecData} {shape : List CallRef → Prop} {own : CallRef → ℕ}

/-- The list stays valid with a call under a new identifier. -/
theorem Appended.list (happ : m.Appended m' d) (h : m.ListValid)
    (hlt : ∀ k x, m.callIDMap k = some x → x < m.nextRef) (hfresh : m.Fresh d.id) :
    m'.ListValid := by
  have hmem : ∀ {thr x}, x ∈ m.callList thr → x < m.nextRef := fun hx =>
    hlt _ _ (h.find_of_mem hx)
  have hid : ∀ x, x ≠ m.nextRef → (m'.calls x).id = (m.calls x).id := fun x hx =>
    congrArg (fun t => t.1) (happ.old x hx)
  have hthread : ∀ x, x ≠ m.nextRef → (m'.calls x).thread = (m.calls x).thread := fun x hx =>
    congrArg (fun t => t.2.1) (happ.old x hx)
  have hidNew : (m'.calls m.nextRef).id = d.id := congrArg (fun t => t.1) happ.new
  have hthreadNew : (m'.calls m.nextRef).thread = d.thread := congrArg (fun t => t.2.1) happ.new
  have hlist : ∀ thr x, x ∈ m'.callList thr ↔
      x ∈ m.callList thr ∨ x = m.nextRef ∧ thr = d.thread := by
    intro thr x
    rw [happ.callList]
    by_cases hthr : thr = d.thread
    · simp [hthr]
    · simp [hthr]
  have hnotNew : ∀ thr, m.nextRef ∉ m.callList thr := fun thr hx => lt_irrefl _ (hmem hx)
  refine ⟨fun k x => ?_, fun thr x hx => ?_, fun thr => ?_⟩
  · rw [happ.callIDMap, hlist]
    by_cases hx : x = m.nextRef
    · subst hx
      rw [hidNew, hthreadNew]
      by_cases hk : k = d.id
      · simp [hk]
      · rw [Function.update_of_ne hk]
        refine iff_of_false (fun hfind => lt_irrefl _ (hlt _ _ hfind)) ?_
        rintro ⟨-, hk'⟩
        exact hk hk'.symm
    · rw [hid x hx, hthread x hx]
      by_cases hk : k = d.id
      · subst hk
        rw [Function.update_self]
        refine iff_of_false (fun hnew => hx (Option.some.inj hnew).symm) ?_
        rintro ⟨hold | ⟨hnew, -⟩, hid'⟩
        · exact hfresh.2 ⟨x, hmem hold, Or.inl hid'.symm⟩
        · exact hx hnew
      · rw [Function.update_of_ne hk, h.find_iff]
        simp [hx]
  · rcases (hlist thr x).mp hx with hold | ⟨rfl, rfl⟩
    · rw [hthread x (Nat.ne_of_lt (hmem hold))]
      exact h.thread_eq thr x hold
    · exact hthreadNew
  · rw [happ.callList]
    by_cases hthr : thr = d.thread
    · subst hthr
      rw [Function.update_self]
      exact List.nodup_append'.mpr ⟨h.nodup _, List.nodup_singleton _,
        by simpa using hnotNew d.thread⟩
    · rw [Function.update_of_ne hthr]
      exact h.nodup thr

/-- The store has a further record. -/
theorem Appended.pinStore_eq (happ : m.Appended m' d) :
    m'.pinStore = m.pinStore.add d.id d.parent d.references := by
  have hfun : ∀ {β : Type} (g : ExecData → β) (t : _ → β), (∀ d, g d = t (ExecData.tracked d)) →
      (fun x => g (m'.calls x)) = Function.update (fun x => g (m.calls x)) m.nextRef (g d) := by
    intro β g t hg
    funext x
    by_cases hx : x = m.nextRef
    · rw [hx, Function.update_self, hg, happ.new, ← hg]
    · rw [Function.update_of_ne hx, hg, happ.old x hx, ← hg]
  have hid := hfun ExecData.id (fun t => t.1) fun _ => rfl
  have hparent := hfun ExecData.parent (fun t => t.2.2.1) fun _ => rfl
  have hreferences := hfun ExecData.references (fun t => t.2.2.2.1) fun _ => rfl
  have hpins : m'.outstanding = m.outstanding := by
    rw [outstanding, happ.unmatched, happ.locked]
    rfl
  unfold pinStore
  rw [hid, hparent, hreferences, happ.nextRef, happ.callIDMap, hpins]
  rfl

/-- A call under a new identifier is tracked with the others. -/
theorem Appended.tracked (happ : m.Appended m' d) (h : m.Tracked shape own)
    (hfresh : m.Fresh d.id) (hself : d.parent ≠ d.id) (hlisted : m'.Listed) :
    m'.Tracked shape (Function.update own m.nextRef d.references) := by
  have hold : ∀ x < m.nextRef, (m'.calls x).tracked = (m.calls x).tracked := fun x hx =>
    happ.old x (Nat.ne_of_lt hx)
  have hnamed : ∀ k, m.Named k → m'.Named k := fun k hk =>
    hk.mono (by rw [happ.nextRef]; exact Nat.le_succ _)
      (fun x hx => congrArg (fun t => t.1) (hold x hx))
      (fun x hx => congrArg (fun t => t.2.2.1) (hold x hx))
      fun x hx => by
        have hpartner : (m'.calls x).gpuCorrelationIDpartner =
            (m.calls x).gpuCorrelationIDpartner := congrArg (fun t => t.2.2.2.2) (hold x hx)
        rw [hpartner]
        exact List.Subset.refl _
  have hnew : ∀ k, k = d.id ∨ k = d.parent → m'.Named k := by
    intro k hk
    refine ⟨m.nextRef, by rw [happ.nextRef]; exact Nat.lt_succ_self _, ?_⟩
    have hid : (m'.calls m.nextRef).id = d.id := congrArg (fun t => t.1) happ.new
    have hparent : (m'.calls m.nextRef).parent = d.parent :=
      congrArg (fun t => t.2.2.1) happ.new
    rw [hid, hparent]
    exact hk.imp_right Or.inl
  refine ⟨hlisted, ?_, fun id p hp => ?_⟩
  · rw [happ.pinStore_eq]
    exact PinStore.Valid.add hfresh.2 hfresh.1 h.store hnamed (hnew _ (Or.inl rfl))
      (Or.inr (hnew _ (Or.inr rfl))) hself
  · rw [happ.locked] at hp
    have hstart : p.start < m.nextRef := (h.store.find_lt _ _ (h.store.pins_fit p
      (List.mem_append_right _ (mem_values.mpr ⟨id, hp⟩))).find_start).1
    have hid : (m'.calls p.start).id = (m.calls p.start).id :=
      congrArg (fun t => t.1) (hold _ hstart)
    rw [hid]
    exact h.locked_id id p hp

/-- Knowing more event indices changes nothing. -/
theorem OnlyIndices.tracked (hindices : m.OnlyIndices m') (h : m.Tracked shape own) :
    m'.Tracked shape own := by
  obtain ⟨entry, exit, send, recv, rfl⟩ := hindices
  exact ⟨⟨⟨h.listed.list.find_iff, h.listed.list.thread_eq, h.listed.list.nodup⟩,
    ⟨h.listed.stacksValid.lt, h.listed.stacksValid.nodup, h.listed.stacksValid.thread_eq⟩,
    h.listed.open_listed⟩, h.store, h.locked_id⟩

/-- A call that starts is appended. -/
theorem appended_addEntry (m : ADEvent) (ev : Event) (funcName : String) :
    m.Appended (m.addEntry ev funcName) { ExecData.ofEvent ev with
      parent := ((m.callStack ev.thread).head?.map fun top => (m.calls top).id).getD EventID.root
      funcname := funcName } := by
  refine ⟨rfl, ?_, ?_, ?_, ?_, ?_, fun x hx => ?_, fun x hx => ?_⟩
  · rw [addEntry]
    cases m.callStack ev.thread <;> rfl
  · rw [addEntry]
    cases m.callStack ev.thread <;> rfl
  · rw [addEntry]
    cases m.callStack ev.thread <;> rfl
  · rw [addEntry]
    cases m.callStack ev.thread <;> rfl
  · rw [addEntry]
    simp only [Function.update_self]
  · exact proj_addEntry ExecData.tracked (fun _ => rfl) m ev funcName hx
  · exact proj_addEntry ExecData.exit (fun _ => rfl) m ev funcName hx

/-- A call can start under a new identifier. -/
theorem Tracked.addEntry (h : m.Tracked shape own) {ev : Event} (hfresh : m.Fresh ev.id)
    (funcName : String) :
    (m.addEntry ev funcName).Tracked shape (Function.update own m.nextRef 0) := by
  have happ := appended_addEntry m ev funcName
  have hlist : (m.addEntry ev funcName).callList = Function.update m.callList ev.thread
    (m.callList ev.thread ++ [m.nextRef]) := happ.callList
  have hlt : ∀ k x, m.callIDMap k = some x → x < m.nextRef := fun k x hx =>
    (h.store.find_lt k x hx).1
  refine happ.tracked h hfresh ?_ ⟨happ.list h.listed.list hlt hfresh,
    (extends_addEntry m ev funcName).stacksValid h.listed.stacksValid, fun thr x hx => ?_⟩
  · change ((m.callStack ev.thread).head?.map fun top => (m.calls top).id).getD EventID.root ≠ ev.id
    cases hstack : m.callStack ev.thread with
    | nil => exact fun hroot => hfresh.1 hroot.symm
    | cons top rest =>
      intro hid
      have htop : top ∈ m.callStack ev.thread := hstack ▸ List.mem_cons_self
      exact hfresh.2 ⟨top, h.listed.stacksValid.lt _ top htop, Or.inl hid.symm⟩
  · have hcase : x ∈ m.callStack thr ∨ x = m.nextRef ∧ thr = ev.thread := by
      rw [addEntry_callStack] at hx
      by_cases hthr : thr = ev.thread
      · subst hthr
        rw [Function.update_self] at hx
        exact (List.mem_cons.mp hx).symm.imp_right fun hnew => ⟨hnew, rfl⟩
      · rw [Function.update_of_ne hthr] at hx
        exact Or.inl hx
    rw [hlist]
    rcases hcase with hold | ⟨rfl, rfl⟩
    · obtain ⟨hmem, hexit⟩ := h.listed.open_listed thr x hold
      have hne : x ≠ m.nextRef := Nat.ne_of_lt (h.listed.stacksValid.lt thr x hold)
      have hexit' : ((m.addEntry ev funcName).calls x).exit = (m.calls x).exit :=
        happ.exit_old x hne
      refine ⟨?_, hexit'.trans hexit⟩
      by_cases hthr : thr = ev.thread
      · subst hthr
        rw [Function.update_self]
        exact List.mem_append_left _ hmem
      · rwa [Function.update_of_ne hthr]
    · refine ⟨?_, ?_⟩
      · rw [Function.update_self]
        exact List.mem_append_right _ List.mem_cons_self
      · rw [ADEvent.addEntry]
        simp only [Function.update_self]
        rfl

/-- What a call that ends does not change. -/
theorem endCall_fields (m : ADEvent) (ev : Event) (it : CallRef) (d : ExecData)
    (stack : List CallRef) : (m.endCall ev it d stack).callIDMap = m.callIDMap ∧
      (m.endCall ev it d stack).callList = m.callList ∧
      (m.endCall ev it d stack).unmatchedCorrelationID = m.unmatchedCorrelationID ∧
      (m.endCall ev it d stack).stackLockedUnlabeled = m.stackLockedUnlabeled := by
  rw [endCall_eq, pushExecData, attachCounters_eq, attachComms_eq]
  cases stack <;> exact ⟨rfl, rfl, rfl, rfl⟩

/-- A call can end, and is in the list then. -/
theorem Tracked.endCall (h : m.Tracked shape own) {ev : Event} {it : CallRef} {stack : List CallRef}
    (hstack : m.callStack ev.thread = it :: stack) (hd : (m.calls it).updateExit ev = some d) :
    (m.endCall ev it d stack).Tracked shape own ∧ (m.endCall ev it d stack).callIDMap
      ((m.endCall ev it d stack).calls it).id = some it := by
  obtain ⟨hfind, hlist, hunmatched, hlocked⟩ := endCall_fields m ev it d stack
  have htracked : ∀ x, ((m.endCall ev it d stack).calls x).tracked = (m.calls x).tracked := by
    intro x
    rw [proj_endCall ExecData.tracked (fun _ _ => rfl) ExecData.tracked_addMessage
      ExecData.tracked_addCounter]
    by_cases hx : x = it
    · rw [hx, Function.update_self, ExecData.tracked_updateExit hd]
    · rw [Function.update_of_ne hx]
  have hstacks := endCall_callStack m ev it d stack
  have hnodup := h.listed.stacksValid.nodup ev.thread
  rw [hstack] at hnodup
  have htop : it ∈ m.callStack ev.thread := hstack ▸ List.mem_cons_self
  refine ⟨h.congr (endCall_nextRef m ev it d stack) hfind hlist hunmatched hlocked htracked
    ((extends_endCall hstack hd).stacksValid h.listed.stacksValid) fun thr x hx => ?_, ?_⟩
  · have hold : x ∈ m.callStack thr ∧ x ≠ it := by
      rw [hstacks] at hx
      by_cases hthr : thr = ev.thread
      · subst hthr
        rw [Function.update_self] at hx
        refine ⟨hstack ▸ List.mem_cons_of_mem _ hx, ?_⟩
        rintro rfl
        exact (List.nodup_cons.mp hnodup).1 hx
      · rw [Function.update_of_ne hthr] at hx
        refine ⟨hx, ?_⟩
        rintro rfl
        exact hthr (h.listed.stacksValid.thread_eq thr ev.thread _ hx htop)
    obtain ⟨hmem, hexit⟩ := h.listed.open_listed thr x hold.1
    refine ⟨hmem, ?_⟩
    rw [proj_endCall ExecData.exit (fun _ _ => rfl) ExecData.exit_addMessage
      ExecData.exit_addCounter, Function.update_of_ne hold.2, hexit]
  · rw [hfind, show ((m.endCall ev it d stack).calls it).id = (m.calls it).id from
      congrArg (fun t => t.1) (htracked it)]
    exact h.listed.list.find_of_mem (h.listed.open_listed _ it htop).1

/-- The condition on matching the correlation identifiers of a call. -/
def CheckOK (m : ADEvent) (shape : List CallRef → Prop) (it : CallRef) : Prop :=
  (m.calls it).funcname ∈ m.ignoreCorrelationID ∨
    LoopGuard (ADEvent.matchCorrelationID it) (MatchOK shape it) m (m.calls it).counters

instance [DecidablePred shape] (m : ADEvent) (it : CallRef) : Decidable (m.CheckOK shape it) :=
  inferInstanceAs (Decidable (_ ∨ _))

/-- The correlation identifiers of a call can be matched. -/
theorem Tracked.checkAndMatch (h : m.Tracked shape own) {it : CallRef}
    (hit : m.callIDMap (m.calls it).id = some it) (hok : m.CheckOK shape it) :
    ∃ m', m.checkAndMatchCorrelationID it = .ok m' ∧ m'.Tracked shape own := by
  rw [checkAndMatchCorrelationID]
  by_cases hignore : (m.calls it).funcname ∈ m.ignoreCorrelationID
  · rw [if_pos hignore]
    exact ⟨m, rfl, h⟩
  rw [if_neg hignore]
  have hstep : ∀ (c : CounterData) (_ : List CounterData) (m : ADEvent),
      m.Tracked shape own ∧ m.callIDMap (m.calls it).id = some it → MatchOK shape it m c →
      ∃ m', ADEvent.matchCorrelationID it m c = .ok m' ∧
        m'.Tracked shape own ∧ m'.callIDMap (m'.calls it).id = some it := by
    rintro c - m ⟨hm, hit⟩ hc
    obtain ⟨m', hrun, hm'⟩ := hm.matchCorrelationID hit hc
    have hsame := congrArg (fun m : ADEvent => m.callIDMap (m.calls it).id)
      (forgetRefs_matchCorrelationID hrun)
    exact ⟨m', hrun, hm', (hsame : m'.callIDMap (m'.calls it).id = _).trans hit⟩
  obtain ⟨m', hrun, hm', -⟩ := LoopGuard.foldlM_ok
    (P := fun _ m' => m'.Tracked shape own ∧ m'.callIDMap (m'.calls it).id = some it)
    hstep ⟨h, hit⟩ (hok.resolve_left hignore)
  exact ⟨m', hrun, hm'⟩

/-- The condition on an exit event. -/
def ExitOK (m : ADEvent) (shape : List CallRef → Prop) (ev : Event) : Prop :=
  match m.callStack ev.thread with
  | [] => True
  | it :: stack =>
    match (m.calls it).updateExit ev with
    | none => True
    | some d => (m.endCall ev it d stack).CheckOK shape it

instance [DecidablePred shape] (m : ADEvent) (ev : Event) : Decidable (m.ExitOK shape ev) := by
  unfold ExitOK
  cases m.callStack ev.thread with
  | nil => exact inferInstanceAs (Decidable True)
  | cons it stack =>
    dsimp only
    cases (m.calls it).updateExit ev with
    | none => exact inferInstanceAs (Decidable True)
    | some d => exact inferInstanceAs (Decidable (ADEvent.CheckOK _ shape it))

/-- The condition on an event: an entry has a new identifier, and the call that an exit ends can
match its correlation identifiers. -/
def AddEventOK (m : ADEvent) (shape : List CallRef → Prop) (ev : Event) : Prop :=
  ev.type = .FUNC →
    match m.resolveFunc ev with
    | (_, .ok (.ENTRY, _)) => m.Fresh ev.id
    | (m, .ok (.EXIT, _)) => m.ExitOK shape ev
    | (_, .ok (.NA, _)) => True
    | (_, .error _) => True

instance [DecidablePred shape] (m : ADEvent) (ev : Event) : Decidable (m.AddEventOK shape ev) := by
  unfold AddEventOK
  have hmatch : Decidable (match m.resolveFunc ev with
      | (_, .ok (.ENTRY, _)) => m.Fresh ev.id
      | (m, .ok (.EXIT, _)) => m.ExitOK shape ev
      | (_, .ok (.NA, _)) => True
      | (_, .error _) => True) :=
    match m.resolveFunc ev with
    | (_, .ok (.ENTRY, _)) => inferInstanceAs (Decidable (m.Fresh ev.id))
    | (m, .ok (.EXIT, _)) => inferInstanceAs (Decidable (m.ExitOK shape ev))
    | (_, .ok (.NA, _)) => inferInstanceAs (Decidable True)
    | (_, .error _) => inferInstanceAs (Decidable True)
  exact inferInstanceAs (Decidable (_ → _))

/-- A call can end and match its correlation identifiers. -/
theorem Tracked.addExit (h : m.Tracked shape own) {ev : Event} (hok : m.ExitOK shape ev) :
    ∃ m' err, m.addExit ev = .ok (m', err) ∧ m'.Tracked shape own := by
  rw [ADEvent.addExit]
  rw [ExitOK] at hok
  cases hstack : m.callStack ev.thread with
  | nil => exact ⟨m, _, rfl, h⟩
  | cons it stack =>
    simp only [hstack] at hok ⊢
    cases hd : (m.calls it).updateExit ev with
    | none => exact ⟨m, _, rfl, h⟩
    | some d =>
      simp only [hd] at hok ⊢
      obtain ⟨hended, hit⟩ := h.endCall hstack hd
      obtain ⟨m', hrun, hm'⟩ := hended.checkAndMatch hit hok
      refine ⟨m', .OK, ?_, hm'⟩
      rw [hrun]
      rfl

/-- An event can be added. A call that it starts has no references of its own. -/
theorem Tracked.addEvent (h : m.Tracked shape own) {ev : Event} (hok : m.AddEventOK shape ev) :
    ∃ m' err own', m.addEvent ev = .ok (m', err) ∧ m'.Tracked shape own' ∧
      ∀ x, own' x = own x ∨ own' x = 0 := by
  rw [ADEvent.addEvent]
  cases htype : ev.type with
  | FUNC =>
    have hok := hok htype
    simp only
    rw [addFunc]
    cases hresolve : m.resolveFunc ev with
    | mk m₁ result =>
    have hindices := (resolveFunc_cases hresolve).1
    have hm₁ := hindices.tracked h
    rw [hresolve] at hok
    cases result with
    | error err => exact ⟨m₁, err, own, rfl, hm₁, fun x => Or.inl rfl⟩
    | ok found =>
    obtain ⟨kind, funcName⟩ := found
    cases kind with
    | ENTRY =>
      have hfresh : m₁.Fresh ev.id := by
        obtain ⟨entry, exit, send, recv, rfl⟩ := hindices
        exact hok
      refine ⟨_, _, _, rfl, hm₁.addEntry hfresh funcName, fun x => ?_⟩
      by_cases hx : x = m₁.nextRef
      · rw [hx, Function.update_self]
        exact Or.inr rfl
      · rw [Function.update_of_ne hx]
        exact Or.inl rfl
    | EXIT =>
      obtain ⟨m', err, hrun, hm'⟩ := hm₁.addExit hok
      exact ⟨m', err, own, hrun, hm', fun x => Or.inl rfl⟩
    | NA => exact ⟨m₁, _, own, rfl, hm₁, fun x => Or.inl rfl⟩
  | COMM =>
    cases hcomm : m.addComm ev with
    | mk m' err =>
    refine ⟨m', err, own, rfl, ?_, fun x => Or.inl rfl⟩
    rcases addComm_cases hcomm with ⟨-, -, hindices⟩ | ⟨-, m₁, _, -, hindices, rfl⟩
    · exact hindices.tracked h
    · have hm₁ := hindices.tracked h
      exact hm₁.congr rfl rfl rfl rfl rfl (fun _ => rfl)
        (hm₁.listed.stacksValid.congr rfl rfl) hm₁.listed.open_listed
  | COUNT =>
    cases hcounter : m.addCounter ev with
    | mk m' err =>
    refine ⟨m', err, own, rfl, ?_, fun x => Or.inl rfl⟩
    rcases addCounter_cases hcounter with ⟨-, -, rfl⟩ | ⟨-, _, -, rfl⟩
    · exact h
    · exact h.congr rfl rfl rfl rfl rfl (fun _ => rfl) (h.listed.stacksValid.congr rfl rfl)
        h.listed.open_listed

/-- A complete call in the lists and maps, before its correlation identifiers are matched. -/
def insertCall (m : ADEvent) (exec : ExecData) : ADEvent :=
  ({ m with
      calls := Function.update m.calls m.nextRef exec
      nextRef := m.nextRef + 1
      callList := Function.update m.callList exec.thread (m.callList exec.thread ++ [m.nextRef])
      callIDMap := Function.update m.callIDMap exec.id (some m.nextRef) } : ADEvent).pushExecData
    exec.fid m.nextRef

/-- A complete call is inserted and matched. -/
theorem addCall_eq (m : ADEvent) (exec : ExecData) :
    m.addCall exec = (m.insertCall exec).checkAndMatchCorrelationID m.nextRef := rfl

/-- The condition on a complete call: it has a new identifier, its parent is another call, and it
can match its correlation identifiers. -/
def AddCallOK (m : ADEvent) (shape : List CallRef → Prop) (exec : ExecData) : Prop :=
  m.Fresh exec.id ∧ exec.parent ≠ exec.id ∧ (m.insertCall exec).CheckOK shape m.nextRef

instance [DecidablePred shape] (m : ADEvent) (exec : ExecData) :
    Decidable (m.AddCallOK shape exec) :=
  inferInstanceAs (Decidable (_ ∧ _ ∧ _))

/-- A complete call is appended. -/
theorem appended_insertCall (m : ADEvent) (exec : ExecData) :
    m.Appended (m.insertCall exec) exec := by
  refine ⟨rfl, rfl, rfl, rfl, rfl, ?_, fun x hx => ?_, fun x hx => ?_⟩
  · change (Function.update m.calls m.nextRef exec m.nextRef).tracked = _
    rw [Function.update_self]
  · change (Function.update m.calls m.nextRef exec x).tracked = _
    rw [Function.update_of_ne hx]
  · change (Function.update m.calls m.nextRef exec x).exit = _
    rw [Function.update_of_ne hx]

/-- A complete call can be added. It keeps the references that it came with. -/
theorem Tracked.addCall (h : m.Tracked shape own) {exec : ExecData}
    (hok : m.AddCallOK shape exec) : ∃ m', m.addCall exec = .ok m' ∧
      m'.Tracked shape (Function.update own m.nextRef exec.references) := by
  obtain ⟨hfresh, hself, hcheck⟩ := hok
  have happ := appended_insertCall m exec
  have hlt : ∀ k x, m.callIDMap k = some x → x < m.nextRef := fun k x hx =>
    (h.store.find_lt k x hx).1
  have hstacks : (m.insertCall exec).StacksValid :=
    ⟨fun thr x hx => Nat.lt_succ_of_lt (h.listed.stacksValid.lt thr x hx),
      h.listed.stacksValid.nodup, h.listed.stacksValid.thread_eq⟩
  have hnew : (m.insertCall exec).callIDMap ((m.insertCall exec).calls m.nextRef).id =
      some m.nextRef := by
    change Function.update m.callIDMap exec.id (some m.nextRef)
      (Function.update m.calls m.nextRef exec m.nextRef).id = _
    rw [Function.update_self, Function.update_self]
  have hinserted := happ.tracked h hfresh hself ⟨happ.list h.listed.list hlt hfresh, hstacks,
    fun thr x hx => ?_⟩
  · rw [addCall_eq]
    exact hinserted.checkAndMatch hnew hcheck
  · obtain ⟨hmem, hexit⟩ := h.listed.open_listed thr x hx
    refine ⟨?_, (happ.exit_old x (Nat.ne_of_lt (h.listed.stacksValid.lt thr x hx))).trans hexit⟩
    change x ∈ Function.update m.callList exec.thread _ thr
    by_cases hthr : thr = exec.thread
    · subst hthr
      rw [Function.update_self]
      exact List.mem_append_left _ hmem
    · rwa [Function.update_of_ne hthr]

end ADEvent

end Chimbuko
