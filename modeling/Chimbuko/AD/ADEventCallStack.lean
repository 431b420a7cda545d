import Chimbuko.AD.ADEventCallTree
import Chimbuko.AD.ADEventBalanceRuns

/-!
# Call stacks of calls that are to be reported

The provenance of a call lists its ancestors, which are looked up in the call list. A completed
call still has to be reported while it is not labeled or waits for a GPU partner. A purge locks
the ancestors of the unlabeled calls that it sweeps over, but it sweeps over the ancestors first:
one that has been labeled already is gone by the time that its descendant would lock it, unless
something else protects it.
-/

namespace Chimbuko

open KeyedMap ParentLine TransitionSystem

namespace ADEvent

/-- The calls met from an identifier on up to the root, and the identifier that could not be found
if the root was not reached. -/
def followParents (self : ADEvent) : ℕ → EventID → List CallRef × Option EventID
  | 0, event => ([], if event = EventID.root then none else some event)
  | n + 1, event =>
    if event = EventID.root then ([], none)
    else
      match self.callIDMap event with
      | none => ([], some event)
      | some it =>
        let (rest, notFound) := self.followParents n (self.calls it).parent
        (it :: rest, notFound)

/-- A call and its ancestors. -/
def getCallStack (self : ADEvent) (eventId : EventID) : List CallRef × Option EventID :=
  self.followParents self.nextRef eventId

/-- What the provenance of a call says about it and each of its ancestors. -/
structure CallStackEntry where
  fid : ℕ
  func : String
  entry : ℤ
  exit : ℤ
  eventId : EventID
  isAnomaly : Bool
deriving DecidableEq

/-- What a call stack tells of a call. -/
def getCallStackEntry (call : ExecData) : CallStackEntry where
  fid := call.fid
  func := call.funcname
  entry := call.entry
  exit := call.exit
  eventId := call.id
  isAnomaly := call.label = -1

/-- The call stack in the provenance of a call, and the parent that could not be found if the root
was not reached. -/
def getStackInformation (self : ADEvent) (call : ExecData) :
    List CallStackEntry × Option EventID :=
  let (parents, notFound) := self.followParents self.nextRef call.parent
  (getCallStackEntry call :: parents.map fun it => getCallStackEntry (self.calls it), notFound)

variable {m m' : ADEvent} {shape : List CallRef → Prop} {own : CallRef → ℕ} {thr : Thread}
  {it : CallRef}

/-- Following parents finds a line that ends at the root, and no parent is missing. -/
theorem followParents_of_isStack
    (hrank : ∀ x y, m.callIDMap (m.calls x).parent = some y → y < x) {xs : List CallRef}
    {key : EventID} (h : IsStack EventID.root m.callIDMap (fun x => (m.calls x).parent) key xs)
    {n : ℕ} (hn : ∀ x, m.callIDMap key = some x → x < n) :
    m.followParents n key = (xs, none) := by
  induction xs generalizing key n with
  | nil =>
    cases n with
    | zero => simp [followParents, show key = EventID.root from h]
    | succ n => simp [followParents, show key = EventID.root from h]
  | cons x xs ih =>
    obtain ⟨hroot, hfind, hrest⟩ := h
    cases n with
    | zero => exact absurd (hn x hfind) (Nat.not_lt_zero _)
    | succ n =>
      have hparent := ih hrest (n := n) fun y hy =>
        (hrank x y hy).trans_le (Nat.le_of_lt_succ (hn x hfind))
      rw [followParents, if_neg hroot, hfind]
      simp only [hparent]

/-- The ancestors from an identifier on are in the call list up to the root. -/
def HasStack (m : ADEvent) (key : EventID) : Prop :=
  ∃ xs, IsStack EventID.root m.callIDMap (fun x => (m.calls x).parent) key xs

/-- A call waits for its GPU partner. -/
def Waiting (m : ADEvent) (x : CallRef) : Prop :=
  ∃ cid p, m.unmatchedCorrelationID.lookup cid = some p ∧ p.start = x

/-- A completed call that still has to be reported. -/
def Pending (m : ADEvent) (x : CallRef) : Prop :=
  m.Completed x ∧ ((m.calls x).label = 0 ∨ m.Waiting x)

/-- The open calls are chains of parents, and the calls that have to be reported have all of their
ancestors in the call list. -/
structure StacksKept (m : ADEvent) : Prop where
  chain : ∀ thr, m.ChainToRoot (m.callStack thr)
  kept : ∀ thr, ∀ x ∈ m.callList thr, m.Pending x → m.HasStack (m.calls x).parent

/-- Ancestors stay where they are found and what their parents are. -/
theorem HasStack.mono {key : EventID} (h : m.HasStack key)
    (hfind : ∀ k x, m.callIDMap k = some x → m'.callIDMap k = some x)
    (hparent : ∀ k x, m.callIDMap k = some x → (m'.calls x).parent = (m.calls x).parent) :
    m'.HasStack key := by
  obtain ⟨xs, hxs⟩ := h
  refine ⟨xs, hxs.congr (fun x hx => ?_) fun k x _ => hfind k x⟩
  obtain ⟨k, hk⟩ := hxs.isLine.exists_find hx
  exact hparent k x hk

/-- What the ancestors of a call depend on. -/
private def placed (d : ExecData) : EventID × Thread × EventID := (d.id, d.thread, d.parent)

/-- A chain depends on the identifiers and parents of its calls. -/
theorem ChainToRoot.congr {xs : List CallRef} (h : m.ChainToRoot xs)
    (hid : ∀ x ∈ xs, (m'.calls x).id = (m.calls x).id)
    (hparent : ∀ x ∈ xs, (m'.calls x).parent = (m.calls x).parent) : m'.ChainToRoot xs := by
  induction xs with
  | nil => trivial
  | cons x rest ih =>
    refine ⟨?_, ih h.2 (fun y hy => hid y (List.mem_cons_of_mem _ hy)) fun y hy =>
      hparent y (List.mem_cons_of_mem _ hy)⟩
    rw [hparent x List.mem_cons_self, h.1]
    cases rest with
    | nil => rfl
    | cons y ys =>
      change (m.calls y).id = (m'.calls y).id
      rw [hid y (List.mem_cons_of_mem _ List.mem_cons_self)]

/-- Open calls are in the list with all of their ancestors. -/
theorem Tracked.hasStack_of_chain (h : m.Tracked shape own) {xs : List CallRef}
    (hxs : ∀ x ∈ xs, m.callIDMap (m.calls x).id = some x) (hchain : m.ChainToRoot xs) :
    m.HasStack ((xs.head?.map fun x => (m.calls x).id).getD EventID.root) := by
  induction xs with
  | nil => exact ⟨[], rfl⟩
  | cons x rest ih =>
    have hfind := hxs x List.mem_cons_self
    obtain ⟨ys, hys⟩ := ih (fun y hy => hxs y (List.mem_cons_of_mem _ hy)) hchain.2
    refine ⟨x :: ys, (h.store.id_used x (h.store.find_lt _ x hfind).1).2, hfind, ?_⟩
    rw [← hchain.1] at hys
    exact hys

/-- A state in which the calls that have to be reported did so before, or have their ancestors. -/
theorem StacksKept.congr (h : m.StacksKept) (hstack : m'.callStack = m.callStack)
    (hfind : m'.callIDMap = m.callIDMap) (hlist : m'.callList = m.callList)
    (hplaced : ∀ x, placed (m'.calls x) = placed (m.calls x))
    (hpending : ∀ x, m'.Pending x → m.Pending x ∨ m.HasStack (m.calls x).parent) :
    m'.StacksKept := by
  have hid : ∀ x, (m'.calls x).id = (m.calls x).id := fun x =>
    congrArg (fun t => t.1) (hplaced x)
  have hparent : ∀ x, (m'.calls x).parent = (m.calls x).parent := fun x =>
    congrArg (fun t => t.2.2) (hplaced x)
  refine ⟨fun thr => ?_, fun thr x hx hx' => ?_⟩
  · rw [hstack]
    exact (h.chain thr).congr (fun x _ => hid x) fun x _ => hparent x
  · rw [hlist] at hx
    have hold : m.HasStack (m.calls x).parent := by
      rcases hpending x hx' with hpend | hstacked
      · exact h.kept thr x hx hpend
      · exact hstacked
    rw [hparent]
    exact hold.mono (fun k y hy => hfind ▸ hy) fun k y _ => hparent y

/-- Who waits depends on the correlation identifiers only. -/
theorem waiting_iff_of_eq (h : m'.unmatchedCorrelationID = m.unmatchedCorrelationID)
    (x : CallRef) : m'.Waiting x ↔ m.Waiting x := by
  unfold Waiting
  rw [h]

/-- A call that waits after one of its counters is matched did so before, or is the call itself. -/
theorem waiting_matchCorrelationID {c : CounterData}
    (h : ADEvent.matchCorrelationID it m c = .ok m') {x : CallRef} (hx : m'.Waiting x) :
    m.Waiting x ∨ x = it := by
  rcases matchCorrelationID_cases h with ⟨-, rfl⟩ | ⟨-, p, m₁, -, -, hun, rfl⟩ |
    ⟨-, -, m₁, p, hprotect, rfl⟩
  · exact Or.inl hx
  · obtain ⟨cid, q, hq, rfl⟩ := hx
    have hm₁ : m₁.unmatchedCorrelationID = m.unmatchedCorrelationID := by
      rw [(deregisterAll_eq.mp hun).2]
      rfl
    refine Or.inl ⟨cid, q, ?_, rfl⟩
    rw [← hm₁]
    change (m₁.unmatchedCorrelationID.erase c.value).lookup cid = some q at hq
    by_cases hcid : cid = c.value
    · rw [hcid, AList.lookup_erase] at hq
      cases hq
    · rwa [AList.lookup_erase_ne hcid] at hq
  · obtain ⟨cid, q, hq, rfl⟩ := hx
    have hm₁ : m₁.unmatchedCorrelationID = m.unmatchedCorrelationID := by
      have hfst := stackProtectGC_fst ({ m with cidxCorrId := toInt c.cid }) it
      rw [hprotect] at hfst
      exact (congrArg ADEvent.unmatchedCorrelationID hfst :)
    have hp : p.start = it := (congrArg (fun r => r.2.start) hprotect :).symm
    change (m₁.unmatchedCorrelationID.insert c.value p).lookup cid = some q at hq
    by_cases hcid : cid = c.value
    · rw [hcid, AList.lookup_insert] at hq
      exact Or.inr (Option.some.inj hq ▸ hp)
    · rw [AList.lookup_insert_ne hcid, hm₁] at hq
      exact Or.inl ⟨cid, q, hq, rfl⟩

/-- Matching correlation identifiers makes no other call wait. -/
theorem waiting_checkAndMatch (h : m.checkAndMatchCorrelationID it = .ok m') {x : CallRef}
    (hx : m'.Waiting x) : m.Waiting x ∨ x = it := by
  rw [checkAndMatchCorrelationID] at h
  split at h
  · cases h
    exact Or.inl hx
  · have hstep : ∀ (s : ADEvent) (c : CounterData) (t : ADEvent),
        (∀ x, s.Waiting x → m.Waiting x ∨ x = it) → ADEvent.matchCorrelationID it s c = .ok t →
        ∀ x, t.Waiting x → m.Waiting x ∨ x = it := by
      intro s c t hs ht x hx
      rcases waiting_matchCorrelationID ht hx with hold | hself
      · exact hs x hold
      · exact Or.inr hself
    exact foldlM_invariant (P := fun t => ∀ x, t.Waiting x → m.Waiting x ∨ x = it) hstep _
      (fun x hx => Or.inl hx) h x hx

/-- A call whose ancestors are in the list may wait. -/
theorem StacksKept.checkAndMatch (h : m.StacksKept) (hit : m.HasStack (m.calls it).parent)
    (hrun : m.checkAndMatchCorrelationID it = .ok m') : m'.StacksKept := by
  have hsame := forgetRefs_checkAndMatch hrun
  have hcalls : ∀ {β : Type} (g : ExecData → β), (∀ d, g (ExecData.forgetRefs d) = g d) →
      ∀ x, g (m'.calls x) = g (m.calls x) := by
    intro β g hg x
    rw [← hg (m'.calls x), ← hg (m.calls x)]
    exact (congrArg (fun m : ADEvent => g (m.calls x)) hsame :)
  have hnext : m'.nextRef = m.nextRef := (congrArg ADEvent.nextRef hsame :)
  have hstack : m'.callStack = m.callStack := (congrArg ADEvent.callStack hsame :)
  refine h.congr hstack (congrArg ADEvent.callIDMap hsame :) (congrArg ADEvent.callList hsame :)
    (hcalls placed fun _ => rfl) fun x hx => ?_
  obtain ⟨⟨hlt, hclosed⟩, hcause⟩ := hx
  rw [hnext] at hlt
  rw [hstack, hcalls ExecData.thread fun _ => rfl] at hclosed
  rcases hcause with hlabel | hwait
  · rw [hcalls ExecData.label fun _ => rfl] at hlabel
    exact Or.inl ⟨⟨hlt, hclosed⟩, Or.inl hlabel⟩
  · rcases waiting_checkAndMatch hrun hwait with hold | rfl
    · exact Or.inl ⟨⟨hlt, hclosed⟩, Or.inr hold⟩
    · exact Or.inr hit

/-- The call on top of a call stack has all of its ancestors in the list. -/
theorem StacksKept.hasStack_top (h : m.StacksKept) (htracked : m.Tracked shape own)
    {stack : List CallRef} (hstack : m.callStack thr = it :: stack) :
    m.HasStack (m.calls it).parent := by
  have hchain := h.chain thr
  rw [hstack] at hchain
  rw [hchain.1]
  apply htracked.hasStack_of_chain _ hchain.2
  intro x hx
  have hmem : x ∈ m.callStack thr := hstack ▸ List.mem_cons_of_mem _ hx
  exact htracked.listed.list.find_of_mem (htracked.listed.open_listed thr x hmem).1

/-- A call that ends has all of its ancestors in the list. -/
theorem StacksKept.endCall (h : m.StacksKept) (htracked : m.Tracked shape own) {ev : Event}
    {d : ExecData} {stack : List CallRef} (hstack : m.callStack ev.thread = it :: stack)
    (hd : (m.calls it).updateExit ev = some d) :
    (m.endCall ev it d stack).StacksKept ∧
      (m.endCall ev it d stack).HasStack ((m.endCall ev it d stack).calls it).parent := by
  obtain ⟨hfind, hlist, hunmatched, -⟩ := endCall_fields m ev it d stack
  have hcalls : ∀ {β : Type} (g : ExecData → β), (∀ d t, g (ExecData.updateExclusive d t) = g d) →
      (∀ d comm, g (ExecData.addMessage d comm) = g d) →
      (∀ d counter, g (ExecData.addCounter d counter) = g d) → g d = g (m.calls it) →
      ∀ x, g ((m.endCall ev it d stack).calls x) = g (m.calls x) := by
    intro β g hexclusive hmessage hcounter hit x
    rw [proj_endCall g hexclusive hmessage hcounter]
    by_cases hx : x = it
    · rw [hx, Function.update_self, hit]
    · rw [Function.update_of_ne hx]
  have htrackedCalls := hcalls ExecData.tracked (fun _ _ => rfl) ExecData.tracked_addMessage
    ExecData.tracked_addCounter (ExecData.tracked_updateExit hd)
  have hlabels := hcalls ExecData.labelOf (fun _ _ => rfl) ExecData.labelOf_addMessage
    ExecData.labelOf_addCounter (ExecData.labelOf_updateExit hd).1
  have hid : ∀ x, ((m.endCall ev it d stack).calls x).id = (m.calls x).id := fun x =>
    congrArg (fun t => t.1) (htrackedCalls x)
  have hthread : ∀ x, ((m.endCall ev it d stack).calls x).thread = (m.calls x).thread := fun x =>
    congrArg (fun t => t.2.1) (htrackedCalls x)
  have hparent : ∀ x, ((m.endCall ev it d stack).calls x).parent = (m.calls x).parent := fun x =>
    congrArg (fun t => t.2.2.1) (htrackedCalls x)
  have hlift : ∀ {key}, m.HasStack key → (m.endCall ev it d stack).HasStack key := fun hkey =>
    hkey.mono (fun k y hy => hfind ▸ hy) fun k y _ => hparent y
  have hchain := h.chain ev.thread
  rw [hstack] at hchain
  refine ⟨⟨fun thr => ?_, fun thr x hx hx' => ?_⟩, ?_⟩
  · rw [endCall_callStack]
    by_cases hthr : thr = ev.thread
    · subst hthr
      rw [Function.update_self]
      exact hchain.2.congr (fun x _ => hid x) fun x _ => hparent x
    · rw [Function.update_of_ne hthr]
      exact (h.chain thr).congr (fun x _ => hid x) fun x _ => hparent x
  · rw [hlist] at hx
    rw [hparent]
    apply hlift
    by_cases hxit : x = it
    · rw [hxit]
      exact h.hasStack_top htracked hstack
    · refine h.kept thr x hx ⟨⟨?_, fun hopen => hx'.1.2 ?_⟩, ?_⟩
      · have hlt := hx'.1.1
        rwa [endCall_nextRef] at hlt
      · rw [endCall_callStack, hthread]
        by_cases hthr : (m.calls x).thread = ev.thread
        · rw [hthr, hstack] at hopen
          rw [hthr, Function.update_self]
          exact (List.mem_cons.mp hopen).resolve_left hxit
        · rwa [Function.update_of_ne hthr]
      · refine hx'.2.imp (fun hlabel => ?_) fun hwait => (waiting_iff_of_eq hunmatched x).mp hwait
        exact (congrArg Prod.fst (hlabels x)).symm.trans hlabel
  · rw [hparent]
    exact hlift (h.hasStack_top htracked hstack)

/-- A call that starts has the open calls as its ancestors. -/
theorem StacksKept.addEntry (h : m.StacksKept) (htracked : m.Tracked shape own) {ev : Event}
    (hfresh : m.Fresh ev.id) (funcName : String) : (m.addEntry ev funcName).StacksKept := by
  have happ := appended_addEntry m ev funcName
  have hfind : (m.addEntry ev funcName).callIDMap =
    Function.update m.callIDMap ev.id (some m.nextRef) := happ.callIDMap
  have hlist : (m.addEntry ev funcName).callList = Function.update m.callList ev.thread
    (m.callList ev.thread ++ [m.nextRef]) := happ.callList
  have hnew : ((m.addEntry ev funcName).calls m.nextRef).parent =
      ((m.callStack ev.thread).head?.map fun top => (m.calls top).id).getD EventID.root :=
    congrArg (fun t => t.2.2.1) happ.new
  have hnewThread : ((m.addEntry ev funcName).calls m.nextRef).thread = ev.thread :=
    congrArg (fun t => t.2.1) happ.new
  have hid : ∀ x, x < m.nextRef → ((m.addEntry ev funcName).calls x).id = (m.calls x).id :=
    fun x hx => congrArg (fun t => t.1) (happ.old x (Nat.ne_of_lt hx))
  have hthread : ∀ x, x < m.nextRef →
      ((m.addEntry ev funcName).calls x).thread = (m.calls x).thread :=
    fun x hx => congrArg (fun t => t.2.1) (happ.old x (Nat.ne_of_lt hx))
  have hparent : ∀ x, x < m.nextRef →
      ((m.addEntry ev funcName).calls x).parent = (m.calls x).parent :=
    fun x hx => congrArg (fun t => t.2.2.1) (happ.old x (Nat.ne_of_lt hx))
  have hopen := htracked.listed.stacksValid.lt
  have hchainOld : ∀ thr, (m.addEntry ev funcName).ChainToRoot (m.callStack thr) := fun thr =>
    (h.chain thr).congr (fun x hx => hid x (hopen thr x hx)) fun x hx => hparent x (hopen thr x hx)
  refine ⟨fun thr => ?_, fun thr x hx hx' => ?_⟩
  · rw [addEntry_callStack]
    by_cases hthr : thr = ev.thread
    · subst hthr
      rw [Function.update_self]
      refine ⟨?_, hchainOld ev.thread⟩
      rw [hnew]
      cases hstack : m.callStack ev.thread with
      | nil => rfl
      | cons top rest =>
        have htop : top ∈ m.callStack ev.thread := hstack ▸ List.mem_cons_self
        exact (hid top (hopen _ top htop)).symm
    · rw [Function.update_of_ne hthr]
      exact hchainOld thr
  · have hxnew : x ≠ m.nextRef := by
      rintro rfl
      apply hx'.1.2
      rw [hnewThread, addEntry_callStack, Function.update_self]
      exact List.mem_cons_self
    have hxold : x ∈ m.callList thr := by
      rw [hlist] at hx
      by_cases hthr : thr = ev.thread
      · subst hthr
        rw [Function.update_self] at hx
        exact (List.mem_append.mp hx).resolve_right fun hmem => hxnew (List.mem_singleton.mp hmem)
      · rwa [Function.update_of_ne hthr] at hx
    have hlt : x < m.nextRef :=
      (htracked.store.find_lt _ x (htracked.listed.list.find_of_mem hxold)).1
    have hlabel : ((m.addEntry ev funcName).calls x).label = (m.calls x).label :=
      proj_addEntry ExecData.label (fun _ => rfl) m ev funcName hxnew
    rw [hparent x hlt]
    refine (h.kept thr x hxold ⟨⟨hlt, fun hmem => hx'.1.2 ?_⟩, ?_⟩).mono (fun k y hy => ?_)
      fun k y hy => hparent y (htracked.store.find_lt k y hy).1
    · rw [hthread x hlt, addEntry_callStack]
      by_cases hthr : (m.calls x).thread = ev.thread
      · rw [hthr] at hmem ⊢
        rw [Function.update_self]
        exact List.mem_cons_of_mem _ hmem
      · rwa [Function.update_of_ne hthr]
    · exact hx'.2.imp (fun hzero => hlabel.symm.trans hzero) fun hwait =>
        (waiting_iff_of_eq happ.unmatched x).mp hwait
    · rw [hfind, Function.update_of_ne]
      · exact hy
      · rintro rfl
        obtain ⟨hylt, hyid⟩ := htracked.store.find_lt _ y hy
        exact hfresh.2 ⟨y, hylt, Or.inl hyid.symm⟩

/-- A state in which the ancestors of calls and the calls that have to be reported are the same. -/
theorem StacksKept.congr_of_eq (h : m.StacksKept) (hnext : m'.nextRef = m.nextRef)
    (hstack : m'.callStack = m.callStack) (hfind : m'.callIDMap = m.callIDMap)
    (hlist : m'.callList = m.callList)
    (hunmatched : m'.unmatchedCorrelationID = m.unmatchedCorrelationID)
    (hplaced : ∀ x, placed (m'.calls x) = placed (m.calls x))
    (hlabel : ∀ x, (m'.calls x).label = 0 → (m.calls x).label = 0) : m'.StacksKept := by
  refine h.congr hstack hfind hlist hplaced fun x hx => Or.inl ⟨⟨?_, fun hopen => hx.1.2 ?_⟩, ?_⟩
  · exact hnext ▸ hx.1.1
  · rw [hstack, show (m'.calls x).thread = (m.calls x).thread from
      congrArg (fun t => t.2.1) (hplaced x)]
    exact hopen
  · exact hx.2.imp (hlabel x) (waiting_iff_of_eq hunmatched x).mp

/-- Stacks are kept if only indices differ. -/
theorem OnlyIndices.stacksKept (hindices : m.OnlyIndices m') (h : m.StacksKept) :
    m'.StacksKept := by
  obtain ⟨entry, exit, send, recv, rfl⟩ := hindices
  exact h.congr_of_eq rfl rfl rfl rfl rfl (fun _ => rfl) fun _ => id

/-- Adding an event keeps the stacks of calls that have to be reported. -/
theorem StacksKept.addEvent (h : m.StacksKept) (htracked : m.Tracked shape own) {ev : Event}
    {err : EventError} (hok : m.AddEventOK shape ev) (hrun : m.addEvent ev = .ok (m', err)) :
    m'.StacksKept := by
  rw [ADEvent.addEvent] at hrun
  cases htype : ev.type with
  | FUNC =>
    have hok := hok htype
    rw [htype] at hrun
    simp only at hrun
    rw [addFunc] at hrun
    cases hresolve : m.resolveFunc ev with
    | mk m₁ result =>
    have hindices := (resolveFunc_cases hresolve).1
    have hm₁ := hindices.stacksKept h
    have htracked₁ := hindices.tracked htracked
    rw [hresolve] at hok hrun
    cases result with
    | error err =>
      cases hrun
      exact hm₁
    | ok found =>
    obtain ⟨kind, funcName⟩ := found
    cases kind with
    | ENTRY =>
      have hfresh : m₁.Fresh ev.id := by
        obtain ⟨entry, exit, send, recv, rfl⟩ := hindices
        exact hok
      cases hrun
      exact hm₁.addEntry htracked₁ hfresh funcName
    | EXIT =>
      rcases addExit_cases hrun with ⟨-, rfl, -⟩ | ⟨-, it, stack, d, hstack, hd, hmatch⟩
      · exact hm₁
      · obtain ⟨hended, hit⟩ := hm₁.endCall htracked₁ hstack hd
        exact hended.checkAndMatch hit hmatch
    | NA =>
      cases hrun
      exact hm₁
  | COMM =>
    rw [htype] at hrun
    rcases addComm_cases (Except.ok.inj hrun) with ⟨-, -, hindices⟩ | ⟨-, m₁, _, -, hindices, rfl⟩
    · exact hindices.stacksKept h
    · exact (hindices.stacksKept h).congr_of_eq rfl rfl rfl rfl rfl (fun _ => rfl) fun _ => id
  | COUNT =>
    rw [htype] at hrun
    rcases addCounter_cases (Except.ok.inj hrun) with ⟨-, -, rfl⟩ | ⟨-, _, -, rfl⟩
    · exact h
    · exact h.congr_of_eq rfl rfl rfl rfl rfl (fun _ => rfl) fun _ => id

/-- The unlabeled completed calls of the list do not have a call as an ancestor. -/
def NoneBelow (m : ADEvent) (it : CallRef) : Prop :=
  ∀ x < m.nextRef, x ∈ m.callList (m.calls x).thread → m.Completed x → (m.calls x).label = 0 →
    it ∉ m.parentLine (m.calls x).parent

/-- The condition on a labeled completed call when the sweep reaches it: a call that waits or the
lock of another call protects it, or no unlabeled completed call has it as an ancestor. -/
def SpareOK (m : ADEvent) (it : CallRef) : Prop :=
  (m.calls it).label ≠ 0 → (m.calls it).exit ≠ 0 →
    (∃ p ∈ values m.unmatchedCorrelationID, it ∈ p.covers) ∨
      (∃ p ∈ values m.stackLockedUnlabeled, it ∈ p.covers ∧ p.start ≠ it) ∨ m.NoneBelow it

instance (m : ADEvent) (it : CallRef) : Decidable (m.NoneBelow it) :=
  inferInstanceAs (Decidable (∀ x < m.nextRef, _ → _ → _ → _))

instance (m : ADEvent) (it : CallRef) : Decidable (m.SpareOK it) :=
  inferInstanceAs (Decidable (_ → _ → _ ∨ _ ∨ _))

/-- A call without references, which no unlabeled completed call has as an ancestor, can be
deleted. -/
theorem StacksKept.eraseCall (h : m.StacksKept) (htracked : m.Tracked shape own)
    (hit : it ∈ m.callList thr) (hrefs : (m.calls it).references = 0) (hnone : m.NoneBelow it) :
    (m.eraseCall thr it).StacksKept := by
  refine ⟨fun thr' => (h.chain thr').congr (fun _ _ => rfl) fun _ _ => rfl,
    fun thr' x hx hx' => ?_⟩
  have hxold := ((mem_eraseCall htracked.listed.list hit).mp hx).1
  have hpending : m.Pending x := hx'
  obtain ⟨xs, hxs⟩ := h.kept thr' x hxold hpending
  have hline : m.parentLine (m.calls x).parent = xs :=
    (htracked.store.isLine _).unique hxs.isLine
  refine ⟨xs, hxs.erase (htracked.listed.list.find_of_mem hit) ?_⟩
  rw [← hline]
  rcases hpending.2 with hlabel | ⟨cid, p, hp, rfl⟩
  · refine hnone x hpending.1.1 ?_ hpending.1 hlabel
    rw [htracked.listed.list.thread_eq thr' x hxold]
    exact hxold
  · -- the call that waits is protected together with its ancestors
    have hpin : p ∈ m.outstanding := List.mem_append_left _ (mem_values.mpr ⟨cid, hp⟩)
    have hnot := htracked.store.not_covered hrefs hpin
    rw [(htracked.store.pins_fit p hpin).covers_eq, PinStore.mem_coversOf, not_or, not_or] at hnot
    exact hnot.2.1

/-- Lifting the lock of a call keeps the locks of others. -/
theorem Tracked.mem_locks_unlockLabeled (h : m.Tracked shape own) (hit : it ∈ m.callList thr)
    (hrun : m.unlockLabeled it = .ok m') {p : Protection} (hp : p ∈ values m.stackLockedUnlabeled)
    (hne : p.start ≠ it) : p ∈ values m'.stackLockedUnlabeled := by
  rcases unlockLabeled_cases hrun with ⟨rfl, -⟩ | ⟨-, -, m₁, hun, rfl⟩
  · exact hp
  · have hlocks : m₁.stackLockedUnlabeled = m.stackLockedUnlabeled := by
      rw [(deregisterAll_eq.mp hun).2]
      rfl
    obtain ⟨id, hid⟩ := mem_values.mp hp
    refine mem_values.mpr ⟨id, ?_⟩
    change (m₁.stackLockedUnlabeled.erase (m.calls it).id).lookup id = some p
    rw [hlocks, AList.lookup_erase_ne, hid]
    rintro rfl
    have hstart := (h.store.pins_fit p (List.mem_append_right _ hp)).find_start
    change m.callIDMap (m.calls p.start).id = some p.start at hstart
    rw [h.locked_id _ p hid, h.listed.list.find_of_mem hit] at hstart
    exact hne (Option.some.inj hstart).symm

/-- The sweep keeps the stacks of calls that have to be reported. -/
theorem StacksKept.purgeCall (h : m.StacksKept) (htracked : m.Tracked shape own)
    (hit : it ∈ m.callList thr) (hok : m.SweepOK shape it) (hspare : m.SpareOK it)
    {report report' : PurgeReport} (hrun : m.purgeCall report thr it = .ok (m', report')) :
    m'.StacksKept := by
  obtain ⟨m₁, hunlock, hcase⟩ := purgeCall_cases hrun
  obtain ⟨m₂, hunlock', htracked₁, hsame, -⟩ := htracked.unlockLabeled hit hok
  obtain rfl := Except.ok.inj (hunlock.symm.trans hunlock')
  have hcalls : ∀ {β : Type} (g : ExecData → β), (∀ d, g (ExecData.forgetRefs d) = g d) →
      ∀ x, g (m₁.calls x) = g (m.calls x) := by
    intro β g hg x
    rw [← hg (m₁.calls x), ← hg (m.calls x)]
    exact (congrArg (fun m : ADEvent => g (m.calls x)) hsame :)
  have hlist : m₁.callList = m.callList := (congrArg ADEvent.callList hsame :)
  have hfind : m₁.callIDMap = m.callIDMap := (congrArg ADEvent.callIDMap hsame :)
  have hstack : m₁.callStack = m.callStack := (congrArg ADEvent.callStack hsame :)
  have hnext : m₁.nextRef = m.nextRef := (congrArg ADEvent.nextRef hsame :)
  have hlabel := hcalls ExecData.label fun _ => rfl
  have hunmatched : m₁.unmatchedCorrelationID = m.unmatchedCorrelationID := by
    rcases unlockLabeled_cases hunlock with ⟨rfl, -⟩ | ⟨-, -, m₂, hun, rfl⟩
    · rfl
    · change m₂.unmatchedCorrelationID = _
      rw [(deregisterAll_eq.mp hun).2]
      rfl
  have hm₁ : m₁.StacksKept := h.congr_of_eq hnext hstack hfind hlist hunmatched
    (hcalls placed fun _ => rfl) fun x hx => (hlabel x).symm.trans hx
  rcases hcase with ⟨rfl, hdelete, hexit⟩ | ⟨rfl, -⟩ | rfl
  · rw [ExecData.canDelete, decide_eq_true_eq] at hdelete
    obtain ⟨hrefs, hlabeled⟩ := hdelete
    have hit₁ : it ∈ m₁.callList thr := hlist ▸ hit
    have huncovered : ∀ p ∈ m₁.outstanding, it ∉ p.covers := fun p hp =>
      htracked₁.store.not_covered hrefs hp
    rw [hlabel] at hlabeled
    rw [hcalls ExecData.exit fun _ => rfl] at hexit
    refine hm₁.eraseCall htracked₁ hit₁ hrefs ?_
    rcases hspare hlabeled hexit with ⟨p, hp, hcover⟩ | ⟨p, hp, hcover, hne⟩ | hnone
    · rw [← hunmatched] at hp
      exact absurd hcover (huncovered p (List.mem_append_left _ hp))
    · have hp' := htracked.mem_locks_unlockLabeled hit hunlock hp hne
      exact absurd hcover (huncovered p (List.mem_append_right _ hp'))
    · intro x hlt hx hx' hzero
      have hparents : (fun x => (m₁.calls x).parent) = fun x => (m.calls x).parent :=
        funext (hcalls ExecData.parent fun _ => rfl)
      have hthread : (m₁.calls x).thread = (m.calls x).thread :=
        hcalls ExecData.thread (fun _ => rfl) x
      rw [parentLine, hfind, hnext, hparents, hcalls ExecData.parent fun _ => rfl]
      rw [hnext] at hlt
      rw [hlist, hthread] at hx
      refine hnone x hlt hx ⟨hlt, fun hopen => hx'.2 ?_⟩ ((hlabel x).symm.trans hzero)
      rw [hstack, hthread]
      exact hopen
  · have hlock : (m₁.lockUnlabeled it).forgetRefs = m₁.forgetRefs :=
      forgetRefs_stackProtectGC m₁ it
    have hcallsLock : ∀ {β : Type} (g : ExecData → β), (∀ d, g (ExecData.forgetRefs d) = g d) →
        ∀ x, g ((m₁.lockUnlabeled it).calls x) = g (m₁.calls x) := by
      intro β g hg x
      rw [← hg ((m₁.lockUnlabeled it).calls x), ← hg (m₁.calls x)]
      exact (congrArg (fun m : ADEvent => g (m.calls x)) hlock :)
    have hunmatchedLock : (m₁.lockUnlabeled it).unmatchedCorrelationID =
        m₁.unmatchedCorrelationID :=
      (congrArg ADEvent.unmatchedCorrelationID (stackProtectGC_fst m₁ it) :)
    exact hm₁.congr_of_eq (congrArg ADEvent.nextRef hlock :) (congrArg ADEvent.callStack hlock :)
      (congrArg ADEvent.callIDMap hlock :) (congrArg ADEvent.callList hlock :) hunmatchedLock
      (hcallsLock placed fun _ => rfl)
      fun x hx => (hcallsLock ExecData.label (fun _ => rfl) x).symm.trans hx
  · exact hm₁

/-- What the sweep of a purge is asked for at each call. -/
def VisitOK (m : ADEvent) (it : CallRef) : Prop := m.SweepOK (fun _ => True) it ∧ m.SpareOK it

instance (m : ADEvent) (it : CallRef) : Decidable (m.VisitOK it) :=
  inferInstanceAs (Decidable (_ ∧ _))

/-- The accounts are kept together with the stacks of calls that have to be reported. -/
def Reportable (own : CallRef → ℕ) (m : ADEvent) : Prop :=
  m.Tracked (fun _ => True) own ∧ m.StacksKept

/-- The call list can be purged, and calls that have to be reported keep their ancestors. -/
theorem Reportable.purgeCallList (h : m.Reportable own) {threads : List Thread} {nKeepThread : ℕ}
    (hok : m.PurgeOK VisitOK threads nKeepThread) :
    ∃ m' report, m.purgeCallList threads nKeepThread = .ok (m', report) ∧ m'.Reportable own := by
  refine purgeCallList_ok (fun hm => hm.1.listed.list) (fun hm hit hvisit report => ?_)
    (fun hm => ⟨hm.1.clearUnlabeled, ?_⟩) h hok
  · obtain ⟨m', report', hrun, htracked, hothers⟩ := hm.1.purgeCall hit hvisit.1 report
    exact ⟨m', report', hrun, ⟨htracked, hm.2.purgeCall hm.1 hit hvisit.1 hvisit.2 hrun⟩, hothers⟩
  · exact hm.2.congr_of_eq rfl rfl rfl rfl rfl (fun _ => rfl) fun _ => id

/-- The call stack of a call that has to be reported reaches the root, and every call on it is in
the call list. -/
def StackReported (m : ADEvent) (x : CallRef) : Prop :=
  ∃ parents, m.getCallStack (m.calls x).id = (x :: parents, none) ∧
    m.getStackInformation (m.calls x) =
      ((x :: parents).map fun y => getCallStackEntry (m.calls y), none) ∧
    ∀ y ∈ x :: parents, m.callIDMap (m.calls y).id = some y ∧ ∃ thr, y ∈ m.callList thr

/-- Calls that have to be reported have their call stacks. -/
theorem Reportable.stackReported (h : m.Reportable own) {x : CallRef} (hx : x ∈ m.callList thr)
    (hpending : m.Pending x) : m.StackReported x := by
  obtain ⟨htracked, hkept⟩ := h
  have hfind := htracked.listed.list.find_of_mem hx
  have hroot := (htracked.store.id_used x (htracked.store.find_lt _ x hfind).1).2
  obtain ⟨parents, hparents⟩ := hkept.kept thr x hx hpending
  have hfound : ∀ y ∈ x :: parents, m.callIDMap (m.calls y).id = some y := by
    intro y hy
    rcases List.mem_cons.mp hy with rfl | hy
    · exact hfind
    · obtain ⟨k, hk⟩ := hparents.isLine.exists_find hy
      obtain ⟨-, hid⟩ := htracked.store.find_lt k y hk
      change (m.calls y).id = k at hid
      rw [hid]
      exact hk
  have hrank := htracked.store.rank
  have hlt : ∀ k y, m.callIDMap k = some y → y < m.nextRef := fun k y hy =>
    (htracked.store.find_lt k y hy).1
  have hstack : IsStack EventID.root m.callIDMap (fun x => (m.calls x).parent) (m.calls x).id
      (x :: parents) := ⟨hroot, hfind, hparents⟩
  refine ⟨parents, followParents_of_isStack hrank hstack (hlt _), ?_,
    fun y hy => ⟨hfound y hy, _, ((htracked.listed.list.find_iff _ y).mp (hfound y hy)).1⟩⟩
  rw [getStackInformation, followParents_of_isStack hrank hparents (hlt _)]
  rfl

end ADEvent

namespace EventSystem

/-- A stream of events with identifiers of their own. Completed calls are labeled, and the call
list is purged. -/
def Streamed (s : EventSystem) : EventAction → Prop
  | .addEvent ev => ev.type = .FUNC → ev.id ∉ s.ids ∧ ev.id ≠ EventID.root
  | .addCall _ => False
  | .setLabel it label => s.manager.Completed it ∧ label ≠ 0
  | _ => True

/-- The condition on a step: calls start under new identifiers, protections are lifted for the
calls that they were set up for, and the sweep reaches no labeled ancestor of an unlabeled
completed call that nothing else protects. -/
def Spared (s : EventSystem) : EventAction → Prop
  | .addEvent ev => s.manager.AddEventOK (fun _ => True) ev
  | .addCall _ => False
  | .setLabel _ label => label ≠ 0
  | .purgeCallList threads nKeepThread =>
    s.manager.PurgeOK ADEvent.VisitOK threads nKeepThread
  | _ => True

instance (s : EventSystem) (a : EventAction) : Decidable (s.Streamed a) :=
  match a with
  | .link _ _ _ _ => isTrue trivial
  | .ignoreCorrelationIDsForFunction _ => isTrue trivial
  | .addEvent _ => inferInstanceAs (Decidable (_ → _))
  | .addCall _ => isFalse id
  | .setLabel _ _ => inferInstanceAs (Decidable (_ ∧ _))
  | .purgeCallList _ _ => isTrue trivial

instance (s : EventSystem) (a : EventAction) : Decidable (s.Spared a) :=
  match a with
  | .link _ _ _ _ => isTrue trivial
  | .ignoreCorrelationIDsForFunction _ => isTrue trivial
  | .addEvent ev => inferInstanceAs (Decidable (s.manager.AddEventOK (fun _ => True) ev))
  | .addCall _ => isFalse id
  | .setLabel _ label => inferInstanceAs (Decidable (label ≠ 0))
  | .purgeCallList threads nKeepThread =>
    inferInstanceAs (Decidable (s.manager.PurgeOK ADEvent.VisitOK threads nKeepThread))

/-- The accounts are kept, and calls that have to be reported have their ancestors. -/
def Reportable (s : EventSystem) : Prop := ∃ own, s.manager.Reportable own

/-- At the start there are no calls. -/
theorem reportable_start : start.Reportable := by
  refine ⟨0, ADEvent.tracked_new _, fun thr => trivial, fun thr x hx => ?_⟩
  nomatch hx

/-- A step that meets the condition keeps the stacks of calls that have to be reported. -/
theorem Reportable.exec {s t : EventSystem} (hs : s.Reportable) {a : EventAction}
    (ha : s.Spared a) (h : s.exec a = .ok t) : t.Reportable := by
  obtain ⟨own, htracked, hkept⟩ := hs
  have haccounted : (∀ threads nKeepThread, a ≠ .purgeCallList threads nKeepThread) →
      Accounted (fun _ => True) (fun _ => True) s a := by
    intro hpurge
    cases a with
    | addEvent ev => exact ha
    | addCall exec => exact ha.elim
    | purgeCallList threads nKeepThread => exact absurd rfl (hpurge threads nKeepThread)
    | link | ignoreCorrelationIDsForFunction | setLabel => trivial
  have hstep : (∀ threads nKeepThread, a ≠ .purgeCallList threads nKeepThread) →
      t.manager.StacksKept → t.Reportable := by
    intro hpurge ht
    have hs : s.Tracked (fun _ => True) (fun _ => True) := ⟨own, fun _ => trivial, htracked⟩
    obtain ⟨t', hexec, own', -, ht'⟩ := hs.exec trivial (haccounted hpurge)
    obtain rfl := Except.ok.inj (hexec.symm.trans h)
    exact ⟨own', ht', ht⟩
  cases a with
  | link funcMap eventType counterMap gpuThreadMap =>
    cases h
    exact hstep (fun _ _ h => by cases h)
      (hkept.congr_of_eq rfl rfl rfl rfl rfl (fun _ => rfl) fun _ => id)
  | ignoreCorrelationIDsForFunction func =>
    cases h
    exact hstep (fun _ _ h => by cases h)
      (hkept.congr_of_eq rfl rfl rfl rfl rfl (fun _ => rfl) fun _ => id)
  | addEvent ev =>
    rw [EventSystem.exec] at h
    cases hrun : s.manager.addEvent ev with
    | error e =>
      rw [hrun] at h
      cases h
    | ok result =>
      rw [hrun] at h
      cases h
      exact hstep (fun _ _ h => by cases h) (hkept.addEvent htracked ha hrun)
  | addCall exec => exact ha.elim
  | setLabel it label =>
    cases h
    have hplaced : ∀ x, ADEvent.placed ((s.manager.modifyCall it fun d =>
        d.setLabel label).calls x) = ADEvent.placed (s.manager.calls x) := fun x =>
      ADEvent.proj_modifyCall ADEvent.placed s.manager fun _ => rfl
    refine hstep (fun _ _ h => by cases h)
      (hkept.congr_of_eq rfl rfl rfl rfl rfl hplaced fun x hx => ?_)
    · change ((s.manager.modifyCall it fun d => d.setLabel label).calls x).label = 0 at hx
      rw [ADEvent.modifyCall_calls] at hx
      by_cases hxit : x = it
      · subst hxit
        rw [Function.update_self] at hx
        exact absurd hx ha
      · rwa [Function.update_of_ne hxit] at hx
  | purgeCallList threads nKeepThread =>
    obtain ⟨m', report, hrun, hm'⟩ := ADEvent.Reportable.purgeCallList ⟨htracked, hkept⟩ ha
    rw [EventSystem.exec, hrun] at h
    cases h
    exact ⟨own, hm'⟩

/-- In every run in which protections are lifted for the calls that they were set up for, and in
which the sweep reaches no labeled ancestor of an unlabeled completed call that nothing else
protects, the completed calls of the list that are unlabeled or wait for a GPU partner have their
call stacks up to the root. -/
theorem callStack_kept {s : EventSystem} (hrun : Runs (StepOf exec) Spared start s) :
    ∀ thr, ∀ x ∈ s.manager.callList thr, s.manager.Pending x → s.manager.StackReported x := by
  have hs : s.Reportable := hrun.invariant Reportable reportable_start
    fun s a t hs ha hstep => hs.exec ha hstep
  obtain ⟨own, hown⟩ := hs
  exact fun thr x hx hpending => hown.stackReported hx hpending

/-- A function with one child, of which the parent is labeled. -/
def labeledParent : List EventAction :=
  [linkGPU, funcAction 0 0 0 10 0, funcAction 0 0 1 11 1, funcAction 0 1 1 12 2,
    funcAction 0 1 0 13 3, .setLabel 0 1]

/-- The child is not labeled. A purge before its parent is labeled locks both, and a purge after
that keeps the parent. -/
theorem callStack_kept_lockedBefore :
    ∃ s, runAll exec Spared start (labeledParent.take 5 ++
        .purgeCallList [⟨0, 0, 0⟩] 0 :: labeledParent.drop 5 ++ [.purgeCallList [⟨0, 0, 0⟩] 0]) =
          some s ∧
      s.manager.callList ⟨0, 0, 0⟩ = [0, 1] ∧ s.manager.StackReported 1 := by
  have hrun : ∃ s ∈ runAll exec Spared start (labeledParent.take 5 ++
        .purgeCallList [⟨0, 0, 0⟩] 0 :: labeledParent.drop 5 ++ [.purgeCallList [⟨0, 0, 0⟩] 0]),
      s.manager.callList ⟨0, 0, 0⟩ = [0, 1] ∧ s.manager.Completed 1 ∧
        (s.manager.calls 1).label = 0 := by
    decide +kernel
  obtain ⟨s, hs, hlist, hdone, hlabel⟩ := hrun
  have hchild : 1 ∈ s.manager.callList ⟨0, 0, 0⟩ := by
    rw [hlist]
    decide
  exact ⟨s, hs, hlist,
    callStack_kept (runs_of_runAll _ hs) _ 1 hchild ⟨hdone, Or.inl hlabel⟩⟩

/-- The first purge after the parent is labeled deletes it, before it locks the child. -/
theorem not_callStack_kept_labeledParent :
    ¬∀ s, Runs (StepOf exec) Streamed start s →
      ∀ threads nKeepThread t, s.exec (.purgeCallList threads nKeepThread) = .ok t →
        ∀ thr, ∀ x ∈ t.manager.callList thr, t.manager.Pending x → t.manager.StackReported x := by
  intro hall
  have hrun : ∃ s ∈ runAll exec Streamed start labeledParent,
      ∃ t ∈ (s.exec (.purgeCallList [⟨0, 0, 0⟩] 0)).toOption,
        1 ∈ t.manager.callList ⟨0, 0, 0⟩ ∧ t.manager.Completed 1 ∧
          (t.manager.calls 1).label = 0 ∧
          (t.manager.getCallStack (t.manager.calls 1).id).2 ≠ none := by
    decide +kernel
  obtain ⟨s, hs, t, ht, hmem, hdone, hlabel, hcut⟩ := hrun
  have hexec : s.exec (.purgeCallList [⟨0, 0, 0⟩] 0) = .ok t := by
    cases hpurge : s.exec (.purgeCallList [⟨0, 0, 0⟩] 0) with
    | error e =>
      rw [hpurge] at ht
      cases ht
    | ok t' =>
      rw [hpurge] at ht
      cases ht
      rfl
  obtain ⟨parents, hstack, -⟩ :=
    hall s (runs_of_runAll _ hs) _ _ t hexec _ 1 hmem ⟨hdone, Or.inl hlabel⟩
  rw [hstack] at hcut
  exact hcut rfl

end EventSystem

end Chimbuko
