import Chimbuko.AD.ADEventAttribution

/-!
# Messages and counters over whole runs

The event manager together with the history of each thread: the messages and counters that were
accepted and the calls that ended, one after another. Every message or counter is on the stack of
its thread or held by one ended call of the thread, and if times do not decrease per thread, by
the first call to end of those that had started by its time. The entry and exit of a call count
as the unsigned longs that they were cast from.
-/

namespace Chimbuko

open Attribution TransitionSystem

namespace ItemKind

variable {α : Type} (K : ItemKind α)

/-- The history of each thread after an event. -/
def record (m : ADEvent) (ev : Event) (hist : Thread → List (Happening α CallRef)) :
    Thread → List (Happening α CallRef) :=
  Function.update hist ev.thread (hist ev.thread ++ (K.happening m ev).toList)

/-- Every item that was accepted is on the stack of its thread or held by one call of the thread
that has ended, and calls hold what is in their interval. -/
structure Attributed (m : ADEvent) (hist : Thread → List (Happening α CallRef))
    (held : CallRef → List α) : Prop where
  conserves : Conserves hist (K.stack m) held
  closed : ∀ thr, ∀ x ∈ finished (hist thr), m.Closed x ∧ (m.calls x).thread = thr
  items : ∀ x, K.items (m.calls x) = (held x).map (K.setExecKey (m.calls x).id)
  within : ∀ x, ∀ a ∈ held x, (m.calls x).entryTs ≤ K.ts a ∧ K.ts a ≤ (m.calls x).exitTs

variable {K} {m m' : ADEvent} {hist : Thread → List (Happening α CallRef)}
  {held : CallRef → List α}

/-- A call that has not ended holds nothing. -/
theorem Attributed.held_nil (h : K.Attributed m hist held) {x : CallRef} (hx : ¬m.Closed x) :
    held x = [] :=
  h.conserves.held_nil x fun thr hmem => hx (h.closed thr x hmem).1

/-- A call that has not ended has no items. -/
theorem Attributed.items_nil (h : K.Attributed m hist held) {x : CallRef} (hx : ¬m.Closed x) :
    K.itemsOf m x = [] := by
  have hitems := h.items x
  rw [h.held_nil hx] at hitems
  exact hitems

/-- What ended calls hold stays in order if they keep their origin and exit. -/
theorem Attributed.carry (h : K.Attributed m hist held)
    {hist' : Thread → List (Happening α CallRef)}
    (hconserves : Conserves hist' (K.stack m') held)
    (hfinished : ∀ thr, finished (hist' thr) = finished (hist thr))
    (hclosed : ∀ x, m.Closed x → m'.Closed x)
    (horigin : ∀ x, m.Closed x → (m'.calls x).origin = (m.calls x).origin)
    (hexit : ∀ x, m.Closed x → (m'.calls x).exit = (m.calls x).exit)
    (hitems : K.itemsOf m' = K.itemsOf m) : K.Attributed m' hist' held := by
  refine ⟨hconserves, fun thr x hx => ?_, fun x => ?_, fun x a ha => ?_⟩
  · rw [hfinished] at hx
    obtain ⟨hx, hthread⟩ := h.closed thr x hx
    have hthread' : (m'.calls x).thread = (m.calls x).thread :=
      congrArg (fun o => o.2.1) (horigin x hx)
    exact ⟨hclosed x hx, hthread'.trans hthread⟩
  · have hold : K.items (m'.calls x) = K.items (m.calls x) := congrFun hitems x
    by_cases hx : m.Closed x
    · have hid : (m'.calls x).id = (m.calls x).id := congrArg (fun o => o.1) (horigin x hx)
      rw [hold, hid]
      exact h.items x
    · rw [hold, h.items x, h.held_nil hx]
      rfl
  · have hx : m.Closed x := by
      by_contra hx
      rw [h.held_nil hx] at ha
      cases ha
    have hexitTs : (m'.calls x).exitTs = (m.calls x).exitTs :=
      congrArg toUnsignedLong (hexit x hx)
    rw [ExecData.entryTs_of_origin (horigin x hx), hexitTs]
    exact h.within x a ha

/-- The calls of a kind in time order: those that wait are on the stacks, and each call holds the
items that belong to it. -/
def Ordered (K : ItemKind α) (m : ADEvent) (lastTs : Thread → ℕ)
    (hist : Thread → List (Happening α CallRef)) (held : CallRef → List α) : Prop :=
  InOrder K.ts (fun x => (m.calls x).entryTs) lastTs hist (K.stack m) held

/-- An event keeps the attribution, and also its order if it does not go back in time. -/
theorem Attributed.addEvent (hK : K.Faithful) (h : K.Attributed m hist held)
    (hvalid : m.StacksValid) (hthreads : m.OnThreads) (hcast : m.EntriesCast) {ev : Event}
    (hlt : ev.ts < 2 ^ 64) {err : EventError} (hadd : m.addEvent ev = .ok (m', err)) :
    ∃ held', K.Attributed m' (K.record m ev hist) held' ∧
      ∀ lastTs : Thread → ℕ, lastTs ev.thread ≤ ev.ts → K.Ordered m lastTs hist held →
        K.Ordered m' (Function.update lastTs ev.thread ev.ts) (K.record m ev hist) held' := by
  have hextends := ADEvent.extends_addEvent hadd
  obtain ⟨horigin, hexit, -⟩ := ADEvent.origin_addEvent hadd
  have horigin' : ∀ x, m.Closed x → (m'.calls x).origin = (m.calls x).origin := fun x hx =>
    horigin x hx.1
  have hnew : K.itemsOf m m.nextRef = [] := h.items_nil fun hx => lt_irrefl _ hx.1
  have heffect := hK m ev m' err hvalid hcast hlt hnew hadd
  have hmono : ∀ lastTs : Thread → ℕ, lastTs ev.thread ≤ ev.ts → K.Ordered m lastTs hist held →
      InOrder K.ts (fun x => (m'.calls x).entryTs) (Function.update lastTs ev.thread ev.ts) hist
        (K.stack m) held := by
    intro lastTs hts hordered
    refine hordered.mono (fun thr => ?_) fun thr x hx => ?_
    · by_cases hthr : thr = ev.thread
      · subst hthr
        simpa using hts
      · rw [Function.update_of_ne hthr]
    · exact (ExecData.entryTs_of_origin (horigin' x (h.closed thr x hx).1)).symm
  unfold record
  cases hhappening : K.happening m ev with
  | none =>
    rw [hhappening] at heffect
    obtain ⟨hstack, hitems⟩ := heffect
    rw [Option.toList_none, List.append_nil, Function.update_eq_self]
    refine ⟨held, h.carry (hstack ▸ h.conserves) (fun _ => rfl) hextends.closed horigin' hexit
      hitems, fun lastTs hts hordered => ?_⟩
    unfold Ordered
    rw [hstack]
    exact hmono lastTs hts hordered
  | some e =>
  rw [hhappening] at heffect
  rw [Option.toList_some]
  cases heffect with
  | arrive a htime hstack hitems =>
    refine ⟨held, h.carry (hstack ▸ h.conserves.arrive ev.thread a) (fun thr => ?_)
      hextends.closed horigin' hexit hitems, fun lastTs hts hordered => ?_⟩
    · by_cases hthr : thr = ev.thread
      · subst hthr
        simp [finished]
      · rw [Function.update_of_ne hthr]
    · unfold Ordered
      rw [hstack]
      exact (hmono lastTs hts hordered).arrive ev.thread (by simpa using htime)
  | finish it htop hclosed hexitIt hended hstack hitems =>
    have hopen : ¬m.Closed it := fun hx => hx.2 _ htop
    have hfresh : ∀ thr, it ∉ finished (hist thr) := fun thr hmem =>
      hopen (h.closed thr it hmem).1
    have horiginSelf := horigin it (hvalid.lt _ it htop)
    have hid : (m'.calls it).id = (m.calls it).id := congrArg (fun o => o.1) horiginSelf
    have hentry : (m'.calls it).entryTs = (m.calls it).entryTs :=
      ExecData.entryTs_of_origin horiginSelf
    have hexitTs : (m'.calls it).exitTs = ev.ts := by
      rw [ExecData.exitTs, hexitIt, toUnsignedLong_toLong hlt]
    have hthread : (m'.calls it).thread = ev.thread :=
      (congrArg (fun o => o.2.1) horiginSelf :).trans (hthreads _ it htop)
    have hother : ∀ x, x ≠ it → K.items (m'.calls x) = K.items (m.calls x) := by
      intro x hx
      have hx' := congrFun hitems x
      rwa [Function.update_of_ne hx] at hx'
    refine ⟨Function.update held it
      (taken K.ts (m.calls it).entryTs ev.ts (K.stack m ev.thread)).reverse,
      ⟨?_, fun thr x hx => ?_, fun x => ?_, fun x a ha => ?_⟩, fun lastTs hts hordered => ?_⟩
    · rw [hstack]
      exact h.conserves.finish ev.thread hfresh K.ts (m.calls it).entryTs ev.ts
    · have hcase : x ∈ finished (hist thr) ∨ x = it ∧ thr = ev.thread := by
        by_cases hthr : thr = ev.thread
        · subst hthr
          simpa [finished] using hx
        · rw [Function.update_of_ne hthr] at hx
          exact Or.inl hx
      rcases hcase with hx | ⟨rfl, rfl⟩
      · obtain ⟨hx, hthread⟩ := h.closed thr x hx
        have hthread' : (m'.calls x).thread = (m.calls x).thread :=
          congrArg (fun o => o.2.1) (horigin' x hx)
        exact ⟨hextends.closed x hx, hthread'.trans hthread⟩
      · exact ⟨hclosed, hthread⟩
    · by_cases hx : x = it
      · subst hx
        have hx := congrFun hitems x
        rw [Function.update_self, h.items_nil hopen, List.append_nil] at hx
        rw [Function.update_self, hid, List.map_reverse]
        exact hx
      · rw [Function.update_of_ne hx, hother x hx]
        by_cases hcl : m.Closed x
        · have hid' : (m'.calls x).id = (m.calls x).id :=
            congrArg (fun o => o.1) (horigin' x hcl)
          rw [hid']
          exact h.items x
        · rw [h.items x, h.held_nil hcl]
          rfl
    · by_cases hx : x = it
      · subst hx
        rw [Function.update_self, List.mem_reverse] at ha
        rw [hentry, hexitTs]
        exact mem_taken ha
      · rw [Function.update_of_ne hx] at ha
        have hcl : m.Closed x := by
          by_contra hcl
          rw [h.held_nil hcl] at ha
          cases ha
        have hexitTs' : (m'.calls x).exitTs = (m.calls x).exitTs :=
          congrArg toUnsignedLong (hexit x hcl)
        rw [ExecData.entryTs_of_origin (horigin' x hcl), hexitTs']
        exact h.within x a ha
    · have hfinish := (hmono lastTs hts hordered).finish ev.thread hfresh
      simp only [Function.update_self, hentry] at hfinish
      unfold Ordered
      rw [hstack]
      exact hfinish

/-- What does not concern stacks, items, origins and exits keeps the attribution and its order. -/
theorem Attributed.congr (h : K.Attributed m hist held) (hstack : K.stack m' = K.stack m)
    (hitems : K.itemsOf m' = K.itemsOf m) (hclosed : ∀ x, m.Closed x → m'.Closed x)
    (horigin : ∀ x, (m'.calls x).origin = (m.calls x).origin)
    (hexit : ∀ x, (m'.calls x).exit = (m.calls x).exit) :
    K.Attributed m' hist held ∧
      ∀ lastTs, K.Ordered m lastTs hist held → K.Ordered m' lastTs hist held := by
  refine ⟨h.carry (hstack ▸ h.conserves) (fun _ => rfl) hclosed (fun x _ => horigin x)
    (fun x _ => hexit x) hitems, fun lastTs hordered => ?_⟩
  unfold Ordered
  rw [hstack]
  exact hordered.mono (fun _ => le_rfl) fun _ x _ =>
    (ExecData.entryTs_of_origin (horigin x)).symm

variable (K)

/-- Every item that was accepted is on the stack of its thread or held by one call of the thread
that has ended, and is in the interval of that call. -/
def AttributedOnce (m : ADEvent) (hist : Thread → List (Happening α CallRef)) : Prop :=
  ∃ held, K.Attributed m hist held

/-- The stacks have the items that belong to no call yet, the latest on top, and each ended call
has those that belong to it in the order of their arrival: it was the first to end after their
arrival that had started by their time. -/
def AttributedInOrder (m : ADEvent) (hist : Thread → List (Happening α CallRef)) : Prop :=
  ∀ thr, K.stack m thr = (waiting K.ts (fun x => (m.calls x).entryTs) (hist thr)).reverse ∧
    ∀ x ∈ finished (hist thr), K.items (m.calls x) =
      (attached K.ts (fun x => (m.calls x).entryTs) (hist thr) x).map
        (K.setExecKey (m.calls x).id)

end ItemKind

/-- The event manager and what happened on each thread. -/
structure EventHistory where
  events : EventSystem
  comms : Thread → List (Happening CommData CallRef)
  counters : Thread → List (Happening CounterData CallRef)

namespace EventHistory

/-- No event was added yet. -/
def start : EventHistory :=
  { events := EventSystem.start, comms := fun _ => [], counters := fun _ => [] }

/-- An action, with what arrives and finishes in it. -/
def exec (s : EventHistory) (a : EventAction) : Except String EventHistory := do
  let events ← s.events.exec a
  match a with
  | .addEvent ev => pure {
      events := events
      comms := ItemKind.comms.record s.events.manager ev s.comms
      counters := ItemKind.counters.record s.events.manager ev s.counters }
  | _ => pure { s with events := events }

/-- Calls start and end with events, whose times are unsigned longs. -/
def Streamed (_ : EventHistory) : EventAction → Prop
  | .addEvent ev => ev.ts < 2 ^ 64
  | .addCall _ => False
  | _ => True

/-- The events of each thread come in time order. -/
def TimeOrdered (s : EventHistory) : EventAction → Prop
  | .addEvent ev => s.events.lastTs ev.thread ≤ ev.ts ∧ ev.ts < 2 ^ 64
  | .addCall _ => False
  | _ => True

instance (s : EventHistory) : (a : EventAction) → Decidable (s.TimeOrdered a)
  | .addEvent ev => inferInstanceAs (Decidable (s.events.lastTs ev.thread ≤ ev.ts ∧ ev.ts < 2 ^ 64))
  | .addCall _ => inferInstanceAs (Decidable False)
  | .link .. => inferInstanceAs (Decidable True)
  | .ignoreCorrelationIDsForFunction _ => inferInstanceAs (Decidable True)
  | .setLabel .. => inferInstanceAs (Decidable True)
  | .purgeCallList .. => inferInstanceAs (Decidable True)

/-- A stream in time order is a stream. -/
theorem streamed_of_timeOrdered (s : EventHistory) (a : EventAction) (ha : s.TimeOrdered a) :
    s.Streamed a := by
  cases a with
  | addEvent ev => exact ha.2
  | addCall exec => exact ha
  | link => trivial
  | ignoreCorrelationIDsForFunction => trivial
  | setLabel => trivial
  | purgeCallList => trivial

/-- Items are attributed, and in order if time is. -/
def Attributes (inTime : Prop) (s : EventHistory) {α : Type} (K : ItemKind α)
    (hist : Thread → List (Happening α CallRef)) : Prop :=
  ∃ held, K.Attributed s.events.manager hist held ∧
    (inTime → K.Ordered s.events.manager s.events.lastTs hist held)

/-- What holds along every run, in time order or not. -/
structure Valid (inTime : Prop) (s : EventHistory) : Prop where
  stacksValid : s.events.manager.StacksValid
  onThreads : s.events.manager.OnThreads
  entriesCast : s.events.manager.EntriesCast
  comms : s.Attributes inTime ItemKind.comms s.comms
  counters : s.Attributes inTime ItemKind.counters s.counters

/-- The start is valid. -/
theorem valid_start (inTime : Prop) : start.Valid inTime :=
  ⟨⟨fun _ _ h => absurd h List.not_mem_nil, fun _ => List.nodup_nil,
      fun _ _ _ h => absurd h List.not_mem_nil⟩,
    fun _ _ h => absurd h List.not_mem_nil, fun x hx => absurd hx (Nat.not_lt_zero x),
    ⟨fun _ => [], ⟨conserves_nil, fun _ _ h => absurd h List.not_mem_nil, fun _ => rfl,
      fun _ _ h => absurd h List.not_mem_nil⟩, fun _ => inOrder_nil⟩,
    ⟨fun _ => [], ⟨conserves_nil, fun _ _ h => absurd h List.not_mem_nil, fun _ => rfl,
      fun _ _ h => absurd h List.not_mem_nil⟩, fun _ => inOrder_nil⟩⟩

/-- Linking maps, labels and purges concern neither stacks nor what calls hold. -/
theorem exec_quiet {s t : EventSystem} {a : EventAction} (h : s.exec a = .ok t)
    (hevent : ∀ ev, a ≠ .addEvent ev) (hcall : ∀ exec, a ≠ .addCall exec) :
    t.lastTs = s.lastTs ∧ t.manager.callStack = s.manager.callStack ∧
      t.manager.nextRef = s.manager.nextRef ∧ t.manager.commStack = s.manager.commStack ∧
      t.manager.counterStack = s.manager.counterStack ∧
      ∀ {β : Type} (g : ExecData → β), (∀ d label, g (ExecData.setLabel d label) = g d) →
        (∀ d, g (ExecData.forgetRefs d) = g d) →
        ∀ x, g (t.manager.calls x) = g (s.manager.calls x) := by
  cases a with
  | addEvent ev => exact absurd rfl (hevent ev)
  | addCall exec => exact absurd rfl (hcall exec)
  | link funcMap eventType counterMap gpuThreadMap =>
    cases h
    exact ⟨rfl, rfl, rfl, rfl, rfl, fun _ _ _ _ => rfl⟩
  | ignoreCorrelationIDsForFunction func =>
    cases h
    exact ⟨rfl, rfl, rfl, rfl, rfl, fun _ _ _ _ => rfl⟩
  | setLabel it label =>
    cases h
    refine ⟨rfl, rfl, rfl, rfl, rfl, fun g hlabel _ x => ?_⟩
    have hcall := ADEvent.proj_modifyCall g s.manager (x := x)
      (f := fun d => d.setLabel label) fun _ => hlabel (s.manager.calls it) label
    exact hcall
  | purgeCallList threads nKeepThread =>
    rw [EventSystem.exec] at h
    cases hpurge : s.manager.purgeCallList threads nKeepThread with
    | error e =>
      rw [hpurge] at h
      cases h
    | ok result =>
      rw [hpurge] at h
      cases h
      obtain ⟨callIDMap, callList, hm⟩ := ADEvent.purgeCallList_cases hpurge
      refine ⟨rfl, (congrArg ADEvent.callStack hm :), (congrArg ADEvent.nextRef hm :),
        (congrArg ADEvent.commStack hm :), (congrArg ADEvent.counterStack hm :),
        fun g _ hrefs x => ?_⟩
      have hx : (result.1.calls x).forgetRefs = (s.manager.calls x).forgetRefs :=
        (congrArg (fun m : ADEvent => m.calls x) hm :)
      rw [← hrefs (result.1.calls x), hx, hrefs]

/-- A step other than an event keeps attributions. -/
theorem Attributes.congr {inTime : Prop} {s t : EventHistory} {α : Type} {K : ItemKind α}
    {hist : Thread → List (Happening α CallRef)} (h : s.Attributes inTime K hist)
    (hlast : t.events.lastTs = s.events.lastTs)
    (hcall : t.events.manager.callStack = s.events.manager.callStack)
    (hnext : t.events.manager.nextRef = s.events.manager.nextRef)
    (hstack : K.stack t.events.manager = K.stack s.events.manager)
    (hitems : ∀ x, K.items (t.events.manager.calls x) = K.items (s.events.manager.calls x))
    (horigin : ∀ x, (t.events.manager.calls x).origin = (s.events.manager.calls x).origin)
    (hexit : ∀ x, (t.events.manager.calls x).exit = (s.events.manager.calls x).exit) :
    t.Attributes inTime K hist := by
  obtain ⟨held, hattributed, hordered⟩ := h
  have hclosed : ∀ x, s.events.manager.Closed x → t.events.manager.Closed x := by
    intro x hx
    unfold ADEvent.Closed
    rwa [hcall, hnext]
  obtain ⟨hattributed', hordered'⟩ :=
    hattributed.congr hstack (funext hitems) hclosed horigin hexit
  refine ⟨held, hattributed', fun htime => ?_⟩
  rw [hlast]
  exact hordered' _ (hordered htime)

/-- One step keeps the invariant. -/
theorem Valid.exec {inTime : Prop} {s t : EventHistory} (hs : s.Valid inTime) {a : EventAction}
    (ha : s.Streamed a) (htime : inTime → s.TimeOrdered a) (h : s.exec a = .ok t) :
    t.Valid inTime := by
  rw [EventHistory.exec] at h
  cases hevents : s.events.exec a with
  | error e =>
    rw [hevents] at h
    cases h
  | ok events =>
  rw [hevents] at h
  by_cases hevent : ∃ ev, a = .addEvent ev
  · obtain ⟨ev, rfl⟩ := hevent
    rw [EventSystem.exec] at hevents
    cases hadd : s.events.manager.addEvent ev with
    | error e =>
      rw [hadd] at hevents
      cases hevents
    | ok result =>
      obtain ⟨manager, err⟩ := result
      rw [hadd] at hevents
      cases hevents
      cases h
      obtain ⟨comms, hcomms, hcommsOrdered⟩ := hs.comms
      obtain ⟨counters, hcounters, hcountersOrdered⟩ := hs.counters
      obtain ⟨comms', hcomms', hcommsOrdered'⟩ := hcomms.addEvent ItemKind.faithful_comms
        hs.stacksValid hs.onThreads hs.entriesCast ha hadd
      obtain ⟨counters', hcounters', hcountersOrdered'⟩ := hcounters.addEvent
        ItemKind.faithful_counters hs.stacksValid hs.onThreads hs.entriesCast ha hadd
      exact ⟨(ADEvent.extends_addEvent hadd).stacksValid hs.stacksValid,
        (ADEvent.origin_addEvent hadd).2.2 hs.stacksValid hs.onThreads,
        hs.entriesCast.addEvent ha hadd,
        ⟨comms', hcomms', fun hin => hcommsOrdered' _ (htime hin).1 (hcommsOrdered hin)⟩,
        ⟨counters', hcounters',
          fun hin => hcountersOrdered' _ (htime hin).1 (hcountersOrdered hin)⟩⟩
  · have hcall : ∀ exec, a ≠ .addCall exec := by
      rintro exec rfl
      exact ha
    have ht : t = { s with events := events } := by
      cases a with
      | addEvent ev => exact absurd ⟨ev, rfl⟩ hevent
      | addCall exec => exact absurd rfl (hcall exec)
      | link => exact (Except.ok.inj h).symm
      | ignoreCorrelationIDsForFunction => exact (Except.ok.inj h).symm
      | setLabel => exact (Except.ok.inj h).symm
      | purgeCallList => exact (Except.ok.inj h).symm
    obtain ⟨hlast, hstack, hnext, hcomms, hcounters, hproj⟩ := exec_quiet hevents
      (fun ev hev => hevent ⟨ev, hev⟩) hcall
    have horigin := hproj ExecData.origin (fun _ _ => rfl) fun _ => rfl
    have hexit := hproj ExecData.exit (fun _ _ => rfl) fun _ => rfl
    subst ht
    refine ⟨⟨?_, ?_, ?_⟩, fun thr x hx => ?_, fun x hx => ?_,
      hs.comms.congr hlast hstack hnext hcomms
        (hproj ExecData.messages (fun _ _ => rfl) fun _ => rfl) horigin hexit,
      hs.counters.congr hlast hstack hnext hcounters
        (hproj ExecData.counters (fun _ _ => rfl) fun _ => rfl) horigin hexit⟩
    · rw [hstack, hnext]
      exact hs.stacksValid.lt
    · rw [hstack]
      exact hs.stacksValid.nodup
    · rw [hstack]
      exact hs.stacksValid.thread_eq
    · rw [hstack] at hx
      rw [hproj ExecData.thread (fun _ _ => rfl) fun _ => rfl]
      exact hs.onThreads thr x hx
    · rw [hnext] at hx
      exact (hs.entriesCast x hx).congr (congrArg (fun o => o.2.2) (horigin x))

/-- If the events come in time, the items are attributed in order. -/
theorem Attributes.inOrder {s : EventHistory} {α : Type} {K : ItemKind α}
    {hist : Thread → List (Happening α CallRef)} (h : s.Attributes True K hist) :
    K.AttributedInOrder s.events.manager hist := by
  obtain ⟨held, hattributed, hordered⟩ := h
  obtain ⟨hstack, hheld, -, -⟩ := hordered trivial
  intro thr
  refine ⟨hstack thr, fun x hx => ?_⟩
  rw [hattributed.items x, hheld thr x hx]

/-- Every message or counter that was accepted is on the stack of its thread or held by one ended
call of the thread, in whose interval it is, with entry and exit read as the unsigned longs that
they were cast from. If the events of each thread come in time order, this is the first call to end
after the arrival that had started by then, and calls hold their items in order of arrival. No
counter is ever rejected by the call it is flushed to. -/
theorem attributed_exactlyOnce (s : EventHistory) :
    (Runs (StepOf exec) Streamed start s →
      ItemKind.comms.AttributedOnce s.events.manager s.comms ∧
        ItemKind.counters.AttributedOnce s.events.manager s.counters) ∧
    (Runs (StepOf exec) TimeOrdered start s →
      ItemKind.comms.AttributedInOrder s.events.manager s.comms ∧
        ItemKind.counters.AttributedInOrder s.events.manager s.counters) ∧
    ∀ (ev : Event) (it : CallRef) (d : ExecData) (reject : ExecData → CounterData → ExecData)
      (stack : List CounterData), Runs (StepOf exec) Streamed start s → ev.ts < 2 ^ 64 →
      it < s.events.manager.nextRef → (s.events.manager.calls it).updateExit ev = some d →
      ADEvent.flushStack CounterData.ts ev.ts (fun d counter =>
        if toLong counter.ts < d.entry ∨ d.exit < toLong counter.ts then reject d counter
        else d.addCounter counter) stack d =
      ADEvent.flushStack CounterData.ts ev.ts ExecData.addCounter stack d := by
  refine ⟨fun hrun => ?_, fun hrun => ?_, fun ev it d reject stack hrun hlt hit hd => ?_⟩
  · have hs := hrun.invariant (Valid False) (valid_start False) fun _ _ _ hs ha hstep =>
      hs.exec ha False.elim hstep
    obtain ⟨comms, hcomms, -⟩ := hs.comms
    obtain ⟨counters, hcounters, -⟩ := hs.counters
    exact ⟨⟨comms, hcomms⟩, ⟨counters, hcounters⟩⟩
  · have hs := hrun.invariant (Valid True) (valid_start True) fun _ _ _ hs ha hstep =>
      hs.exec (streamed_of_timeOrdered _ _ ha) (fun _ => ha) hstep
    exact ⟨hs.comms.inOrder, hs.counters.inOrder⟩
  · have hs := hrun.invariant (Valid False) (valid_start False) fun _ _ _ hs ha hstep =>
      hs.exec ha False.elim hstep
    obtain ⟨horigin, hexit, -, -, hended⟩ := ExecData.updateExit_some hd
    have hentry : d.entry = (s.events.manager.calls it).entry := congrArg (fun o => o.2.2) horigin
    exact ADEvent.flushStack_accepts hlt reject stack ((hs.entriesCast it hit).congr hentry)
      (hentry ▸ hended) hexit

/-- A function and its child, with a message during the child and one after it. -/
def sendingCalls : List EventAction :=
  let names := ((AList.singleton (0 : ℤ) "ENTRY").insert 1 "EXIT").insert 2 "SEND"
  let func (eid fid ts idx : ℕ) : EventAction := .addEvent
    { data := [0, 0, 0, eid, fid, ts], type := .FUNC, idx := idx,
      id := { rank := 0, step := 0, idx := idx } }
  let send (ts idx : ℕ) : EventAction := .addEvent
    { data := [0, 0, 0, 2, 0, 0, 8, ts], type := .COMM, idx := idx,
      id := { rank := 0, step := 0, idx := idx } }
  [.link (some ((AList.singleton (0 : ℤ) "parent").insert 1 "child")) (some names) none none,
    func 0 0 10 0, func 0 1 12 1, send 13 2, func 1 1 15 3, send 17 4, func 1 0 20 5]

/-- The child and its parent have a message each. -/
theorem attributed_exactlyOnce_sending :
    ∃ s : EventHistory, ((s.events.manager.calls 0).messages.map CommData.ts,
        (s.events.manager.calls 1).messages.map CommData.ts) = ([17], [13]) ∧
      ItemKind.comms.AttributedOnce s.events.manager s.comms ∧
      ItemKind.comms.AttributedInOrder s.events.manager s.comms := by
  have hrun : ∃ s ∈ runAll exec TimeOrdered start sendingCalls,
      ((s.events.manager.calls 0).messages.map CommData.ts,
        (s.events.manager.calls 1).messages.map CommData.ts) = ([17], [13]) := by
    decide +kernel
  obtain ⟨s, hs, hmessages⟩ := hrun
  obtain ⟨honce, horder, -⟩ := attributed_exactlyOnce s
  have hruns := runs_of_runAll sendingCalls hs
  exact ⟨s, hmessages, (honce (hruns.mono streamed_of_timeOrdered)).1, (horder hruns).1⟩

/-- A function from time `2 ^ 63` on, with a message. -/
def wrappedSend : List EventAction :=
  let names := ((AList.singleton (0 : ℤ) "ENTRY").insert 1 "EXIT").insert 2 "SEND"
  let func (eid ts idx : ℕ) : EventAction := .addEvent
    { data := [0, 0, 0, eid, 0, ts], type := .FUNC, idx := idx,
      id := { rank := 0, step := 0, idx := idx } }
  [.link (some (AList.singleton (0 : ℤ) "caller")) (some names) none none, func 0 (2 ^ 63) 0,
    .addEvent { data := [0, 0, 0, 2, 0, 0, 8, 2 ^ 63 + 1], type := .COMM, idx := 1,
                id := { rank := 0, step := 0, idx := 1 } }, func 1 (2 ^ 63 + 2) 2]

/-- As signed numbers, the recorded entry and exit need not enclose the time of a message: both
are negative here. -/
theorem not_within_signed :
    ¬∀ s : EventHistory, Runs (StepOf exec) Streamed start s →
      ∀ x, ∀ comm ∈ (s.events.manager.calls x).messages,
        (s.events.manager.calls x).entry ≤ comm.ts ∧
          (comm.ts : ℤ) ≤ (s.events.manager.calls x).exit := by
  intro h
  have hrun : ∃ s ∈ runAll exec TimeOrdered start wrappedSend,
      ∃ comm ∈ (s.events.manager.calls 0).messages,
        ¬(comm.ts : ℤ) ≤ (s.events.manager.calls 0).exit := by
    decide +kernel
  obtain ⟨s, hs, comm, hcomm, hafter⟩ := hrun
  have hruns := (runs_of_runAll wrappedSend hs).mono streamed_of_timeOrdered
  exact hafter (h s hruns 0 comm hcomm).2

end EventHistory

end Chimbuko
