import Chimbuko.AD.ADEventCallTree
import Chimbuko.AD.ADEventExecData
import Chimbuko.Library.Attribution

/-!
# Messages and counters of the calls

Communication and counter events wait on the stacks of their thread until a call takes them when
it ends. Whatever the order of events, a call takes only what is in its interval, and nothing is
lost or taken twice. If the events of each thread come in time order, each is taken by the first
call to end after it that had started by then.
-/

namespace Chimbuko

open Attribution TransitionSystem

/-- A message with the identifier of the call that it belongs to. -/
def CommData.setExecKey (execkey : EventID) (comm : CommData) : CommData :=
  { comm with execkey := execkey }

/-- A counter with the identifier of the call that it belongs to. -/
def CounterData.setExecKey (execkey : EventID) (counter : CounterData) : CounterData :=
  { counter with execkey := execkey }

namespace ExecData

/-- When a call started, as an unsigned long. -/
def entryTs (d : ExecData) : ℕ := toUnsignedLong d.entry

/-- When a call ended, as an unsigned long. -/
def exitTs (d : ExecData) : ℕ := toUnsignedLong d.exit

/-- What stays as it is when a call ends. -/
def origin (d : ExecData) : EventID × Thread × ℤ := (d.id, d.thread, d.entry)

/-- The entry timestamp is part of the origin of a call. -/
theorem entryTs_of_origin {d d' : ExecData} (h : d'.origin = d.origin) : d'.entryTs = d.entryTs :=
  congrArg (fun o : EventID × Thread × ℤ => toUnsignedLong o.2.2) h

/-- A message does not change the origin of a call. -/
@[simp] theorem origin_addMessage (d : ExecData) (comm : CommData) :
    (d.addMessage comm).origin = d.origin := by
  unfold addMessage
  split <;> rfl

/-- A counter does not change the origin of a call. -/
@[simp] theorem origin_addCounter (d : ExecData) (counter : CounterData) :
    (d.addCounter counter).origin = d.origin := by
  unfold addCounter
  split <;> rfl

/-- A message does not change the exit of a call. -/
@[simp] theorem exit_addMessage (d : ExecData) (comm : CommData) :
    (d.addMessage comm).exit = d.exit := by
  unfold addMessage
  split <;> rfl

/-- A counter does not change the exit of a call. -/
@[simp] theorem exit_addCounter (d : ExecData) (counter : CounterData) :
    (d.addCounter counter).exit = d.exit := by
  unfold addCounter
  split <;> rfl

/-- A message does not change the counters of a call. -/
@[simp] theorem counters_addMessage (d : ExecData) (comm : CommData) :
    (d.addMessage comm).counters = d.counters := by
  unfold addMessage
  split <;> rfl

/-- A counter does not change the messages of a call. -/
@[simp] theorem messages_addCounter (d : ExecData) (counter : CounterData) :
    (d.addCounter counter).messages = d.messages := by
  unfold addCounter
  split <;> rfl

/-- A call keeps the messages in its interval, in reverse order in front of the others. -/
theorem messages_foldl_addMessage (comms : List CommData) (d : ExecData)
    (hcomms : ∀ comm ∈ comms, d.entry ≤ toLong comm.ts ∧ toLong comm.ts ≤ d.exit) :
    (comms.foldl addMessage d).messages =
      (comms.map (CommData.setExecKey d.id)).reverse ++ d.messages := by
  induction comms generalizing d with
  | nil => rfl
  | cons comm rest ih =>
    obtain ⟨hentry, hexit⟩ := hcomms comm List.mem_cons_self
    have hadd : d.addMessage comm = { d with
        messages := comm.setExecKey d.id :: d.messages, nMessages := d.nMessages + 1 } := by
      unfold addMessage
      exact if_neg (not_or.mpr ⟨not_lt.mpr hentry, not_lt.mpr hexit⟩)
    have hrest := ih (d.addMessage comm) fun c hc => by
      rw [hadd]
      exact hcomms c (List.mem_cons_of_mem _ hc)
    rw [List.foldl_cons, hrest, hadd]
    simp

/-- A call keeps the counters in its interval, in reverse order in front of the others. -/
theorem counters_foldl_addCounter (counters : List CounterData) (d : ExecData)
    (hcounters : ∀ counter ∈ counters,
      d.entry ≤ toLong counter.ts ∧ toLong counter.ts ≤ d.exit) :
    (counters.foldl addCounter d).counters =
      (counters.map (CounterData.setExecKey d.id)).reverse ++ d.counters := by
  induction counters generalizing d with
  | nil => rfl
  | cons counter rest ih =>
    obtain ⟨hentry, hexit⟩ := hcounters counter List.mem_cons_self
    have hadd : d.addCounter counter = { d with
        counters := counter.setExecKey d.id :: d.counters } := by
      unfold addCounter
      exact if_neg (not_or.mpr ⟨not_lt.mpr hentry, not_lt.mpr hexit⟩)
    have hrest := ih (d.addCounter counter) fun c hc => by
      rw [hadd]
      exact hcounters c (List.mem_cons_of_mem _ hc)
    rw [List.foldl_cons, hrest, hadd]
    simp

/-- An exit event ends a call at its own time. -/
theorem updateExit_some {d d' : ExecData} {ev : Event} (h : d.updateExit ev = some d') :
    d'.origin = d.origin ∧ d'.exit = toLong ev.ts ∧ d'.messages = d.messages ∧
      d'.counters = d.counters ∧ d.entry ≤ toLong ev.ts := by
  unfold updateExit at h
  split at h
  · cases h
  · rename_i hnot
    cases h
    exact ⟨rfl, rfl, rfl, rfl, not_lt.mp (not_or.mp hnot).2⟩

/-- The recorded entry of a call is a cast time. -/
def EntryCast (d : ExecData) : Prop := ∃ ts < 2 ^ 64, d.entry = toLong ts

/-- Whether an entry is the cast of its timestamp depends on the entry and its timestamp only. -/
theorem EntryCast.congr {d d' : ExecData} (h : d.EntryCast) (hentry : d'.entry = d.entry) :
    d'.EntryCast := by
  unfold EntryCast
  rw [hentry]
  exact h

/-- A call accepts what came from its entry on up to its exit, although it compares signed
times. -/
theorem accepts_between {d : ExecData} (hcast : d.EntryCast) {exit ts : ℕ} (hlt : exit < 2 ^ 64)
    (hended : d.entry ≤ toLong exit) (hentry : d.entryTs ≤ ts) (hexit : ts ≤ exit) :
    d.entry ≤ toLong ts ∧ toLong ts ≤ toLong exit := by
  obtain ⟨start, hstart, heq⟩ := hcast
  rw [entryTs, heq, toUnsignedLong_toLong hstart] at hentry
  rw [heq] at hended ⊢
  exact toLong_between hentry hexit hlt hended

end ExecData

namespace ADEvent

/-- What a call takes off a stack and what stays there. -/
theorem flushStack_eq {α : Type} (ts : α → ℕ) (exit : ℕ) {accept : ExecData → α → ExecData}
    (haccept : ∀ d a, (accept d a).origin = d.origin) (stack : List α) (d : ExecData) :
    flushStack ts exit accept stack d =
      ((taken ts d.entryTs exit stack).foldl accept d, kept ts d.entryTs exit stack) := by
  induction stack generalizing d with
  | nil => rfl
  | cons top rest ih =>
    have hentry : (accept d top).entryTs = d.entryTs :=
      ExecData.entryTs_of_origin (haccept d top)
    unfold flushStack
    rw [← ExecData.entryTs]
    by_cases hbefore : ts top < d.entryTs
    · simp [taken, kept, hbefore, not_le.mpr hbefore]
    · by_cases hafter : exit < ts top
      · simp [taken, kept, not_lt.mp hbefore, hafter, ih]
      · simp [taken, kept, not_lt.mp hbefore, hafter, not_lt.mp hafter, ih, hentry]

/-- No counter is rejected: a call that ended at the exit time accepts what is flushed to it. -/
theorem flushStack_accepts {exit : ℕ} (hlt : exit < 2 ^ 64)
    (reject : ExecData → CounterData → ExecData) (stack : List CounterData) {d : ExecData}
    (hcast : d.EntryCast) (hended : d.entry ≤ toLong exit) (hexit : d.exit = toLong exit) :
    flushStack CounterData.ts exit (fun d counter =>
      if toLong counter.ts < d.entry ∨ d.exit < toLong counter.ts then reject d counter
      else d.addCounter counter) stack d =
    flushStack CounterData.ts exit ExecData.addCounter stack d := by
  induction stack generalizing d with
  | nil => rfl
  | cons top rest ih =>
    unfold flushStack
    rw [← ExecData.entryTs]
    by_cases hbefore : top.ts < d.entryTs
    · simp only [hbefore, if_true]
    · by_cases hafter : exit < top.ts
      · simp only [hbefore, hafter, if_true, if_false, ih hcast hended hexit]
      · have hin : ¬(toLong top.ts < d.entry ∨ d.exit < toLong top.ts) := by
          obtain ⟨hentry, hle⟩ := ExecData.accepts_between hcast hlt hended (not_lt.mp hbefore)
            (not_lt.mp hafter)
          exact not_or.mpr ⟨not_lt.mpr hentry, not_lt.mpr (hexit ▸ hle)⟩
        have hentry : (d.addCounter top).entry = d.entry :=
          congrArg (fun o => o.2.2) (d.origin_addCounter top)
        simp only [if_neg hbefore, if_neg hafter, if_neg hin]
        exact ih (hcast.congr hentry) (hentry ▸ hended) (by simpa using hexit)

section EndCall

variable (self : ADEvent) (ev : Event) (it : CallRef) (d : ExecData) (stack : List CallRef)

/-- Taking a call off its stack leaves what waits to be attached. -/
theorem popCall_stacks : (self.popCall ev.thread it d stack).commStack = self.commStack ∧
    (self.popCall ev.thread it d stack).counterStack = self.counterStack := by
  cases stack <;> exact ⟨rfl, rfl⟩

/-- What a call has when it takes its messages. -/
theorem popCall_self {β : Type} (g : ExecData → β)
    (hexclusive : ∀ d t, g (ExecData.updateExclusive d t) = g d) :
    g ((self.popCall ev.thread it d stack).calls it) = g d := by
  rw [proj_popCall g hexclusive, Function.update_self]

/-- When a call ends, the messages that come before it keep waiting. -/
theorem endCall_commStack : (self.endCall ev it d stack).commStack =
    Function.update self.commStack ev.thread
      (kept CommData.ts d.entryTs ev.ts (self.commStack ev.thread)) := by
  have hentry := popCall_self self ev it d stack ExecData.entryTs fun _ _ => rfl
  rw [endCall_eq, pushExecData, attachCounters_eq, attachComms_eq]
  simp only [flushStack_eq _ _ ExecData.origin_addMessage, hentry,
    (popCall_stacks self ev it d stack).1]
  rfl

/-- When a call ends, the counters that come before it keep waiting. -/
theorem endCall_counterStack : (self.endCall ev it d stack).counterStack =
    Function.update self.counterStack ev.thread
      (kept CounterData.ts d.entryTs ev.ts (self.counterStack ev.thread)) := by
  let popped := self.popCall ev.thread it d stack
  have hentry : ((popped.attachComms it ev).calls it).entryTs = d.entryTs :=
    (ExecData.entryTs_of_origin (proj_attachComms ExecData.origin ExecData.origin_addMessage popped
      it ev it)).trans
      (popCall_self self ev it d stack ExecData.entryTs fun _ _ => rfl)
  rw [endCall_eq, pushExecData, attachCounters_eq]
  simp only [flushStack_eq _ _ ExecData.origin_addCounter]
  rw [hentry, attachComms_eq]
  simp only [modifyCall]
  rw [(popCall_stacks self ev it d stack).2]

/-- An ended call has taken the messages in its interval off the stack. -/
theorem endCall_messages (hlt : ev.ts < 2 ^ 64) (hcast : d.EntryCast)
    (hended : d.entry ≤ toLong ev.ts) (hexit : d.exit = toLong ev.ts) :
    (fun x => ((self.endCall ev it d stack).calls x).messages) =
      Function.update (fun x => (self.calls x).messages) it
        (((taken CommData.ts d.entryTs ev.ts (self.commStack ev.thread)).map
          (CommData.setExecKey d.id)).reverse ++ d.messages) := by
  let popped := self.popCall ev.thread it d stack
  have hself : ∀ {β : Type} (g : ExecData → β),
      (∀ d t, g (ExecData.updateExclusive d t) = g d) → g (popped.calls it) = g d :=
    popCall_self self ev it d stack
  funext x
  have hcounters : ((self.endCall ev it d stack).calls x).messages =
      ((popped.attachComms it ev).calls x).messages :=
    proj_attachCounters ExecData.messages ExecData.messages_addCounter
      (popped.attachComms it ev) it ev x
  rw [hcounters, attachComms_eq]
  by_cases hx : x = it
  · subst hx
    have hstack : popped.commStack = self.commStack := (popCall_stacks self ev x d stack).1
    simp only [modifyCall_calls, Function.update_self,
      flushStack_eq _ _ ExecData.origin_addMessage, hstack]
    rw [ExecData.messages_foldl_addMessage]
    · rw [hself ExecData.entryTs fun _ _ => rfl, hself ExecData.id fun _ _ => rfl,
        hself ExecData.messages fun _ _ => rfl]
    · intro comm hcomm
      rw [hself ExecData.entryTs fun _ _ => rfl] at hcomm
      obtain ⟨hentry, hle⟩ := mem_taken hcomm
      rw [hself ExecData.entry fun _ _ => rfl, hself ExecData.exit fun _ _ => rfl, hexit]
      exact ExecData.accepts_between hcast hlt hended hentry hle
  · simp only [modifyCall_calls, Function.update_of_ne hx]
    have hpop := proj_popCall ExecData.messages (fun _ _ => rfl) self ev.thread it d stack x
    rwa [Function.update_of_ne hx] at hpop

/-- An ended call has taken the counters in its interval off the stack. -/
theorem endCall_counters (hlt : ev.ts < 2 ^ 64) (hcast : d.EntryCast)
    (hended : d.entry ≤ toLong ev.ts) (hexit : d.exit = toLong ev.ts) :
    (fun x => ((self.endCall ev it d stack).calls x).counters) =
      Function.update (fun x => (self.calls x).counters) it
        (((taken CounterData.ts d.entryTs ev.ts (self.counterStack ev.thread)).map
          (CounterData.setExecKey d.id)).reverse ++ d.counters) := by
  let popped := (self.popCall ev.thread it d stack).attachComms it ev
  have hself : ∀ {β : Type} (g : ExecData → β),
      (∀ d t, g (ExecData.updateExclusive d t) = g d) →
      (∀ d comm, g (ExecData.addMessage d comm) = g d) → g (popped.calls it) = g d := by
    intro β g hexclusive hmessage
    exact (proj_attachComms g hmessage _ it ev it).trans
      (popCall_self self ev it d stack g hexclusive)
  have hstack : popped.counterStack = self.counterStack := (popCall_stacks self ev it d stack).2
  have hentryTs : (popped.calls it).entryTs = d.entryTs :=
    hself ExecData.entryTs (fun _ _ => rfl) fun d comm =>
      ExecData.entryTs_of_origin (d.origin_addMessage comm)
  funext x
  change ((popped.attachCounters it ev).calls x).counters = _
  rw [attachCounters_eq]
  by_cases hx : x = it
  · subst hx
    simp only [modifyCall_calls, Function.update_self,
      flushStack_eq _ _ ExecData.origin_addCounter, hstack]
    rw [ExecData.counters_foldl_addCounter]
    · rw [hentryTs, hself ExecData.id (fun _ _ => rfl) fun d comm =>
          congrArg (fun o => o.1) (d.origin_addMessage comm),
        hself ExecData.counters (fun _ _ => rfl) ExecData.counters_addMessage]
    · intro counter hcounter
      rw [hentryTs] at hcounter
      obtain ⟨hentry, hle⟩ := mem_taken hcounter
      rw [hself ExecData.entry (fun _ _ => rfl) fun d comm =>
          congrArg (fun o => o.2.2) (d.origin_addMessage comm),
        hself ExecData.exit (fun _ _ => rfl) ExecData.exit_addMessage, hexit]
      exact ExecData.accepts_between hcast hlt hended hentry hle
  · simp only [modifyCall_calls, Function.update_of_ne hx]
    have hpop := proj_popCall ExecData.counters (fun _ _ => rfl) self ev.thread it d stack x
    rw [Function.update_of_ne hx] at hpop
    exact (proj_attachComms ExecData.counters ExecData.counters_addMessage _ it ev x).trans hpop

end EndCall

/-- The open calls of each thread are of that thread. -/
def OnThreads (self : ADEvent) : Prop :=
  ∀ thr, ∀ it ∈ self.callStack thr, (self.calls it).thread = thr

/-- The recorded entries of the calls are cast times. -/
def EntriesCast (self : ADEvent) : Prop := ∀ x < self.nextRef, (self.calls x).EntryCast

/-- An event changes neither the origin of a call nor the exit of one that has ended. -/
theorem origin_addEvent {self self' : ADEvent} {ev : Event} {err : EventError}
    (h : self.addEvent ev = .ok (self', err)) :
    (∀ x < self.nextRef, (self'.calls x).origin = (self.calls x).origin) ∧
      (∀ x, self.Closed x → (self'.calls x).exit = (self.calls x).exit) ∧
      (self.StacksValid → self.OnThreads → self'.OnThreads) := by
  have hindices : ∀ {m : ADEvent}, self.OnlyIndices m →
      m.calls = self.calls ∧ m.callStack = self.callStack ∧ m.nextRef = self.nextRef := by
    rintro m ⟨entry, exit, send, recv, rfl⟩
    exact ⟨rfl, rfl, rfl⟩
  have hsame : ∀ {m : ADEvent}, m.calls = self.calls → m.callStack = self.callStack →
      (∀ x < self.nextRef, (m.calls x).origin = (self.calls x).origin) ∧
      (∀ x, self.Closed x → (m.calls x).exit = (self.calls x).exit) ∧
      (self.StacksValid → self.OnThreads → m.OnThreads) := by
    intro m hcalls hstack
    unfold OnThreads
    rw [hcalls, hstack]
    exact ⟨fun _ _ => rfl, fun _ _ => rfl, fun _ h => h⟩
  rw [addEvent] at h
  split at h
  · rcases addFunc_cases h with ⟨-, -, hrefused⟩ | ⟨-, -, self₁, funcName, hentry, rfl⟩ |
      ⟨-, self₁, funcName, it, stack, d, -, hexit, -, hstack, hd, hmatch⟩
    · obtain ⟨hcalls, hstack, -⟩ := hindices hrefused
      exact hsame hcalls hstack
    · obtain ⟨hcalls, hstack, hnext⟩ := hindices hentry
      have hproj : ∀ {β : Type} (g : ExecData → β), (∀ d, g (ExecData.incNChildren d) = g d) →
          ∀ x < self.nextRef, g ((self₁.addEntry ev funcName).calls x) = g (self.calls x) := by
        intro β g hchild x hx
        rw [proj_addEntry g hchild self₁ ev funcName (hnext ▸ Nat.ne_of_lt hx), hcalls]
      refine ⟨hproj ExecData.origin fun _ => rfl,
        fun x hx => hproj ExecData.exit (fun _ => rfl) x hx.1, fun hvalid hthreads thr x hx => ?_⟩
      rw [addEntry_callStack, hstack, hnext] at hx
      have hold : ∀ thr, x ∈ self.callStack thr →
          ((self₁.addEntry ev funcName).calls x).thread = thr := fun thr hmem =>
        (hproj ExecData.thread (fun _ => rfl) x (hvalid.lt thr x hmem)).trans
          (hthreads thr x hmem)
      by_cases hthr : thr = ev.thread
      · subst hthr
        rw [Function.update_self] at hx
        rcases List.mem_cons.mp hx with rfl | hx
        · rw [← hnext]
          unfold addEntry
          simp only [Function.update_self]
          rfl
        · exact hold ev.thread hx
      · rw [Function.update_of_ne hthr] at hx
        exact hold thr hx
    · obtain ⟨hcalls, hstacks, hnext⟩ := hindices hexit
      obtain ⟨horigin, -⟩ := ExecData.updateExit_some hd
      have hrefs := forgetRefs_checkAndMatch hmatch
      have htop : it ∈ self.callStack ev.thread := by
        rw [← hstacks, hstack]
        exact List.mem_cons_self
      have hsame' : ∀ x, (self'.calls x).origin = (self.calls x).origin := by
        intro x
        have hend := proj_endCall ExecData.origin (fun _ _ => rfl) ExecData.origin_addMessage
          ExecData.origin_addCounter self₁ ev it d stack x
        have hrefs' : (self'.calls x).origin = ((self₁.endCall ev it d stack).calls x).origin :=
          (congrArg (fun m : ADEvent => (m.calls x).origin) hrefs :)
        rw [hrefs', hend, ← hcalls]
        by_cases hx : x = it
        · rw [hx, Function.update_self, horigin]
        · rw [Function.update_of_ne hx]
      refine ⟨fun x _ => hsame' x, fun x hx => ?_, fun _ hthreads thr x hx => ?_⟩
      · have hne : x ≠ it := by
          rintro rfl
          exact hx.2 _ htop
        have hend := proj_endCall ExecData.exit (fun _ _ => rfl) ExecData.exit_addMessage
          ExecData.exit_addCounter self₁ ev it d stack x
        have hrefs' : (self'.calls x).exit = ((self₁.endCall ev it d stack).calls x).exit :=
          (congrArg (fun m : ADEvent => (m.calls x).exit) hrefs :)
        rw [hrefs', hend, Function.update_of_ne hne, hcalls]
      · have hstack' : self'.callStack = Function.update self.callStack ev.thread stack := by
          have hrefs' : self'.callStack = (self₁.endCall ev it d stack).callStack :=
            (congrArg ADEvent.callStack hrefs :)
          rw [hrefs', endCall_callStack, hstacks]
        have hthread : (self'.calls x).thread = (self.calls x).thread :=
          congrArg (fun o => o.2.1) (hsame' x)
        rw [hthread]
        apply hthreads
        rw [hstack'] at hx
        by_cases hthr : thr = ev.thread
        · subst hthr
          rw [Function.update_self] at hx
          rw [← hstacks, hstack]
          exact List.mem_cons_of_mem _ hx
        · rwa [Function.update_of_ne hthr] at hx
  · rcases addComm_cases (Except.ok.inj h) with ⟨-, -, hrefused⟩ | ⟨-, self₁, _, -, haccepted, rfl⟩
    · obtain ⟨hcalls, hstack, -⟩ := hindices hrefused
      exact hsame hcalls hstack
    · obtain ⟨hcalls, hstack, -⟩ := hindices haccepted
      exact hsame hcalls hstack
  · rcases addCounter_cases (Except.ok.inj h) with ⟨-, -, rfl⟩ | ⟨-, _, -, rfl⟩
    · exact hsame rfl rfl
    · exact hsame rfl rfl

/-- An event keeps recorded entries cast times. -/
theorem EntriesCast.addEvent {self self' : ADEvent} (hcast : self.EntriesCast)
    {ev : Event} (hlt : ev.ts < 2 ^ 64) {err : EventError}
    (h : self.addEvent ev = .ok (self', err)) : self'.EntriesCast := by
  have horigin := (origin_addEvent h).1
  have hsize : self'.nextRef = self'.forest.size := rfl
  intro x hx
  by_cases hold : x < self.nextRef
  · exact (hcast x hold).congr (congrArg (fun o => o.2.2) (horigin x hold))
  · rcases addEvent_forest h with hsame | ⟨-, hpush⟩ | ⟨it, stack, -, -, hpop⟩
    · rw [hsize, hsame] at hx
      exact absurd hx hold
    · rw [hsize, hpush] at hx
      have hnew : x = self.nextRef := Nat.le_antisymm (Nat.lt_succ_iff.mp hx) (not_lt.mp hold)
      have hentry : (self'.forest.node self.nextRef).entry = toLong ev.ts := by
        rw [hpush]
        simp [CallForest.push, forest]
      exact ⟨ev.ts, hlt, hnew ▸ hentry⟩
    · have hpopSize : self'.forest.size = self.forest.size := by
        rw [hpop]
        cases stack <;> rfl
      rw [hsize, hpopSize] at hx
      exact absurd hx hold

end ADEvent

/-- What messages and counters have in common. -/
structure ItemKind (α : Type) where
  type : EventDataType
  ts : α → ℕ
  setExecKey : EventID → α → α
  stack : ADEvent → Thread → List α
  items : ExecData → List α
  accepted : ADEvent → Event → Option α

namespace ItemKind

/-- Messages, which are attached to calls. -/
def comms : ItemKind CommData where
  type := .COMM
  ts := CommData.ts
  setExecKey := CommData.setExecKey
  stack := ADEvent.commStack
  items := ExecData.messages
  accepted := ADEvent.acceptedComm

/-- Counters, which are attached to calls. -/
def counters : ItemKind CounterData where
  type := .COUNT
  ts := CounterData.ts
  setExecKey := CounterData.setExecKey
  stack := ADEvent.counterStack
  items := ExecData.counters
  accepted := ADEvent.acceptedCounter

variable {α : Type} (K : ItemKind α)

/-- What an event means for the items of its thread. -/
def happening (m : ADEvent) (ev : Event) : Option (Happening α CallRef) :=
  if ev.type = .FUNC then (m.endedCall ev).map .finish
  else if ev.type = K.type then (K.accepted m ev).map .arrive
  else none

/-- The items that the calls have. -/
def itemsOf (m : ADEvent) (x : CallRef) : List α := K.items (m.calls x)

/-- What an event does to the items: nothing, or it puts one on the stack of its thread, or it
ends a call, which takes its items off the stack. -/
inductive Effect (m : ADEvent) (ev : Event) (m' : ADEvent) : Option (Happening α CallRef) → Prop
  | idle : K.stack m' = K.stack m → K.itemsOf m' = K.itemsOf m → Effect m ev m' none
  | arrive (a : α) : K.ts a = ev.ts →
      K.stack m' = Function.update (K.stack m) ev.thread (a :: K.stack m ev.thread) →
      K.itemsOf m' = K.itemsOf m → Effect m ev m' (some (.arrive a))
  | finish (it : CallRef) : it ∈ m.callStack ev.thread → m'.Closed it →
      (m'.calls it).exit = toLong ev.ts → (m.calls it).entry ≤ toLong ev.ts →
      K.stack m' = Function.update (K.stack m) ev.thread
        (kept K.ts (m.calls it).entryTs ev.ts (K.stack m ev.thread)) →
      K.itemsOf m' = Function.update (K.itemsOf m) it
        (((taken K.ts (m.calls it).entryTs ev.ts (K.stack m ev.thread)).map
          (K.setExecKey (m.calls it).id)).reverse ++ K.itemsOf m it) →
      Effect m ev m' (some (.finish it))

/-- Events have the effects that they mean. -/
def Faithful : Prop :=
  ∀ m ev m' err, m.StacksValid → m.EntriesCast → ev.ts < 2 ^ 64 → K.itemsOf m m.nextRef = [] →
    ADEvent.addEvent m ev = .ok (m', err) → K.Effect m ev m' (K.happening m ev)

variable {K}

/-- A function event ends a call or does nothing to the items. -/
theorem happening_func {m : ADEvent} {ev : Event} (htype : ev.type = .FUNC) :
    K.happening m ev = (m.endedCall ev).map .finish := if_pos htype

/-- An item of the kind arrives if it is accepted. -/
theorem happening_accepted {m : ADEvent} {ev : Event} (htype : ev.type ≠ .FUNC)
    (hkind : ev.type = K.type) : K.happening m ev = (K.accepted m ev).map .arrive := by
  unfold happening
  rw [if_neg htype, if_pos hkind]

/-- Other events do nothing to the items. -/
theorem happening_other {m : ADEvent} {ev : Event} (htype : ev.type ≠ .FUNC)
    (hkind : ev.type ≠ K.type) : K.happening m ev = none := by
  unfold happening
  rw [if_neg htype, if_neg hkind]

/-- Function events have the effects that they mean, for a kind of item that entries, and changes
of indices and references do not concern, and of which an ended call takes what is its own. -/
theorem effect_addFunc
    (hindices : ∀ {m m'}, ADEvent.OnlyIndices m m' →
      K.stack m' = K.stack m ∧ K.itemsOf m' = K.itemsOf m)
    (hentry : ∀ {m : ADEvent} ev funcName, K.itemsOf m m.nextRef = [] →
      K.stack (m.addEntry ev funcName) = K.stack m ∧
        K.itemsOf (m.addEntry ev funcName) = K.itemsOf m)
    (hrefs : ∀ {m m' : ADEvent}, m'.forgetRefs = m.forgetRefs →
      K.stack m' = K.stack m ∧ K.itemsOf m' = K.itemsOf m)
    (hend : ∀ {m : ADEvent} {ev it d} stack, ev.ts < 2 ^ 64 → (m.calls it).EntryCast →
      (m.calls it).updateExit ev = some d →
      K.stack (m.endCall ev it d stack) = Function.update (K.stack m) ev.thread
          (kept K.ts (m.calls it).entryTs ev.ts (K.stack m ev.thread)) ∧
        K.itemsOf (m.endCall ev it d stack) = Function.update (K.itemsOf m) it
          (((taken K.ts (m.calls it).entryTs ev.ts (K.stack m ev.thread)).map
            (K.setExecKey (m.calls it).id)).reverse ++ K.itemsOf m it))
    {m m' : ADEvent} {ev : Event} {err : EventError} (hvalid : m.StacksValid)
    (hcast : m.EntriesCast) (hlt : ev.ts < 2 ^ 64) (hnew : K.itemsOf m m.nextRef = [])
    (h : m.addFunc ev = .ok (m', err)) :
    K.Effect m ev m' ((m.endedCall ev).map .finish) := by
  have hsame : ∀ {m₁ : ADEvent}, m.OnlyIndices m₁ → m₁.calls = m.calls ∧
      m₁.callStack = m.callStack ∧ m₁.nextRef = m.nextRef := by
    rintro m₁ ⟨entry, exit, send, recv, rfl⟩
    exact ⟨rfl, rfl, rfl⟩
  rcases ADEvent.addFunc_cases h with ⟨-, hended, hrefused⟩ |
    ⟨-, hended, m₁, funcName, hm₁, rfl⟩ |
    ⟨-, m₁, funcName, it, stack, d, hended, hm₁, -, hstack, hd, hmatch⟩ <;> rw [hended]
  · obtain ⟨hstack, hitems⟩ := hindices hrefused
    exact Effect.idle hstack hitems
  · obtain ⟨hstack, hitems⟩ := hindices hm₁
    have hnew₁ : K.itemsOf m₁ m₁.nextRef = [] := by
      rw [hitems, (hsame hm₁).2.2, hnew]
    obtain ⟨hstack', hitems'⟩ := hentry ev funcName hnew₁
    exact Effect.idle (hstack'.trans hstack) (hitems'.trans hitems)
  · obtain ⟨hstack₁, hitems₁⟩ := hindices hm₁
    obtain ⟨hcalls, hstacks, hnext⟩ := hsame hm₁
    have hforget := ADEvent.forgetRefs_checkAndMatch hmatch
    obtain ⟨hstack', hitems'⟩ := hrefs hforget
    have htop : it ∈ m.callStack ev.thread := by
      rw [← hstacks, hstack]
      exact List.mem_cons_self
    obtain ⟨hstackEnd, hitemsEnd⟩ := hend stack hlt
      (hcalls ▸ hcast it (hvalid.lt _ it htop)) hd
    have hvalid₁ : m₁.StacksValid := by
      obtain ⟨hlt, hnodup, hthread⟩ := hvalid
      rw [← hstacks] at hlt hnodup hthread
      rw [← hnext] at hlt
      exact ⟨hlt, hnodup, hthread⟩
    have hclosed := ADEvent.closed_endCall hvalid₁ hstack d
    rw [hstack₁, hcalls] at hstackEnd
    rw [hstack₁, hitems₁, hcalls] at hitemsEnd
    refine Effect.finish it htop ?_ ?_ ?_ (hstack'.trans hstackEnd) (hitems'.trans hitemsEnd)
    · have hstackRefs : m'.callStack = (m₁.endCall ev it d stack).callStack :=
        (congrArg ADEvent.callStack hforget :)
      have hnextRefs : m'.nextRef = (m₁.endCall ev it d stack).nextRef :=
        (congrArg ADEvent.nextRef hforget :)
      unfold ADEvent.Closed
      rw [hstackRefs, hnextRefs]
      exact hclosed
    · have hexitRefs : (m'.calls it).exit = ((m₁.endCall ev it d stack).calls it).exit :=
        (congrArg (fun m : ADEvent => (m.calls it).exit) hforget :)
      rw [hexitRefs, ADEvent.proj_endCall ExecData.exit (fun _ _ => rfl)
        ExecData.exit_addMessage ExecData.exit_addCounter, Function.update_self,
        (ExecData.updateExit_some hd).2.1]
    · exact hcalls ▸ (ExecData.updateExit_some hd).2.2.2.2

/-- Messages are attached as items are to intervals. -/
theorem faithful_comms : comms.Faithful := by
  intro m ev m' err hvalid hcast hlt hnew h
  rw [ADEvent.addEvent] at h
  split at h
  · rename_i htype
    rw [happening_func htype]
    refine effect_addFunc ?_ ?_ ?_ ?_ hvalid hcast hlt hnew h
    · rintro m m' ⟨entry, exit, send, recv, rfl⟩
      exact ⟨rfl, rfl⟩
    · intro m ev funcName hnew
      refine ⟨?_, funext fun x => ?_⟩
      · change (m.addEntry ev funcName).commStack = m.commStack
        rw [ADEvent.addEntry]
        cases m.callStack ev.thread <;> rfl
      · by_cases hx : x = m.nextRef
        · subst hx
          rw [hnew]
          change ((m.addEntry ev funcName).calls m.nextRef).messages = []
          rw [ADEvent.addEntry]
          simp only [Function.update_self]
          rfl
        · exact ADEvent.proj_addEntry ExecData.messages (fun _ => rfl) m ev funcName hx
    · intro m m' h
      exact ⟨(congrArg ADEvent.commStack h :),
        (congrArg (fun (m : ADEvent) x => (m.calls x).messages) h :)⟩
    · intro m ev it d stack hlt hcast hd
      obtain ⟨horigin, hexit, hmessages, -, hended⟩ := ExecData.updateExit_some hd
      have hid : d.id = (m.calls it).id := congrArg (fun o => o.1) horigin
      have hentry : d.entry = (m.calls it).entry := congrArg (fun o => o.2.2) horigin
      have hentryTs : d.entryTs = (m.calls it).entryTs := congrArg toUnsignedLong hentry
      have hstacks := ADEvent.endCall_commStack m ev it d stack
      have hitems := ADEvent.endCall_messages m ev it d stack hlt (hcast.congr hentry)
        (hentry ▸ hended) hexit
      rw [hentryTs] at hstacks
      rw [hentryTs, hid, hmessages] at hitems
      exact ⟨hstacks, hitems⟩
  · rename_i htype
    rw [happening_accepted (by simp [htype]) htype]
    rcases ADEvent.addComm_cases (Except.ok.inj h) with ⟨-, hnone, hindices⟩ |
      ⟨-, m₁, commType, hsome, hindices, rfl⟩
    · change Effect _ _ _ _ ((m.acceptedComm ev).map _)
      rw [hnone]
      obtain ⟨entry, exit, send, recv, rfl⟩ := hindices
      exact Effect.idle rfl rfl
    · change Effect _ _ _ _ ((m.acceptedComm ev).map _)
      rw [hsome]
      obtain ⟨entry, exit, send, recv, rfl⟩ := hindices
      exact Effect.arrive _ rfl rfl rfl
  · rename_i htype
    rw [happening_other (by simp [htype]) (by simp [htype, comms])]
    rcases ADEvent.addCounter_cases (Except.ok.inj h) with ⟨-, -, rfl⟩ | ⟨-, _, -, rfl⟩
    · exact Effect.idle rfl rfl
    · exact Effect.idle rfl rfl

/-- Counters are attached as items are to intervals. -/
theorem faithful_counters : counters.Faithful := by
  intro m ev m' err hvalid hcast hlt hnew h
  rw [ADEvent.addEvent] at h
  split at h
  · rename_i htype
    rw [happening_func htype]
    refine effect_addFunc ?_ ?_ ?_ ?_ hvalid hcast hlt hnew h
    · rintro m m' ⟨entry, exit, send, recv, rfl⟩
      exact ⟨rfl, rfl⟩
    · intro m ev funcName hnew
      refine ⟨?_, funext fun x => ?_⟩
      · change (m.addEntry ev funcName).counterStack = m.counterStack
        rw [ADEvent.addEntry]
        cases m.callStack ev.thread <;> rfl
      · by_cases hx : x = m.nextRef
        · subst hx
          rw [hnew]
          change ((m.addEntry ev funcName).calls m.nextRef).counters = []
          rw [ADEvent.addEntry]
          simp only [Function.update_self]
          rfl
        · exact ADEvent.proj_addEntry ExecData.counters (fun _ => rfl) m ev funcName hx
    · intro m m' h
      exact ⟨(congrArg ADEvent.counterStack h :),
        (congrArg (fun (m : ADEvent) x => (m.calls x).counters) h :)⟩
    · intro m ev it d stack hlt hcast hd
      obtain ⟨horigin, hexit, -, hcounters, hended⟩ := ExecData.updateExit_some hd
      have hid : d.id = (m.calls it).id := congrArg (fun o => o.1) horigin
      have hentry : d.entry = (m.calls it).entry := congrArg (fun o => o.2.2) horigin
      have hentryTs : d.entryTs = (m.calls it).entryTs := congrArg toUnsignedLong hentry
      have hstacks := ADEvent.endCall_counterStack m ev it d stack
      have hitems := ADEvent.endCall_counters m ev it d stack hlt (hcast.congr hentry)
        (hentry ▸ hended) hexit
      rw [hentryTs] at hstacks
      rw [hentryTs, hid, hcounters] at hitems
      exact ⟨hstacks, hitems⟩
  · rename_i htype
    rw [happening_other (by simp [htype]) (by simp [htype, counters])]
    rcases ADEvent.addComm_cases (Except.ok.inj h) with ⟨-, -, hindices⟩ |
      ⟨-, m₁, commType, -, hindices, rfl⟩ <;>
      obtain ⟨entry, exit, send, recv, rfl⟩ := hindices <;> exact Effect.idle rfl rfl
  · rename_i htype
    rw [happening_accepted (by simp [htype]) htype]
    rcases ADEvent.addCounter_cases (Except.ok.inj h) with ⟨-, hnone, rfl⟩ | ⟨-, _, hsome, rfl⟩
    · change Effect _ _ _ _ ((m'.acceptedCounter ev).map _)
      rw [hnone]
      exact Effect.idle rfl rfl
    · change Effect _ _ _ _ ((m.acceptedCounter ev).map _)
      rw [hsome]
      exact Effect.arrive _ rfl rfl rfl

end ItemKind

end Chimbuko
