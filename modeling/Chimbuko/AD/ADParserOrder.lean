import Chimbuko.AD.ADParserInterweave
import Mathlib.Data.List.Induction

/-!
# The order of the parser's event stream

Separating the valid events by thread keeps their order, so the stream of events holds each
valid event once, thread by thread, in time order, and with ties resolved within each thread.
-/

namespace Chimbuko

namespace ADParser

open EventDataType Grouping

/-- The valid events of one type and thread. -/
def validOn (self : ADParser) (tid : ℕ) (type : EventDataType) : List Event :=
  group Event.tid (self.validEvents type) tid

/-- All valid events. -/
def allValid (self : ADParser) : List Event :=
  self.validEvents FUNC ++ self.validEvents COMM ++ self.validEvents COUNT

/-- Valid events have the type that was asked for. -/
theorem type_of_mem_validEvents {self : ADParser} {type : EventDataType} {ev : Event}
    (h : ev ∈ self.validEvents type) : ev.type = type := by
  obtain ⟨i, -, rfl⟩ := List.mem_map.mp (List.mem_of_mem_filter h)
  rfl

/-- The valid events of one type are the ones of that type among all of them. -/
theorem group_type_allValid (self : ADParser) (type : EventDataType) :
    group Event.type self.allValid type = self.validEvents type := by
  have hself : ∀ type, group Event.type (self.validEvents type) type = self.validEvents type :=
    fun type => group_eq_self Event.type fun ev => type_of_mem_validEvents
  have hother : ∀ type type', type ≠ type' → group Event.type (self.validEvents type) type' = [] :=
    fun type type' hne => group_eq_nil Event.type fun ev hev heq =>
      hne ((type_of_mem_validEvents hev).symm.trans heq)
  rw [allValid, group_append, group_append]
  cases type
  · rw [hself, hother COMM FUNC (by decide), hother COUNT FUNC (by decide)]
    simp
  · rw [hself, hother FUNC COMM (by decide), hother COUNT COMM (by decide)]
    simp
  · rw [hself, hother FUNC COUNT (by decide), hother COMM COUNT (by decide)]
    simp

namespace ThreadData

/-- A thread that is inserted is among the threads. -/
theorem mem_insertTid {tid k : ℕ} {tids : List ℕ} :
    k ∈ insertTid tid tids ↔ k = tid ∨ k ∈ tids := by
  rw [insertTid]
  split
  · rename_i h
    exact ⟨Or.inr, fun hk => hk.elim (fun heq => heq ▸ h) id⟩
  · exact List.mem_orderedInsert ..

/-- Inserting a thread keeps the threads sorted. -/
theorem sorted_insertTid (tid : ℕ) {tids : List ℕ} (h : tids.Pairwise (· ≤ ·)) :
    (insertTid tid tids).Pairwise (· ≤ ·) := by
  rw [insertTid]
  split
  · exact h
  · exact h.orderedInsert tid tids

/-- Inserting a thread keeps the threads distinct. -/
theorem nodup_insertTid (tid : ℕ) {tids : List ℕ} (h : tids.Nodup) :
    (insertTid tid tids).Nodup := by
  rw [insertTid]
  split
  · exact h
  · rename_i hmem
    exact (List.perm_orderedInsert (· ≤ ·) tid tids).nodup_iff.mpr (List.nodup_cons.mpr ⟨hmem, h⟩)

/-- The events on the arrays are the given ones, and the threads are theirs. -/
structure Separates (thr : ThreadData) (events : List Event) : Prop where
  data : ∀ type tid, thr.data type tid = group Event.tid (group Event.type events type) tid
  sorted : thr.tids.Pairwise (· ≤ ·)
  nodup : thr.tids.Nodup
  mem : ∀ tid, tid ∈ thr.tids ↔ ∃ ev ∈ events, ev.tid = tid

/-- An event that is not before the last one of its type and thread is pushed onto their array. -/
theorem Separates.push {self : ThreadData} {events : List Event} (h : self.Separates events)
    {ev : Event}
    (hsorted : (group Event.tid (group Event.type (events ++ [ev]) ev.type) ev.tid).Pairwise
      fun x y => x.ts ≤ y.ts) :
    ∃ self', self.push ev = .ok self' ∧ self'.Separates (events ++ [ev]) := by
  have hsingle : group Event.tid (group Event.type [ev] ev.type) ev.tid = [ev] := by
    rw [group_eq_self Event.type (by simp), group_eq_self Event.tid (by simp)]
  have hlast : ((self.data ev.type ev.tid).getLast?.any fun last => ev.ts < last.ts) = false := by
    rw [group_append, group_append, hsingle, ← h.data] at hsorted
    rw [Option.any_eq_false]
    intro last hlast
    have hmem : last ∈ self.data ev.type ev.tid := List.mem_of_getLast? hlast
    have hle := (List.pairwise_append.mp hsorted).2.2 last hmem ev List.mem_cons_self
    simpa using hle
  refine ⟨_, by rw [ThreadData.push]; simp only [hlast]; rfl, ?_, ?_, ?_, ?_⟩
  · intro type tid
    rw [group_append, group_append]
    change (if type = ev.type ∧ tid = ev.tid then _ else _) = _
    by_cases heq : type = ev.type ∧ tid = ev.tid
    · rw [if_pos heq, heq.1, heq.2, hsingle, h.data]
    · rw [if_neg heq, h.data]
      have hnil : group Event.tid (group Event.type [ev] type) tid = [] := by
        refine group_eq_nil Event.tid fun x hx hxtid => heq ?_
        obtain ⟨hmem, htype⟩ := (mem_group Event.type).mp hx
        obtain rfl := List.mem_singleton.mp hmem
        exact ⟨htype.symm, hxtid.symm⟩
      rw [hnil, List.append_nil]
  · exact sorted_insertTid ev.tid h.sorted
  · exact nodup_insertTid ev.tid h.nodup
  · intro tid
    rw [mem_insertTid, h.mem]
    simp only [List.mem_append, List.mem_singleton]
    constructor
    · rintro (rfl | ⟨x, hx, hxtid⟩)
      · exact ⟨ev, Or.inr rfl, rfl⟩
      · exact ⟨x, Or.inl hx, hxtid⟩
    · rintro ⟨x, hx | rfl, hxtid⟩
      · exact Or.inr ⟨x, hx, hxtid⟩
      · exact Or.inl hxtid.symm

/-- Events that are in time order for each type and thread are separated without error. -/
theorem separates_foldlM (events : List Event)
    (hsorted : ∀ type tid, (group Event.tid (group Event.type events type) tid).Pairwise
      fun x y => x.ts ≤ y.ts) :
    ∃ thr, events.foldlM ThreadData.push ThreadData.empty = .ok thr ∧ thr.Separates events := by
  induction events using List.reverseRecOn with
  | nil =>
    refine ⟨ThreadData.empty, rfl, fun _ _ => rfl, List.Pairwise.nil, List.nodup_nil, fun tid => ?_⟩
    simp [ThreadData.empty]
  | append_singleton events ev ih =>
    have hprefix : ∀ type tid, (group Event.tid (group Event.type events type) tid).Pairwise
        fun x y => x.ts ≤ y.ts := by
      intro type tid
      have h := hsorted type tid
      rw [group_append, group_append] at h
      exact (List.pairwise_append.mp h).1
    obtain ⟨thr, hrun, hthr⟩ := ih hprefix
    obtain ⟨thr', hpush, hthr'⟩ := hthr.push (hsorted ev.type ev.tid)
    refine ⟨thr', ?_, hthr'⟩
    rw [List.foldlM_append, hrun]
    change (List.foldlM ThreadData.push thr [ev]) = _
    rw [List.foldlM_cons, hpush]
    rfl

end ThreadData

/-- A loop that appends what a step yields for each key, if every step yields something. -/
theorem foldlM_append_ok {f : ℕ → Except String (List Event)} {g : ℕ → List Event}
    (keys : List ℕ) (hf : ∀ k ∈ keys, f k = .ok (g k)) (acc : List Event) :
    keys.foldlM (fun out k => do
      let events ← f k
      pure (out ++ events)) acc = .ok (acc ++ keys.flatMap g) := by
  induction keys generalizing acc with
  | nil =>
    rw [List.flatMap_nil, List.append_nil]
    rfl
  | cons k rest ih =>
    rw [List.foldlM_cons, hf k List.mem_cons_self]
    change List.foldlM _ (acc ++ g k) rest = _
    rw [ih (fun k' hk' => hf k' (List.mem_cons_of_mem _ hk')), List.flatMap_cons, List.append_assoc]

/-- The arrays of a thread before any event is put out. -/
def startCursor (thr : ThreadData) (tid : ℕ) : Cursor :=
  { funcs := thr.data FUNC tid, comms := thr.data COMM tid, counters := thr.data COUNT tid,
    lastFuncEntry := 0, funcHasCorid := false }

/-- At first all data of the thread remain. -/
theorem remaining_startCursor (thr : ThreadData) (tid : ℕ) (type : EventDataType) :
    (startCursor thr tid).remaining type = thr.data type tid := by
  cases type <;> rfl

/-- Threads that are interwoven one after another make a stream of exactly the given events, thread
by thread in ascending order. Within a thread it is in time order, keeps the order of each type, and
resolves ties by the priorities. -/
theorem stream_of_threads {events : List Event} {thr : ThreadData} (hthr : thr.Separates events)
    (hsorted : ∀ type tid, (group Event.tid (group Event.type events type) tid).Pairwise
      fun x y => x.ts ≤ y.ts) {map : List FuncEventType} {cid : ℤ} {g : ℕ → List Event}
    (hg : ∀ tid ∈ thr.tids,
      interweave map cid (startCursor thr tid).count (startCursor thr tid) = .ok (g tid)) :
    (thr.tids.flatMap g).Perm events ∧
      ((thr.tids.flatMap g).Pairwise fun x y => x.tid ≤ y.tid) ∧
      ∀ tid,
        ((group Event.tid (thr.tids.flatMap g) tid).Pairwise fun x y => x.ts ≤ y.ts) ∧
        (∀ type, group Event.type (group Event.tid (thr.tids.flatMap g) tid) type =
          thr.data type tid) ∧
        ∀ time, group Event.ts (group Event.tid (thr.tids.flatMap g) tid) time =
          ties map (fun type => thr.data type tid) time := by
  have hremaining : ∀ tid, (startCursor thr tid).remaining = fun type => thr.data type tid :=
    fun tid => funext (remaining_startCursor thr tid)
  have hthread : ∀ tid ∈ thr.tids, (g tid).Pairwise (fun x y => x.ts ≤ y.ts) ∧
      (∀ type, group Event.type (g tid) type = thr.data type tid) ∧
      ∀ time, group Event.ts (g tid) time = ties map (fun type => thr.data type tid) time := by
    intro tid htid
    have hspec := interweave_ok (c := startCursor thr tid) map cid _
      (fun type => by
        rw [remaining_startCursor, hthr.data]
        exact hsorted type tid)
      (fun type ev hev => by
        rw [remaining_startCursor, hthr.data] at hev
        exact ((mem_group Event.type).mp ((mem_group Event.tid).mp hev).1).2) le_rfl (hg tid htid)
    rw [hremaining] at hspec
    exact hspec
  have htid : ∀ tid ∈ thr.tids, ∀ ev ∈ g tid, ev.tid = tid := by
    intro tid hmem ev hev
    have hdata : ev ∈ group Event.type (g tid) ev.type := (mem_group Event.type).mpr ⟨hev, rfl⟩
    rw [(hthread tid hmem).2.1, hthr.data] at hdata
    exact ((mem_group Event.tid).mp hdata).2
  have hgroup := group_flatMap Event.tid hthr.nodup g htid
  -- a thread without events has none of any type
  have hnone : ∀ tid, tid ∉ thr.tids → ∀ type, thr.data type tid = [] := by
    intro tid hmem type
    rw [hthr.data]
    apply group_eq_nil Event.tid
    intro ev hev heq
    exact hmem ((hthr.mem tid).mpr ⟨ev, ((mem_group Event.type).mp hev).1, heq⟩)
  refine ⟨?_, pairwise_flatMap Event.tid le_refl hthr.sorted g htid, fun tid => ?_⟩
  · refine perm_of_group Event.tid fun tid => ?_
    rw [hgroup]
    split
    · rename_i hmem
      refine perm_of_group Event.type fun type => ?_
      rw [(hthread tid hmem).2.1, hthr.data, group, group, group, group, List.filter_comm]
    · rename_i hmem
      rw [group_eq_nil Event.tid fun ev hev heq => hmem ((hthr.mem tid).mpr ⟨ev, hev, heq⟩)]
  · rw [hgroup]
    split
    · rename_i hmem
      exact hthread tid hmem
    · rename_i hmem
      refine ⟨List.Pairwise.nil, fun type => (hnone tid hmem type).symm, fun time => ?_⟩
      simp only [ties, hnone tid hmem]
      rfl

/-- If the valid events of each type are in time order per thread and before the end of time, and
the types of the function events are known, then the stream holds exactly the valid events,
thread by thread in ascending order. Within a thread it is in time order, keeps the order of each
type, and at one time puts the communication events and then the counters after the leading
entries and before the other function events. -/
theorem getEvents_correct (self : ADParser)
    (hsorted : ∀ type tid, (self.validOn tid type).Pairwise fun x y => x.ts ≤ y.ts)
    (hts : ∀ type, ∀ ev ∈ self.validEvents type, ev.ts < maxTs)
    (heid : ∀ ev ∈ self.validEvents FUNC, ev.eid < self.funcEventTypeMap.length) :
    ∃ out, self.getEvents = .ok out ∧ out.Perm self.allValid ∧
      (out.Pairwise fun x y => x.tid ≤ y.tid) ∧
      ∀ tid,
        ((group Event.tid out tid).Pairwise fun x y => x.ts ≤ y.ts) ∧
        (∀ type, group Event.type (group Event.tid out tid) type = self.validOn tid type) ∧
        ∀ time, group Event.ts (group Event.tid out tid) time =
          ties self.funcEventTypeMap (self.validOn tid) time := by
  have hgroup : ∀ type tid, group Event.tid (group Event.type self.allValid type) tid =
      self.validOn tid type := fun type tid => by rw [group_type_allValid, validOn]
  obtain ⟨thr, hthr, hseparates⟩ := ThreadData.separates_foldlM self.allValid fun type tid => by
    rw [hgroup]
    exact hsorted type tid
  have hdata : ∀ type tid, thr.data type tid = self.validOn tid type := fun type tid => by
    rw [hseparates.data, hgroup]
  have hmem : ∀ tid type, self.validOn tid type ⊆ self.validEvents type := fun tid type ev hev =>
    ((mem_group Event.tid).mp hev).1
  have hremaining : ∀ tid, (startCursor thr tid).remaining = self.validOn tid := by
    intro tid
    funext type
    rw [remaining_startCursor, hdata]
  have hordered : ∀ tid, (startCursor thr tid).Ordered self.funcEventTypeMap := by
    intro tid
    constructor
    · intro type
      rw [hremaining]
      exact hsorted type tid
    · intro type ev hev
      rw [hremaining] at hev
      exact type_of_mem_validEvents (hmem tid type hev)
    · intro type ev hev
      rw [hremaining] at hev
      exact hts type ev (hmem tid type hev)
    · intro ev hev
      have hev' : ev ∈ (startCursor thr tid).remaining FUNC := hev
      rw [hremaining] at hev'
      exact heid ev (hmem tid FUNC hev')
  have hrun : ∀ tid, ∃ events, self.threadEvents thr tid = .ok events := fun tid =>
    (hordered tid).interweave self.correlationIDcounterIdx (startCursor thr tid).count
  choose events hevents using hrun
  obtain ⟨hperm, htids, hthreads⟩ := stream_of_threads hseparates
    (fun type tid => by
      rw [hgroup]
      exact hsorted type tid) fun tid _ => hevents tid
  refine ⟨thr.tids.flatMap events, ?_, hperm, htids, fun tid => ?_⟩
  · rw [getEvents]
    change (self.allValid.foldlM ThreadData.push ThreadData.empty >>= _) = _
    rw [hthr]
    change (thr.tids.foldlM (fun out tid => do
      let events ← self.threadEvents thr tid
      pure (out ++ events)) [] >>= _) = _
    rw [foldlM_append_ok thr.tids (fun tid _ => hevents tid) [], List.nil_append]
    change (if (thr.tids.flatMap events).length ≠ self.allValid.length then _ else _) = _
    rw [if_neg (not_not.mpr hperm.length_eq)]
    rfl
  · obtain ⟨hpairwise, htypes, hties⟩ := hthreads tid
    refine ⟨hpairwise, fun type => (htypes type).trans (hdata type tid), fun time => ?_⟩
    rw [hties, funext fun type => hdata type tid]

/-- A step in which a function starts, communicates, counts and ends at one time. -/
def sameTimeStep : ADParser where
  rank := 0
  programIdx := 0
  currentStep := 0
  eventType := (AList.singleton 1 "EXIT").insert 0 "ENTRY"
  correlationIDcounterIdx := -1
  eventTimestamps := [0, 0, 0, 0, 5, 7, 0, 0, 0, 1, 5, 7]
  timerEventCount := 2
  commTimestamps := [0, 0, 0, 2, 0, 99, 1024, 7]
  commCount := 1
  counterTimestamps := [0, 0, 0, 3, 42, 7]
  counterCount := 1

/-- The communication event and then the counter go between the entry and the exit. -/
theorem getEvents_correct_sameTime :
    ∃ out, sameTimeStep.getEvents = .ok out ∧
      group Event.ts (group Event.tid out 0) 7 =
        [sameTimeStep.event FUNC 0, sameTimeStep.event COMM 0, sameTimeStep.event COUNT 0,
          sameTimeStep.event FUNC 1] := by
  have hsorted : ∀ type, (sameTimeStep.validEvents type).Pairwise fun x y => x.ts ≤ y.ts := by
    intro type
    cases type <;> decide +kernel
  obtain ⟨out, hout, -, -, hthreads⟩ := sameTimeStep.getEvents_correct
    (fun type tid => (hsorted type).sublist List.filter_sublist)
    (fun type => by cases type <;> decide +kernel) (by decide +kernel)
  exact ⟨out, hout, ((hthreads 0).2.2 7).trans (by decide +kernel)⟩

end ADParser

end Chimbuko
