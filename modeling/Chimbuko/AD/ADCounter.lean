import Chimbuko.AD.ADEvent
import Chimbuko.Library.Filing
import Chimbuko.Library.TransitionSystem

/-!
# The counter manager

`ADCounter` collects the counters of a time step in lists, one for each thread, and keeps iterators
to them in two further maps: for each thread an ordered map from timestamps, and an ordered map from
counter indices. When the counters are flushed, the lists are handed to the caller and the maps of
iterators are cleared.

A counter is a node of a list, so here an iterator is a reference into a store of counters. A call
that throws an exception may have changed the manager before it did, and its caller goes on with
the next counter, so a call gives back the manager along with its outcome.
-/

namespace Chimbuko

open Filing Grouping TransitionSystem

/-- An iterator to a counter of a list. -/
abbrev CounterRef := ℕ

/-- The thread of a counter. -/
def CounterData.thread (c : CounterData) : Thread := { pid := c.pid, rid := c.rid, tid := c.tid }

/-- A map of process, rank and thread. -/
abbrev MapPRT (T : Type) := AList fun _ : ℕ => AList fun _ : ℕ => AList fun _ : ℕ => T

namespace MapPRT

variable {T : Type} [EmptyCollection T]

/-- The element of a thread, as an access that creates it if there is none. -/
def elem (m : MapPRT T) (t : Thread) : T := valueAt (valueAt (valueAt m t.pid) t.rid) t.tid

/-- Change the element of a thread, which is created if there is none. -/
def modify (t : Thread) (f : T → T) (m : MapPRT T) : MapPRT T :=
  modifyAt t.pid (modifyAt t.rid (modifyAt t.tid f)) m

/-- An empty map has no element at any thread. -/
@[simp] theorem elem_empty (t : Thread) : elem (∅ : MapPRT T) t = ∅ := by
  unfold elem
  rw [valueAt_empty, valueAt_empty, valueAt_empty]

/-- Changing the element of a thread leaves the elements of the others. -/
@[simp] theorem elem_modify (t : Thread) (f : T → T) (m : MapPRT T) :
    (m.modify t f).elem = Function.update m.elem t (f (m.elem t)) := by
  funext t'
  obtain ⟨p, r, i⟩ := t
  obtain ⟨p', r', i'⟩ := t'
  unfold elem modify
  by_cases hp : p' = p
  · subst hp
    by_cases hr : r' = r
    · subst hr
      by_cases hi : i' = i
      · simp [hi]
      · simp [hi, Function.update_of_ne]
    · simp [hr, Function.update_of_ne]
  · simp [hp, Function.update_of_ne]

/-- Everything that the elements hold, thread by thread. -/
def items {α : Type} (content : T → List α) (m : MapPRT T) : List α :=
  itemsOf (itemsOf (itemsOf content)) m

/-- If each thread has its items, one finds the items by going through the threads. -/
theorem perm_items {α : Type} [DecidableEq α] (key : α → Thread) {xs : List α}
    {content : T → List α} {m : MapPRT T} (hempty : content ∅ = [])
    (h : ∀ t, (content (m.elem t)).Perm (group key xs t)) : (m.items content).Perm xs := by
  apply itemsOf_perm (fun x => (key x).pid) (itemsOf_empty _)
  intro p
  apply itemsOf_perm (fun x => (key x).rid) (itemsOf_empty _)
  intro r
  apply itemsOf_perm (fun x => (key x).tid) hempty
  intro i
  have hgroup : group (fun x => (key x).tid)
      (group (fun x => (key x).rid) (group (fun x => (key x).pid) xs p) r) i =
        group key xs ⟨p, r, i⟩ := by
    unfold group
    rw [List.filter_filter, List.filter_filter]
    apply List.filter_congr
    intro x _
    cases hkey : key x with
    | mk p' r' i' =>
    simp only [hkey, Thread.mk.injEq, Bool.decide_and]
    rw [Bool.and_comm (decide (i' = i)), Bool.and_comm]
  rw [hgroup]
  exact h ⟨p, r, i⟩

end MapPRT

/-- The counters of the step by thread, and the maps that are queried. -/
structure ADCounter where
  counters : Option (MapPRT (List CounterRef))
  counterMap : Option (AList fun _ : ℤ => String)
  timestampCounterMap : MapPRT (Buckets ℕ CounterRef)
  countersByIdx : Buckets ℕ CounterRef
  /-- The store of counters, and the first reference not yet in use. -/
  nodes : CounterRef → CounterData
  nextRef : CounterRef

namespace ADCounter

/-- A counter manager that nothing is linked to. -/
def new (nodes : CounterRef → CounterData) : ADCounter where
  counters := none
  counterMap := none
  timestampCounterMap := ∅
  countersByIdx := ∅
  nodes := nodes
  nextRef := 0

/-- Link the names of the counters. -/
def linkCounterMap (self : ADCounter) (m : Option (AList fun _ : ℤ => String)) : ADCounter :=
  { self with counterMap := m }

/-- If this is the first counter after a flush, the lists are created again. -/
def recreate (self : ADCounter) : ADCounter :=
  { self with counters := some (self.counters.getD ∅) }

/-- Append a counter to the list of its thread and add the iterator to the maps. -/
def append (self : ADCounter) (t : Thread) (ts counterId : ℕ) (c : CounterData) : ADCounter :=
  let cit := self.nextRef
  { self with
    counters := self.counters.map (MapPRT.modify t fun l => l ++ [cit])
    timestampCounterMap := self.timestampCounterMap.modify t (Buckets.putLast ts cit)
    countersByIdx := self.countersByIdx.putLast counterId cit
    nodes := Function.update self.nodes cit c
    nextRef := cit + 1 }

/-- Insert a new counter from an event. To ask an event of another type for its counter ends the
process. -/
def addCounter (self : ADCounter) (event : Event) : ADCounter × Except String Unit :=
  match self.counterMap with
  | none => (self, .error "Counter mapping not linked")
  | some counterMap =>
    let self := self.recreate
    if event.type ≠ .COUNT then
      (self, .error "***** It is NOT count event and tried to get counter id! *****")
    else
      match ADEvent.findInt counterMap event.counterId with
      | none =>
        (self, .error ("Counter index " ++ toString event.counterId ++
          " could not be found in map"))
      | some counterName =>
        (self.append event.thread event.ts event.counterId (.ofEvent event counterName), .ok ())

/-- Insert a new counter. Its name is checked if the names are linked. -/
def addCounterData (self : ADCounter) (cdata : CounterData) : ADCounter × Except String Unit :=
  let checked : Except String Unit :=
    match self.counterMap with
    | none => .ok ()
    | some counterMap =>
      match ADEvent.findInt counterMap cdata.cid with
      | none =>
        .error ("Counter index " ++ toString cdata.cid ++ " could not be found in map")
      | some counterName =>
        if counterName ≠ cdata.countername then
          .error ("Counter name " ++ cdata.countername ++
            " does not match the name in the index map, " ++ counterName)
        else .ok ()
  match checked with
  | .error e => (self, .error e)
  | .ok () => (self.recreate.append cdata.thread cdata.ts cdata.cid cdata, .ok ())

/-- Return all counters and clear the internal state. -/
def flushCounters (self : ADCounter) : ADCounter × Option (MapPRT (List CounterRef)) :=
  ({ self with counters := none, timestampCounterMap := ∅, countersByIdx := ∅ }, self.counters)

/-- The counters of a thread that were recorded in a window, inclusive. -/
def getCountersInWindow (self : ADCounter) (pid rid tid tStart tEnd : ℕ) :
    Except String (List CounterRef) :=
  if tEnd < tStart then .error "ADCounter::getCountersInWindow t_end must be >= t_start"
  else
    match self.timestampCounterMap.lookup pid with
    | none => .ok []
    | some ofRanks =>
      match ofRanks.lookup rid with
      | none => .ok []
      | some ofThreads =>
        match ofThreads.lookup tid with
        | none => .ok []
        | some theMap =>
          let start := theMap.lowerBound tStart
          let stop := theMap.upperBound tEnd
          if start = theMap.toList.length then .ok []
          else Buckets.collect stop start (theMap.toList.drop start)

variable {self : ADCounter} {refs : List CounterRef}

/-- The counters of a thread, in its list. -/
def countersOf (self : ADCounter) : Thread → List CounterRef := (self.counters.getD ∅).elem

/-- The counters of a thread at a timestamp, in the map of timestamps. -/
def countersAt (self : ADCounter) (key : Thread × ℕ) : List CounterRef :=
  (self.timestampCounterMap.elem key.1).itemsAt key.2

/-- The thread of a counter. -/
def threadOf (self : ADCounter) (r : CounterRef) : Thread := (self.nodes r).thread

/-- The timestamp of a counter. -/
def tsOf (self : ADCounter) (r : CounterRef) : ℕ := (self.nodes r).ts

/-- The identifier of a counter. -/
def cidOf (self : ADCounter) (r : CounterRef) : ℕ := (self.nodes r).cid

/-- The lists, the map of timestamps and the map of counter indices file the same counters, in the
order in which they were added. -/
structure Files (manager : ADCounter) (refs : List CounterRef) : Prop where
  lists : Filed manager.threadOf refs manager.countersOf
  timestamps : Filed (fun r => (manager.threadOf r, manager.tsOf r)) refs manager.countersAt
  byIdx : Filed manager.cidOf refs manager.countersByIdx.itemsAt

/-- The counters that are filed are distinct nodes. -/
structure Fresh (manager : ADCounter) (refs : List CounterRef) : Prop where
  nodup : refs.Nodup
  below : ∀ r ∈ refs, r < manager.nextRef

/-- Empty indices file nothing. -/
theorem files_nil (hlists : self.counters = none) (htimestamps : self.timestampCounterMap = ∅)
    (hbyIdx : self.countersByIdx = ∅) : self.Files [] where
  lists := fun t => by
    unfold countersOf
    rw [hlists, Option.getD_none, MapPRT.elem_empty]
    rfl
  timestamps := fun key => by
    unfold countersAt
    rw [htimestamps, MapPRT.elem_empty]
    exact Buckets.itemsAt_empty key.2
  byIdx := fun cid => by
    rw [hbyIdx]
    exact Buckets.itemsAt_empty cid

/-- Creating the lists again adds no counter. -/
theorem Files.recreate (h : self.Files refs) : self.recreate.Files refs where
  lists := h.lists
  timestamps := h.timestamps
  byIdx := h.byIdx

/-- Appending a counter changes one list. -/
theorem countersOf_append {lists : MapPRT (List CounterRef)} (hlists : self.counters = some lists)
    (t : Thread) (ts counterId : ℕ) (c : CounterData) :
    (self.append t ts counterId c).countersOf =
      Function.update self.countersOf t (self.countersOf t ++ [self.nextRef]) := by
  unfold countersOf ADCounter.append
  simp only [hlists, Option.map_some, Option.getD_some, MapPRT.elem_modify]

/-- Appending a counter changes what one timestamp of one thread has. -/
theorem countersAt_append (t : Thread) (ts counterId : ℕ) (c : CounterData) :
    (self.append t ts counterId c).countersAt =
      Function.update self.countersAt (t, ts) (self.countersAt (t, ts) ++ [self.nextRef]) := by
  funext key
  obtain ⟨t', ts'⟩ := key
  unfold countersAt ADCounter.append
  simp only [MapPRT.elem_modify]
  by_cases ht : t' = t
  · subst ht
    rw [Function.update_self, Buckets.itemsAt_putLast]
    by_cases hts : ts' = ts
    · rw [hts, Function.update_self, Function.update_self]
    · rw [Function.update_of_ne hts, Function.update_of_ne (by simpa using hts)]
  · rw [Function.update_of_ne ht, Function.update_of_ne (fun h => ht (congrArg Prod.fst h))]

/-- A counter that is appended is filed behind the others. -/
theorem Files.append (h : self.Files refs) (hfresh : self.Fresh refs)
    {lists : MapPRT (List CounterRef)} (hlists : self.counters = some lists) (c : CounterData) :
    (self.append c.thread c.ts c.cid c).Files (refs ++ [self.nextRef]) := by
  have hold : ∀ r ∈ refs, Function.update self.nodes self.nextRef c r = self.nodes r := by
    intro r hr
    exact Function.update_of_ne (hfresh.below r hr).ne _ _
  have hnew : Function.update self.nodes self.nextRef c self.nextRef = c :=
    Function.update_self _ _ _
  have hkey : ∀ {κ : Type} (f : CounterData → κ), ∀ r ∈ refs,
      f (Function.update self.nodes self.nextRef c r) = f (self.nodes r) := by
    intro κ f r hr
    rw [hold r hr]
  constructor
  · have hfile := (h.lists.congr (hkey CounterData.thread)).push self.nextRef
    rw [hnew, ← countersOf_append hlists c.thread c.ts c.cid c] at hfile
    exact hfile
  · have hfile := (h.timestamps.congr (hkey fun c => (c.thread, c.ts))).push self.nextRef
    rw [hnew, ← countersAt_append c.thread c.ts c.cid c] at hfile
    exact hfile
  · have hfile := (h.byIdx.congr (hkey CounterData.cid)).push self.nextRef
    rw [hnew, ← Buckets.itemsAt_putLast] at hfile
    exact hfile

/-- A counter that is appended has a node of its own. -/
theorem Fresh.append (h : self.Fresh refs) (t : Thread) (ts counterId : ℕ) (c : CounterData) :
    (self.append t ts counterId c).Fresh (refs ++ [self.nextRef]) where
  nodup := by
    apply List.nodup_append.mpr
    refine ⟨h.nodup, List.nodup_singleton _, ?_⟩
    intro r hr r' hr' heq
    rw [List.mem_singleton.mp hr'] at heq
    exact (h.below r hr).ne heq
  below := by
    intro r hr
    rcases List.mem_append.mp hr with hold | hnew
    · exact (h.below r hold).trans (Nat.lt_succ_self _)
    · rw [List.mem_singleton.mp hnew]
      exact Nat.lt_succ_self _

/-- The counters that the lists hold. -/
def allCounters (self : ADCounter) : List CounterRef := (self.counters.getD ∅).items id

/-- The counters that the map of timestamps holds. -/
def allTimestamps (self : ADCounter) : List CounterRef :=
  self.timestampCounterMap.items fun theMap => theMap.toList.flatMap Prod.snd

/-- The counters that the map of counter indices holds. -/
def allByIdx (self : ADCounter) : List CounterRef := self.countersByIdx.toList.flatMap Prod.snd

/-- The map of the timestamps of a thread files the counters of the thread. -/
theorem Files.timestampsOf (h : self.Files refs) (t : Thread) :
    Filed self.tsOf (group self.threadOf refs t) (self.timestampCounterMap.elem t).itemsAt :=
  h.timestamps.inner t

/-- The lists, the map of timestamps and the map of counter indices hold the counters `refs` and no
others, each once, under its own key and in the order of `refs`. -/
structure HoldsExactly (manager : ADCounter) (refs : List CounterRef) : Prop
    extends manager.Files refs where
  nodup : refs.Nodup
  allCounters : manager.allCounters.Perm refs
  allTimestamps : manager.allTimestamps.Perm refs
  allByIdx : manager.allByIdx.Perm refs

/-- What is filed under each key is all that the indices hold. -/
theorem Files.holdsExactly (h : self.Files refs) (hfresh : self.Fresh refs) :
    self.HoldsExactly refs where
  toFiles := h
  nodup := hfresh.nodup
  allCounters := by
    apply MapPRT.perm_items self.threadOf rfl
    intro t
    rw [← h.lists t]
    exact List.Perm.refl _
  allTimestamps := by
    apply MapPRT.perm_items self.threadOf rfl
    intro t
    exact Buckets.perm_toList (h.timestampsOf t)
  allByIdx := Buckets.perm_toList h.byIdx

/-- A window query finds those of the counters `refs` that belong to its thread and have a timestamp
in the window, ends included, each once. They are sorted by their timestamps, and those with the
same timestamp come in the order of `refs`. -/
def WindowsExact (self : ADCounter) (refs : List CounterRef) : Prop :=
  ∀ pid rid tid tStart tEnd, tStart ≤ tEnd →
    ∃ window, self.getCountersInWindow pid rid tid tStart tEnd = .ok window ∧
      window.Perm (refs.filter fun r =>
        self.threadOf r = ⟨pid, rid, tid⟩ ∧ tStart ≤ self.tsOf r ∧ self.tsOf r ≤ tEnd) ∧
      (window.Pairwise fun x y => self.tsOf x ≤ self.tsOf y) ∧
      ∀ ts, (window.filter fun r => self.tsOf r = ts) = (refs.filter fun r =>
        self.threadOf r = ⟨pid, rid, tid⟩ ∧ tStart ≤ self.tsOf r ∧ self.tsOf r ≤ tEnd).filter
          fun r => self.tsOf r = ts

/-- A counter event is refused, perhaps after the lists were created again, or its counter is
appended. -/
theorem addCounter_cases (self : ADCounter) (event : Event) :
    (∃ manager e, (manager = self ∨ manager = self.recreate) ∧
      self.addCounter event = (manager, .error e)) ∨
    ∃ counterMap counterName, self.counterMap = some counterMap ∧
      ADEvent.findInt counterMap event.counterId = some counterName ∧
      self.addCounter event = (self.recreate.append event.thread event.ts event.counterId
        (.ofEvent event counterName), .ok ()) := by
  unfold addCounter
  cases hmap : self.counterMap with
  | none => exact Or.inl ⟨self, _, Or.inl rfl, rfl⟩
  | some counterMap =>
    simp only
    by_cases htype : event.type = .COUNT
    · rw [if_neg (by simpa using htype)]
      cases hname : ADEvent.findInt counterMap event.counterId with
      | none => exact Or.inl ⟨self.recreate, _, Or.inr rfl, rfl⟩
      | some counterName => exact Or.inr ⟨counterMap, counterName, rfl, hname, rfl⟩
    · rw [if_pos htype]
      exact Or.inl ⟨self.recreate, _, Or.inr rfl, rfl⟩

/-- A counter is refused, or it is appended. -/
theorem addCounterData_cases (self : ADCounter) (cdata : CounterData) :
    (∃ e, self.addCounterData cdata = (self, .error e)) ∨
    self.addCounterData cdata =
      (self.recreate.append cdata.thread cdata.ts cdata.cid cdata, .ok ()) := by
  unfold addCounterData
  simp only
  split
  · exact Or.inl ⟨_, rfl⟩
  · exact Or.inr rfl

/-- What a window query finds, whether or not the thread has counters. -/
theorem getCountersInWindow_eq (self : ADCounter) (pid rid tid : ℕ) {tStart tEnd : ℕ}
    (hle : tStart ≤ tEnd) :
    self.getCountersInWindow pid rid tid tStart tEnd =
      .ok ((self.timestampCounterMap.elem ⟨pid, rid, tid⟩).itemsIn tStart tEnd) := by
  unfold getCountersInWindow MapPRT.elem valueAt
  rw [if_neg (not_lt.mpr hle)]
  cases self.timestampCounterMap.lookup pid with
  | none => simp
  | some ofRanks =>
    cases hr : ofRanks.lookup rid with
    | none => simp [hr]
    | some ofThreads =>
      cases ht : ofThreads.lookup tid with
      | none => simp [hr, ht]
      | some theMap =>
        simp only [hr, ht, Option.getD_some]
        split
        · rename_i hend
          rw [Buckets.itemsIn_of_end theMap tEnd hend]
        · exact Buckets.collect_range theMap hle

/-- Queries of maps that file the counters give what lies in the window. -/
theorem Files.windowsExact (h : self.Files refs) : self.WindowsExact refs := by
  intro pid rid tid tStart tEnd hle
  have hfiled := h.timestampsOf ⟨pid, rid, tid⟩
  have hrange : (group self.threadOf refs ⟨pid, rid, tid⟩).filter
      (fun r => tStart ≤ self.tsOf r ∧ self.tsOf r ≤ tEnd) = refs.filter fun r =>
        self.threadOf r = ⟨pid, rid, tid⟩ ∧ tStart ≤ self.tsOf r ∧ self.tsOf r ≤ tEnd := by
    unfold group
    rw [List.filter_filter]
    apply List.filter_congr
    intro r _
    rw [Bool.decide_and (self.threadOf r = _), Bool.and_comm]
  rw [← hrange]
  exact ⟨_, self.getCountersInWindow_eq pid rid tid hle,
    Buckets.itemsIn_perm hfiled tStart tEnd, Buckets.itemsIn_sorted hfiled tStart tEnd,
    Buckets.group_itemsIn hfiled tStart tEnd⟩

end ADCounter

/-- What is done to the counter manager. -/
inductive CounterAction
  | linkCounterMap (m : Option (AList fun _ : ℤ => String))
  | addCounter (event : Event)
  | addCounterData (cdata : CounterData)
  | flushCounters

/-- A counter manager and the counters that were added to it since the last flush. -/
structure CounterHistory where
  manager : ADCounter
  added : List CounterData

namespace CounterHistory

/-- The counter that an event stands for, with the name that its index has. -/
def counterOf (counterMap : Option (AList fun _ : ℤ => String)) (event : Event) : CounterData :=
  .ofEvent event ((counterMap.bind (ADEvent.findInt · event.counterId)).getD "")

/-- Carry out a call. A counter is added unless the call fails. -/
def step (s : CounterHistory) : CounterAction → CounterHistory
  | .linkCounterMap m => { s with manager := s.manager.linkCounterMap m }
  | .addCounter event =>
    match s.manager.addCounter event with
    | (manager, .ok ()) =>
      { manager := manager, added := s.added ++ [counterOf s.manager.counterMap event] }
    | (manager, .error _) => { s with manager := manager }
  | .addCounterData cdata =>
    match s.manager.addCounterData cdata with
    | (manager, .ok ()) => { manager := manager, added := s.added ++ [cdata] }
    | (manager, .error _) => { s with manager := manager }
  | .flushCounters => { manager := s.manager.flushCounters.1, added := [] }

/-- A step does an action. -/
def Step (s : CounterHistory) (a : CounterAction) (t : CounterHistory) : Prop := s.step a = t

/-- The counters added since the last flush are those of the nodes `refs`, in that order, and the
three indices file these nodes. -/
structure Indexed (s : CounterHistory) (refs : List CounterRef) : Prop where
  added : refs.map s.manager.nodes = s.added
  fresh : s.manager.Fresh refs
  files : s.manager.Files refs

variable {s : CounterHistory} {refs : List CounterRef}

/-- A manager with the same nodes and indices. -/
theorem Indexed.recreate (h : s.Indexed refs) :
    Indexed { s with manager := s.manager.recreate } refs where
  added := h.added
  fresh := ⟨h.fresh.nodup, h.fresh.below⟩
  files := h.files.recreate

/-- A counter that is appended is indexed too. -/
theorem Indexed.append (h : s.Indexed refs) (c : CounterData) :
    Indexed { manager := s.manager.recreate.append c.thread c.ts c.cid c, added := s.added ++ [c] }
      (refs ++ [s.manager.nextRef]) where
  added := by
    rw [List.map_append, ← h.added]
    congr 1
    · apply List.map_congr_left
      intro r hr
      exact Function.update_of_ne (h.fresh.below r hr).ne _ _
    · exact congrArg ([·]) (Function.update_self _ _ _)
  fresh := h.recreate.fresh.append _ _ _ _
  files := h.recreate.files.append h.recreate.fresh rfl c

/-- Every call leaves the indices in step. -/
theorem Indexed.step (h : s.Indexed refs) (a : CounterAction) :
    ∃ refs', (s.step a).Indexed refs' := by
  cases a with
  | linkCounterMap m =>
    exact ⟨refs, h.added, ⟨h.fresh.nodup, h.fresh.below⟩, ⟨h.files.lists, h.files.timestamps,
      h.files.byIdx⟩⟩
  | addCounter event =>
    unfold CounterHistory.step
    rcases s.manager.addCounter_cases event with
      ⟨manager, e, rfl | rfl, hadd⟩ | ⟨counterMap, counterName, hmap, hname, hadd⟩
    · simp only [hadd]
      exact ⟨refs, h⟩
    · simp only [hadd]
      exact ⟨refs, h.recreate⟩
    · have hcounter : counterOf s.manager.counterMap event = .ofEvent event counterName := by
        unfold counterOf
        rw [hmap, Option.bind_some, hname, Option.getD_some]
      simp only [hadd, hcounter]
      exact ⟨_, h.append (.ofEvent event counterName)⟩
  | addCounterData cdata =>
    unfold CounterHistory.step
    rcases s.manager.addCounterData_cases cdata with ⟨e, hadd⟩ | hadd
    · simp only [hadd]
      exact ⟨refs, h⟩
    · simp only [hadd]
      exact ⟨_, h.append cdata⟩
  | flushCounters =>
    refine ⟨[], rfl, ⟨List.nodup_nil, fun r hr => ?_⟩, ?_⟩
    · cases hr
    · exact ADCounter.files_nil rfl rfl rfl

/-- A manager to which nothing was added. -/
def start (nodes : CounterRef → CounterData) : CounterHistory :=
  { manager := .new nodes, added := [] }

/-- After any calls, the three indices hold exactly the counters added since the last flush, and
window queries find those of a thread in a window. -/
theorem indices_agree {nodes : CounterRef → CounterData}
    (hrun : Runs Step (fun _ _ => True) (start nodes) s) :
    ∃ refs : List CounterRef, refs.map s.manager.nodes = s.added ∧
      s.manager.HoldsExactly refs ∧ s.manager.WindowsExact refs := by
  have hindexed : ∃ refs, s.Indexed refs := by
    refine hrun.invariant (fun s => ∃ refs, s.Indexed refs) ?_ ?_
    · exact ⟨[], rfl, ⟨List.nodup_nil, fun r hr => by cases hr⟩, ADCounter.files_nil rfl rfl rfl⟩
    · intro s a t hindexed _ hstep
      obtain ⟨refs, h⟩ := hindexed
      subst hstep
      exact h.step a
  obtain ⟨refs, h⟩ := hindexed
  exact ⟨refs, h.added, h.files.holdsExactly h.fresh, h.files.windowsExact⟩

/-- Actions one after another are a run. -/
private theorem runs_foldl (actions : List CounterAction) (s : CounterHistory) :
    Runs Step (fun _ _ => True) s (actions.foldl step s) := by
  induction actions generalizing s with
  | nil => exact .refl
  | cons a rest ih => exact (ih (s.step a)).trans (Runs.refl.tail trivial rfl)

/-- A counter and a flush; then three counters of one thread, out of the order of their times, one
before the names are linked and one with an unknown index. -/
private def threeCounters : List CounterAction :=
  [.addCounterData ⟨"first", 0, 1, 2, 5, 1, 30, ⟨0, 0, 0⟩⟩, .flushCounters,
    .addCounter ⟨[0, 1, 2, 99, 1234, 40], .COUNT, 0, ⟨1, 0, 0⟩⟩,
    .addCounterData ⟨"second", 0, 1, 2, 5, 2, 20, ⟨0, 0, 0⟩⟩,
    .addCounterData ⟨"third", 0, 1, 2, 6, 2, 20, ⟨0, 0, 0⟩⟩,
    .linkCounterMap (some ((∅ : AList fun _ : ℤ => String).insert 99 "fourth")),
    .addCounter ⟨[0, 1, 2, 99, 1234, 10], .COUNT, 1, ⟨1, 0, 1⟩⟩,
    .addCounter ⟨[0, 1, 2, 101, 1234, 10], .COUNT, 2, ⟨1, 0, 2⟩⟩]

/-- The history after three counters. -/
private def afterThreeCounters : CounterHistory :=
  threeCounters.foldl step (start fun _ => ⟨"none", 0, 0, 0, 0, 0, 0, ⟨0, 0, 0⟩⟩)

/-- The run with three counters. -/
theorem indices_agree_threeCounters :
    (afterThreeCounters.added.map CounterData.ts = [20, 20, 10] ∧
      afterThreeCounters.manager.getCountersInWindow 0 1 2 10 20 = .ok [3, 1, 2]) ∧
    ∃ refs : List CounterRef,
      refs.map afterThreeCounters.manager.nodes = afterThreeCounters.added ∧
      afterThreeCounters.manager.HoldsExactly refs ∧
      afterThreeCounters.manager.WindowsExact refs := by
  refine ⟨⟨by decide +kernel, ?_⟩, indices_agree (runs_foldl threeCounters _)⟩
  decide +kernel

end CounterHistory

end Chimbuko
