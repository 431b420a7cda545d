import Chimbuko.AD.ADParserFetch
import Chimbuko.AD.ADParserStream

/-!
# Malformed trace data

What is checked of a row are its program, rank and thread. Its event type index is used as an index
of a vector, and its timestamp is compared with that of an array without further events, which is
the greatest there is. So `getEvents` does not return for all data that can be fetched, and this is
when it does.

The vector of event types is built from the known ones, whose indices may be any integers.
-/

namespace Chimbuko

namespace ADParser

open EventDataType FuncEventType Grouping

/-- The indices whose successor is an `int`, too. -/
def inVector (eid : ℤ) : Prop := 0 ≤ eid ∧ eid < 2 ^ 31 - 1

instance (eid : ℤ) : Decidable (inVector eid) := inferInstanceAs (Decidable (_ ∧ _))

/-- Store the type of function event of a known event type. A size below zero is converted to one
that is too large for a vector. -/
def storeEventType (map : List FuncEventType) (entry : Sigma fun _ : ℤ => String) :
    Except String (List FuncEventType) :=
  if entry.2 = "ENTRY" ∨ entry.2 = "EXIT" then
    if entry.1 = -1 then throw "undefined: event type index out of range"
    else if inVector entry.1 then
      pure (setFuncEventType map entry.1.toNat (if entry.2 = "ENTRY" then ENTRY else EXIT))
    else throw "vector::_M_default_append"
  else pure map

/-- The types of function events by event type index. -/
def eventTypeVector (eventTypes : AList fun _ : ℤ => String) :
    Except String (List FuncEventType) := eventTypes.entries.foldlM storeEventType []

/-- The events of one thread, with the vector of event types. -/
def interweaveThread (self : ADParser) (map : List FuncEventType) (thr : ThreadData) (tid : ℕ) :
    Except String (List Event) :=
  interweave map self.correlationIDcounterIdx (startCursor thr tid).count (startCursor thr tid)

/-- The valid events of the step, where the known event types may have any indices. -/
def getEventsOf (self : ADParser) (eventTypes : AList fun _ : ℤ => String) :
    Except String (List Event) := do
  let valid := self.allValid
  let thr ← valid.foldlM ThreadData.push ThreadData.empty
  let map ← eventTypeVector eventTypes
  let out ← thr.tids.foldlM (fun out tid => do
    let events ← self.interweaveThread map thr tid
    pure (out ++ events)) []
  if out.length ≠ valid.length then throw "Event insertion missed some events??"
  else pure out

/-- Where the vectors of event types agree, so do the events. -/
theorem getEventsOf_eq_getEvents (self : ADParser) {eventTypes : AList fun _ : ℤ => String}
    (h : eventTypeVector eventTypes = .ok self.funcEventTypeMap) :
    self.getEventsOf eventTypes = self.getEvents := by
  unfold getEventsOf
  rw [h]
  rfl

namespace Cursor

/-- What the remaining events of a thread must meet so that all of them can be put out: the types
of the function events are known, and at the greatest timestamp there is no counter, nor a function
event but an entry. -/
structure Extractable (c : Cursor) (map : List FuncEventType) : Prop where
  eid_lt : ∀ ev ∈ c.funcs, ev.eid < map.length
  counter_lt : ∀ ev ∈ c.counters, ev.ts < maxTs
  entry : ∀ ev ∈ c.funcs, ev.ts = maxTs → isEntry map ev = true

variable {c c' : Cursor} {map : List FuncEventType} {cid : ℤ}

/-- No array has its next event after the greatest timestamp. -/
theorem nextTs_le_maxTs {events : List Event} (h : ∀ ev ∈ events, ev.ts ≤ maxTs) :
    nextTs events ≤ maxTs := by
  cases events with
  | nil => exact le_rfl
  | cons ev rest => exact h ev List.mem_cons_self

/-- If an event was put out and the others can be, then the arrays were such that all of them
could. -/
theorem Extractable.of_next (hbound : ∀ type, ∀ ev ∈ c.remaining type, ev.ts ≤ maxTs)
    {ev : Event} (hnext : c.next map cid = .ok (ev, c')) (h : c'.Extractable map) :
    c.Extractable map := by
  obtain ⟨type, t, rest, htype, hwins, hrem, hrest⟩ := next_inv hnext
  obtain ⟨-, hfirst⟩ := funcEventType_ok htype
  have hcomms : nextTs c.comms ≤ maxTs := nextTs_le_maxTs (hbound COMM)
  have hfuncs' : t ≠ FUNC → c'.funcs = c.funcs := by
    intro ht
    have heq := congrFun hrest FUNC
    rwa [Function.update_of_ne ht.symm] at heq
  have hcounters' : t ≠ COUNT → c'.counters = c.counters := by
    intro ht
    have heq := congrFun hrest COUNT
    rwa [Function.update_of_ne ht.symm] at heq
  cases t with
  | FUNC =>
    have hfuncs : c.funcs = ev :: rest := hrem
    have hrest' : c'.funcs = rest := congrFun hrest FUNC
    have hlookup := hfirst ev rest hfuncs
    have hlt : ev.eid < map.length := (List.getElem?_eq_some_iff.mp hlookup).1
    rw [Wins] at hwins
    constructor
    · intro x hx
      rcases List.mem_cons.mp (hfuncs ▸ hx) with rfl | hmem
      · exact hlt
      · exact h.eid_lt x (hrest' ▸ hmem)
    · rw [← hcounters' (by decide)]
      exact h.counter_lt
    · intro x hx hts
      rcases List.mem_cons.mp (hfuncs ▸ hx) with rfl | hmem
      · have hnextTs : nextTs c.funcs = x.ts := by
          rw [hfuncs]
          rfl
        split at hwins
        · rename_i hentry
          unfold isEntry
          rw [hlookup, hentry]
          rfl
        · omega
      · exact h.entry x (hrest' ▸ hmem) hts
  | COMM =>
    exact ⟨hfuncs' (by decide) ▸ h.eid_lt, hcounters' (by decide) ▸ h.counter_lt,
      hfuncs' (by decide) ▸ h.entry⟩
  | COUNT =>
    have hcounters : c.counters = ev :: rest := hrem
    have hrest' : c'.counters = rest := congrFun hrest COUNT
    refine ⟨hfuncs' (by decide) ▸ h.eid_lt, fun x hx => ?_, hfuncs' (by decide) ▸ h.entry⟩
    rcases List.mem_cons.mp (hcounters ▸ hx) with rfl | hmem
    · have hnextTs : nextTs c.counters = x.ts := by
        rw [hcounters]
        rfl
      rw [Wins] at hwins
      exact hnextTs ▸ hwins.1.trans_le hcomms
    · exact h.counter_lt x (hrest' ▸ hmem)

/-- If all of the events can be put out and there are some, then one of them is. -/
theorem Extractable.next (h : c.Extractable map)
    (hbound : ∀ type, ∀ ev ∈ c.remaining type, ev.ts ≤ maxTs) (cid : ℤ)
    (hne : ¬(c.funcs = [] ∧ c.comms = [] ∧ c.counters = [])) :
    ∃ ev c', c.next map cid = .ok (ev, c') := by
  obtain ⟨type, htype, hentry⟩ : ∃ type, c.funcEventType map = .ok type ∧
      (type ≠ ENTRY → ∀ ev rest, c.funcs = ev :: rest → isEntry map ev ≠ true) := by
    unfold Cursor.funcEventType
    cases hfuncs : c.funcs with
    | nil => exact ⟨NA, rfl, fun _ ev rest hcons => (by cases hcons)⟩
    | cons ev rest =>
      have hlt := h.eid_lt ev (hfuncs ▸ List.mem_cons_self)
      refine ⟨map[ev.eid], by simp only [List.getElem?_eq_getElem hlt]; rfl, ?_⟩
      intro htype ev' rest' hcons
      cases hcons
      unfold isEntry
      rw [List.getElem?_eq_getElem hlt]
      simpa using htype
  obtain ⟨t, ht, hwins⟩ := c.earliest_spec map type (c.counterIsCorrelationId cid)
  have hsome : c.remaining t ≠ [] := by
    intro hnil
    -- an array without further events wins only if all that remains is at the end of time
    have hend : maxTs ≤ nextTs (c.remaining t) := by
      rw [hnil]
      exact le_rfl
    have hle := fun t' => hend.trans (hwins.nextTs_le t')
    have hcounters : c.counters = [] := by
      cases hcounters : c.counters with
      | nil => rfl
      | cons ev rest =>
        have hlt := h.counter_lt ev (hcounters ▸ List.mem_cons_self)
        have hge := hle COUNT
        rw [Cursor.remaining, hcounters, nextTs_cons] at hge
        omega
    have hfuncs : type ≠ ENTRY → c.funcs = [] := by
      intro hne
      cases hfuncs : c.funcs with
      | nil => rfl
      | cons ev rest =>
        have hmem : ev ∈ c.funcs := hfuncs ▸ List.mem_cons_self
        have hge := hle FUNC
        rw [Cursor.remaining, hfuncs, nextTs_cons] at hge
        exact absurd (h.entry ev hmem ((hbound FUNC ev hmem).antisymm hge))
          (hentry hne ev rest hfuncs)
    have hmax : ∀ type, nextTs (c.remaining type) ≤ maxTs := fun type =>
      nextTs_le_maxTs (hbound type)
    have hfuncsMax := hmax FUNC
    have hcommsMax := hmax COMM
    have hcountersMax := hmax COUNT
    have hfuncsLe := hle FUNC
    have hcommsLe := hle COMM
    have hcountersLe := hle COUNT
    simp only [Cursor.remaining] at hfuncsMax hcommsMax hcountersMax hfuncsLe hcommsLe hcountersLe
    cases t with
    | FUNC =>
      rw [Wins] at hwins
      split at hwins
      · rename_i htypeEntry
        rw [(funcEventType_ok htype).1 hnil] at htypeEntry
        cases htypeEntry
      · omega
    | COMM =>
      rw [Wins] at hwins
      split at hwins
      · omega
      · rename_i htypeEntry
        exact hne ⟨hfuncs htypeEntry, hnil, hcounters⟩
    | COUNT =>
      rw [Wins] at hwins
      omega
  obtain ⟨ev, rest, hrem⟩ := List.exists_cons_of_ne_nil hsome
  obtain ⟨c', hnext, -⟩ := next_of_earliest cid htype ht hrem
  exact ⟨ev, c', hnext⟩

/-- Putting out an event keeps what holds of all remaining events. -/
theorem subset_of_update {t : EventDataType} {ev : Event} {rest : List Event}
    (hrem : c.remaining t = ev :: rest)
    (hrest : c'.remaining = Function.update c.remaining t rest) (type : EventDataType) :
    c'.remaining type ⊆ c.remaining type := by
  rw [hrest]
  by_cases heq : type = t
  · rw [heq, Function.update_self, hrem]
    exact List.subset_cons_self ev rest
  · rw [Function.update_of_ne heq]
    exact List.Subset.refl _

end Cursor

/-- The events of a thread can be put out exactly if they meet the condition. -/
theorem interweave_ok_iff (map : List FuncEventType) (cid : ℤ) (n : ℕ) {c : Cursor}
    (hbound : ∀ type, ∀ ev ∈ c.remaining type, ev.ts ≤ maxTs) (hn : c.count ≤ n) :
    (∃ out, interweave map cid n c = .ok out) ↔ c.Extractable map := by
  induction n generalizing c with
  | zero =>
    have hfuncs : c.funcs = [] := List.length_eq_zero_iff.mp (by unfold Cursor.count at hn; omega)
    have hcounters : c.counters = [] :=
      List.length_eq_zero_iff.mp (by unfold Cursor.count at hn; omega)
    refine ⟨fun _ => ⟨?_, ?_, ?_⟩, fun _ => ⟨[], rfl⟩⟩
    · simp [hfuncs]
    · simp [hcounters]
    · simp [hfuncs]
  | succ n ih =>
    rw [interweave]
    by_cases hempty : c.funcs = [] ∧ c.comms = [] ∧ c.counters = []
    · rw [if_pos hempty]
      refine ⟨fun _ => ⟨?_, ?_, ?_⟩, fun _ => ⟨[], rfl⟩⟩
      · simp [hempty.1]
      · simp [hempty.2.2]
      · simp [hempty.1]
    · rw [if_neg hempty]
      have hafter : ∀ {ev c'}, c.next map cid = .ok (ev, c') →
          ((∃ out, interweave map cid n c' = .ok out) ↔ c'.Extractable map) := by
        intro ev c' hnext
        obtain ⟨type, t, rest, -, -, hrem, hrest⟩ := Cursor.next_inv hnext
        have hcount := Cursor.count_advance hrem hrest
        exact ih (fun type x hx => hbound type x (Cursor.subset_of_update hrem hrest type hx))
          (by omega)
      constructor
      · rintro ⟨out, hout⟩
        obtain ⟨⟨ev, c'⟩, hnext, hrun⟩ := TransitionSystem.bind_eq_ok hout
        obtain ⟨tail, htail, -⟩ := TransitionSystem.bind_eq_ok hrun
        exact ((hafter hnext).mp ⟨tail, htail⟩).of_next hbound hnext
      · intro h
        obtain ⟨ev, c', hnext⟩ := h.next hbound cid hempty
        obtain ⟨type, t, rest, -, -, hrem, hrest⟩ := Cursor.next_inv hnext
        have hsub := Cursor.subset_of_update hrem hrest
        have h' : c'.Extractable map :=
          ⟨fun x hx => h.eid_lt x (hsub FUNC hx), fun x hx => h.counter_lt x (hsub COUNT hx),
            fun x hx => h.entry x (hsub FUNC hx)⟩
        obtain ⟨tail, htail⟩ := (hafter hnext).mpr h'
        refine ⟨ev :: tail, ?_⟩
        rw [hnext]
        change (interweave map cid n c' >>= _) = _
        rw [htail]
        rfl

/-- Which data are extracted: the communication and counter events of each thread are in time order,
the type of every function event is known, at the greatest timestamp there is no counter, nor a
function event but an entry, and the indices of the known entry and exit types are in the vector. -/
structure Extractable (parser : ADParser) (eventTypes : AList fun _ : ℤ => String) : Prop where
  indices : ∀ entry ∈ eventTypes.entries, entry.2 = "ENTRY" ∨ entry.2 = "EXIT" → inVector entry.1
  comms : ∀ tid, (parser.validOn tid COMM).Pairwise fun x y => x.ts ≤ y.ts
  counters : ∀ tid, (parser.validOn tid COUNT).Pairwise fun x y => x.ts ≤ y.ts
  known : ∀ ev ∈ parser.validEvents FUNC, ∃ entry ∈ eventTypes.entries,
    (entry.2 = "ENTRY" ∨ entry.2 = "EXIT") ∧ (ev.eid : ℤ) ≤ entry.1
  counter_lt : ∀ ev ∈ parser.validEvents COUNT, ev.ts < maxTs
  entry : ∀ ev ∈ parser.validEvents FUNC, ev.ts = maxTs →
    eventTypes.lookup (ev.eid : ℤ) = some "ENTRY"

/-- The vector has the indices up to the greatest known one, and says which of them are entries. -/
structure TypesOf (map : List FuncEventType) (entries : List (Sigma fun _ : ℤ => String)) :
    Prop where
  lt_length : ∀ k : ℕ, k < map.length ↔
    ∃ entry ∈ entries, (entry.2 = "ENTRY" ∨ entry.2 = "EXIT") ∧ (k : ℤ) ≤ entry.1
  entry : ∀ k : ℕ, map[k]? = some ENTRY ↔ ⟨(k : ℤ), "ENTRY"⟩ ∈ entries

/-- The map grows to the event type. -/
theorem length_setFuncEventType (map : List FuncEventType) (eid : ℕ) (type : FuncEventType) :
    (setFuncEventType map eid type).length = max map.length (eid + 1) := by
  unfold setFuncEventType
  split <;> simp only [List.length_set, List.length_append, List.length_replicate] <;> omega

/-- Storing a type makes the index one of its type, and no other index an entry. -/
theorem entry_setFuncEventType (map : List FuncEventType) (eid : ℕ) (type : FuncEventType)
    (k : ℕ) : (setFuncEventType map eid type)[k]? = some ENTRY ↔
      if k = eid then type = ENTRY else map[k]? = some ENTRY := by
  have hlength := length_setFuncEventType map eid type
  unfold setFuncEventType at hlength ⊢
  rw [List.length_set] at hlength
  by_cases hk : k = eid
  · subst hk
    rw [if_pos rfl, List.getElem?_set_self (by omega), Option.some.injEq]
  · rw [if_neg hk, List.getElem?_set_ne (Ne.symm hk)]
    split
    · by_cases hlt : k < map.length
      · rw [List.getElem?_append_left hlt]
      · rw [List.getElem?_append_right (not_lt.mp hlt), List.getElem?_replicate,
          List.getElem?_eq_none (not_lt.mp hlt)]
        split <;> simp
    · exact Iff.rfl

/-- A known type is stored at its index. -/
theorem TypesOf.store {map : List FuncEventType} {entries : List (Sigma fun _ : ℤ => String)}
    (h : TypesOf map entries) {entry : Sigma fun _ : ℤ => String}
    (hnodup : (entries ++ [entry]).NodupKeys) (htyped : entry.2 = "ENTRY" ∨ entry.2 = "EXIT")
    (hindex : 0 ≤ entry.1) :
    TypesOf (setFuncEventType map entry.1.toNat (if entry.2 = "ENTRY" then ENTRY else EXIT))
      (entries ++ [entry]) := by
  have hcast : (entry.1.toNat : ℤ) = entry.1 := Int.toNat_of_nonneg hindex
  constructor
  · intro k
    rw [length_setFuncEventType, lt_max_iff, h.lt_length k]
    simp only [List.mem_append, List.mem_singleton]
    constructor
    · rintro (⟨x, hx, hk⟩ | hk)
      · exact ⟨x, Or.inl hx, hk⟩
      · exact ⟨entry, Or.inr rfl, htyped, by omega⟩
    · rintro ⟨x, hx | rfl, hk⟩
      · exact Or.inl ⟨x, hx, hk⟩
      · exact Or.inr (by omega)
  · intro k
    rw [entry_setFuncEventType, List.mem_append, List.mem_singleton]
    by_cases hk : k = entry.1.toNat
    · have hkey : (k : ℤ) = entry.1 := by omega
      rw [if_pos hk]
      have hold : (⟨(k : ℤ), "ENTRY"⟩ : Sigma fun _ : ℤ => String) ∉ entries := by
        intro hmem
        obtain ⟨-, -, hdisjoint⟩ := List.pairwise_append.mp (List.nodupKeys_iff_pairwise.mp hnodup)
        exact hdisjoint _ hmem entry List.mem_cons_self hkey
      constructor
      · intro htype
        refine Or.inr (Sigma.ext hkey (heq_of_eq ?_))
        by_contra hne
        rw [if_neg (Ne.symm hne)] at htype
        cases htype
      · rintro (hmem | heq)
        · exact absurd hmem hold
        · rw [← heq, if_pos rfl]
    · rw [if_neg hk, h.entry k]
      constructor
      · exact Or.inl
      · rintro (hmem | heq)
        · exact hmem
        · exact absurd (by rw [← heq]; rfl) hk

/-- Another type is not stored. -/
theorem TypesOf.skip {map : List FuncEventType} {entries : List (Sigma fun _ : ℤ => String)}
    (h : TypesOf map entries) {entry : Sigma fun _ : ℤ => String}
    (htyped : ¬(entry.2 = "ENTRY" ∨ entry.2 = "EXIT")) : TypesOf map (entries ++ [entry]) := by
  constructor
  · intro k
    rw [h.lt_length k]
    simp only [List.mem_append, List.mem_singleton]
    constructor
    · rintro ⟨x, hx, hk⟩
      exact ⟨x, Or.inl hx, hk⟩
    · rintro ⟨x, hx | rfl, hk⟩
      · exact ⟨x, hx, hk⟩
      · exact absurd hk.1 htyped
  · intro k
    rw [h.entry k, List.mem_append, List.mem_singleton]
    constructor
    · exact Or.inl
    · rintro (hmem | rfl)
      · exact hmem
      · exact absurd (Or.inl rfl) htyped

/-- The vector is built exactly if the indices of the known entry and exit types are in it. -/
theorem eventTypeVector_ok (entries : List (Sigma fun _ : ℤ => String))
    (hnodup : entries.NodupKeys) :
    (∃ map, entries.foldlM storeEventType [] = .ok map ∧ TypesOf map entries ∧
      ∀ entry ∈ entries, entry.2 = "ENTRY" ∨ entry.2 = "EXIT" → inVector entry.1) ∨
    (∃ e, entries.foldlM storeEventType [] = .error e) ∧
      ¬ ∀ entry ∈ entries, entry.2 = "ENTRY" ∨ entry.2 = "EXIT" → inVector entry.1 := by
  induction entries using List.reverseRecOn with
  | nil =>
    refine Or.inl ⟨[], rfl, ⟨fun k => ?_, fun k => ?_⟩, ?_⟩ <;> simp
  | append_singleton entries entry ih =>
    rw [List.foldlM_append]
    rcases ih (hnodup.sublist (List.sublist_append_left _ _)) with
      ⟨map, hmap, htypes, hindices⟩ | ⟨⟨e, he⟩, hindices⟩
    · rw [hmap]
      change (∃ map', (storeEventType map entry >>= pure) = .ok map' ∧ _) ∨
        (∃ e, (storeEventType map entry >>= pure) = .error e) ∧ _
      rw [bind_pure]
      unfold storeEventType
      by_cases htyped : entry.2 = "ENTRY" ∨ entry.2 = "EXIT"
      · rw [if_pos htyped]
        by_cases hindex : inVector entry.1
        · have hnonneg : 0 ≤ entry.1 := hindex.1
          rw [if_neg (by omega), if_pos hindex]
          refine Or.inl ⟨_, rfl, htypes.store hnodup htyped hnonneg, fun x hx hxtyped => ?_⟩
          rcases List.mem_append.mp hx with hold | hnew
          · exact hindices x hold hxtyped
          · rw [List.mem_singleton.mp hnew]
            exact hindex
        · refine Or.inr ⟨?_, fun h => hindex (h entry (by simp) htyped)⟩
          rw [if_neg hindex]
          split <;> exact ⟨_, rfl⟩
      · rw [if_neg htyped]
        refine Or.inl ⟨map, rfl, htypes.skip htyped, fun x hx hxtyped => ?_⟩
        rcases List.mem_append.mp hx with hold | hnew
        · exact hindices x hold hxtyped
        · rw [List.mem_singleton.mp hnew] at hxtyped
          exact absurd hxtyped htyped
    · refine Or.inr ⟨⟨e, by rw [he]; rfl⟩, fun h => hindices fun x hx => ?_⟩
      exact h x (List.mem_append_left _ hx)

/-- The array of a thread has the valid events of the thread. -/
theorem data_of_separates {self : ADParser} {thr : ThreadData}
    (hthr : thr.Separates self.allValid) (type : EventDataType) (tid : ℕ) :
    thr.data type tid = self.validOn tid type := by
  rw [hthr.data, group_type_allValid, validOn]

variable {self : ADParser} {eventTypes : AList fun _ : ℤ => String}

/-- A thread's events can be put out exactly if they meet the condition. -/
theorem interweaveThread_ok_iff
    (hbound : ∀ type, ∀ ev ∈ self.validEvents type, ev.ts ≤ maxTs) {thr : ThreadData}
    (hthr : thr.Separates self.allValid) (map : List FuncEventType) (tid : ℕ) :
    (∃ out, self.interweaveThread map thr tid = .ok out) ↔
      (startCursor thr tid).Extractable map := by
  apply interweave_ok_iff
  · intro type ev hev
    rw [remaining_startCursor, data_of_separates hthr] at hev
    exact hbound type ev ((mem_group Event.tid).mp hev).1
  · exact le_rfl

/-- The condition on the data, from the conditions on the threads. -/
theorem extractable_iff {thr : ThreadData} (hthr : thr.Separates self.allValid)
    {map : List FuncEventType} (hmap : TypesOf map eventTypes.entries) :
    (∀ tid ∈ thr.tids, (startCursor thr tid).Extractable map) ↔
      (∀ ev ∈ self.validEvents FUNC, ∃ entry ∈ eventTypes.entries,
        (entry.2 = "ENTRY" ∨ entry.2 = "EXIT") ∧ (ev.eid : ℤ) ≤ entry.1) ∧
      (∀ ev ∈ self.validEvents COUNT, ev.ts < maxTs) ∧
      ∀ ev ∈ self.validEvents FUNC, ev.ts = maxTs →
        eventTypes.lookup (ev.eid : ℤ) = some "ENTRY" := by
  have hentry : ∀ ev : Event, isEntry map ev = true ↔
      eventTypes.lookup (ev.eid : ℤ) = some "ENTRY" := by
    intro ev
    unfold isEntry
    rw [decide_eq_true_eq, hmap.entry, ← AList.mem_lookup_iff, Option.mem_def]
  have hthread : ∀ type, ∀ ev ∈ self.validEvents type, ev.tid ∈ thr.tids ∧
      ev ∈ thr.data type ev.tid := by
    intro type ev hev
    refine ⟨(hthr.mem ev.tid).mpr ⟨ev, ?_, rfl⟩, ?_⟩
    · unfold allValid
      cases type <;> simp [hev]
    · rw [data_of_separates hthr]
      exact (mem_group Event.tid).mpr ⟨hev, rfl⟩
  have hvalid : ∀ type tid, ∀ ev ∈ thr.data type tid, ev ∈ self.validEvents type := by
    intro type tid ev hev
    rw [data_of_separates hthr] at hev
    exact ((mem_group Event.tid).mp hev).1
  constructor
  · intro h
    refine ⟨fun ev hev => ?_, fun ev hev => ?_, fun ev hev hts => ?_⟩
    · obtain ⟨htid, hdata⟩ := hthread FUNC ev hev
      exact (hmap.lt_length ev.eid).mp ((h ev.tid htid).eid_lt ev hdata)
    · obtain ⟨htid, hdata⟩ := hthread COUNT ev hev
      exact (h ev.tid htid).counter_lt ev hdata
    · obtain ⟨htid, hdata⟩ := hthread FUNC ev hev
      exact (hentry ev).mp ((h ev.tid htid).entry ev hdata hts)
  · rintro ⟨hknown, hcounters, hentries⟩ tid htid
    constructor
    · intro ev hev
      exact (hmap.lt_length ev.eid).mpr (hknown ev (hvalid FUNC tid ev hev))
    · intro ev hev
      exact hcounters ev (hvalid COUNT tid ev hev)
    · intro ev hev hts
      exact (hentry ev).mpr (hentries ev (hvalid FUNC tid ev hev) hts)

/-- Events are extracted exactly if the data meet the condition, where the function events of each
thread are in time order. -/
theorem getEventsOf_ok_iff
    (hbound : ∀ type, ∀ ev ∈ self.validEvents type, ev.ts ≤ maxTs)
    (hfuncs : ∀ tid, (self.validOn tid FUNC).Pairwise fun x y => x.ts ≤ y.ts) :
    (∃ out, self.getEventsOf eventTypes = .ok out) ↔ self.Extractable eventTypes := by
  have hgroup : ∀ type tid, group Event.tid (group Event.type self.allValid type) tid =
      self.validOn tid type := fun type tid => by rw [group_type_allValid, validOn]
  rcases eventTypeVector_ok eventTypes.entries eventTypes.nodupKeys with
    ⟨map, hmap, htypes, hindices⟩ | ⟨⟨e, he⟩, hindices⟩
  swap
  · constructor
    · rintro ⟨out, hout⟩
      obtain ⟨thr, -, hout⟩ := TransitionSystem.bind_eq_ok hout
      obtain ⟨map, hmap, -⟩ := TransitionSystem.bind_eq_ok hout
      unfold eventTypeVector at hmap
      rw [he] at hmap
      cases hmap
    · intro h
      exact absurd h.indices hindices
  have hvector : eventTypeVector eventTypes = .ok map := hmap
  constructor
  · rintro ⟨out, hout⟩
    obtain ⟨thr, hthr, hout⟩ := TransitionSystem.bind_eq_ok hout
    obtain ⟨hseparates, hsorted⟩ := ThreadData.separates_of_foldlM hthr
    obtain ⟨map', hmap', hout⟩ := TransitionSystem.bind_eq_ok hout
    rw [hvector] at hmap'
    cases hmap'
    obtain ⟨out', hloop, -⟩ := TransitionSystem.bind_eq_ok hout
    obtain ⟨g, hg, -⟩ := foldlM_append_of_ok hloop hseparates.nodup
    obtain ⟨hknown, hcounters, hentries⟩ := (extractable_iff hseparates htypes).mp fun tid htid =>
      (interweaveThread_ok_iff hbound hseparates map tid).mp ⟨g tid, hg tid htid⟩
    exact ⟨hindices, fun tid => hgroup COMM tid ▸ hsorted COMM tid,
      fun tid => hgroup COUNT tid ▸ hsorted COUNT tid, hknown, hcounters, hentries⟩
  · intro h
    have hsorted : ∀ type tid, (group Event.tid (group Event.type self.allValid type) tid).Pairwise
        fun x y => x.ts ≤ y.ts := by
      intro type tid
      rw [hgroup]
      cases type
      · exact hfuncs tid
      · exact h.comms tid
      · exact h.counters tid
    obtain ⟨thr, hthr, hseparates⟩ := ThreadData.separates_foldlM self.allValid hsorted
    have hthreads : ∀ tid, ∃ out, tid ∈ thr.tids → self.interweaveThread map thr tid = .ok out := by
      intro tid
      by_cases htid : tid ∈ thr.tids
      · obtain ⟨out, hout⟩ := (interweaveThread_ok_iff hbound hseparates map tid).mpr
          ((extractable_iff hseparates htypes).mpr ⟨h.known, h.counter_lt, h.entry⟩ tid htid)
        exact ⟨out, fun _ => hout⟩
      · exact ⟨[], fun hmem => absurd hmem htid⟩
    choose g hg using hthreads
    have hperm := (stream_of_threads hseparates hsorted hg).1
    refine ⟨thr.tids.flatMap g, ?_⟩
    unfold getEventsOf
    simp only [hthr, hvector]
    change (thr.tids.foldlM (fun out tid => do
      let events ← self.interweaveThread map thr tid
      pure (out ++ events)) [] >>= _) = _
    rw [foldlM_append_ok thr.tids hg [], List.nil_append]
    change (if (thr.tids.flatMap g).length ≠ self.allValid.length then _ else _) = _
    rw [if_neg (not_not.mpr hperm.length_eq)]
    rfl

end ADParser

namespace ADParserReader

open ADParser EventDataType FuncEventType Grouping RowArray

/-- What a read delivers: how many rows there are, and their words. -/
abbrev Words := ℕ × (ℕ → UInt64)

/-- The words of a read by their values. -/
def readWords (read : Option Words) : Option (ℕ × (ℕ → ℕ)) :=
  read.map fun words => (words.1, fun i => (words.2 i).toNat)

/-- No word is greater than the greatest timestamp. -/
theorem ts_rawEvent_le (type : EventDataType) (words : ℕ → UInt64) (i : ℕ) :
    (rawEvent type (fun j => (words j).toNat) i).ts ≤ maxTs := by
  unfold Event.ts rawEvent
  rw [List.getD_eq_getElem?_getD, List.getElem?_map]
  cases (List.range type.dim)[type.idxTs]? with
  | none => exact Nat.zero_le _
  | some j =>
    have hlt := (words (i * type.dim + j)).toNat_lt
    exact Nat.le_pred_of_lt hlt

/-- The timestamp of a relabelled row. -/
theorem ts_relabelled (self : ADParserReader) (buffer : List ℕ) {reader : ADParserReader}
    {type : EventDataType} {count : ℕ} {words : ℕ → ℕ}
    (harray : reader.array type =
      self.replaceIndices type count (readInto type count words buffer)) {k : ℕ} (hk : k < count) :
    (reader.event type k).ts = (rawEvent type words k).ts := by
  have hread : count * type.dim ≤ (readInto type count words buffer).length := by
    unfold readInto
    rw [List.length_append, List.length_map, List.length_range]
    omega
  have hrow : (reader.event type k).data = self.relabelRow (rawEvent type words k).data := by
    change row type.dim (reader.array type) k = _
    rw [harray, (self.row_replaceIndices type hread).2 k hk, row_readInto type words buffer hk]
  have htype : (reader.event type k).type = type := rfl
  have htype' : (rawEvent type words k).type = type := rfl
  unfold Event.ts
  rw [hrow, htype, htype', getD_relabelRow _ (by cases type <;> decide)]

/-- The valid events have the timestamps of their rows. -/
theorem ts_validEvents_le {reader : ADParserReader} {type : EventDataType}
    (h : ∀ k, k < reader.numEvents type → (reader.event type k).ts ≤ maxTs) :
    ∀ ev ∈ reader.validEvents type, ev.ts ≤ maxTs := by
  intro ev hev
  obtain ⟨k, hk, rfl⟩ := List.mem_map.mp (List.mem_of_mem_filter hev)
  exact h k (List.mem_range.mp hk)

/-- The function data are fetched, and the valid events of each thread are in time order. -/
theorem fetchFuncData_ok (self : ADParserReader) (read : Option Words) :
    ∃ after err, self.fetchFuncData (readWords read) = .ok (after, err) ∧
      (∀ ev ∈ after.validEvents FUNC, ev.ts ≤ maxTs) ∧
      ∀ tid, (after.validOn tid FUNC).Pairwise fun x y => x.ts ≤ y.ts := by
  cases read with
  | none => exact ⟨_, _, rfl, fun ev hev => (by cases hev), fun tid => List.Pairwise.nil⟩
  | some read =>
    obtain ⟨after, order, hfetch, hcount, -, hperm, hrepaired, -, hsorted⟩ :=
      self.fetchFuncData_repairs read.1 fun i => (read.2 i).toNat
    refine ⟨after, .OK, hfetch, ts_validEvents_le fun k hk => ?_, fun tid => ?_⟩
    · have hlength : order.length = read.1 := hperm.length_eq.trans List.length_range
      have hlt : k < order.length := by
        rw [hlength, ← hcount]
        exact hk
      rw [(hrepaired k _ (List.getElem?_eq_getElem hlt)).ts_eq rfl rfl]
      exact ts_rawEvent_le FUNC read.2 _
    · have hrows : ((List.range read.1).map (after.event FUNC)).Pairwise fun x y =>
          after.validateEvent x = true → after.validateEvent y = true → x.tid = y.tid →
            x.ts ≤ y.ts := by
        rw [List.pairwise_map]
        apply List.pairwise_lt_range.imp_of_mem
        intro k l _ hl hkl
        exact hsorted k l hkl (List.mem_range.mp hl)
      have hvalid : (after.validEvents FUNC).Pairwise fun x y => x.tid = y.tid → x.ts ≤ y.ts := by
        have hnum : after.numEvents FUNC = read.1 := hcount
        unfold validEvents
        rw [hnum, List.pairwise_filter]
        exact hrows
      unfold validOn group
      rw [List.pairwise_filter]
      apply hvalid.imp
      intro x y hts hx hy
      exact hts ((of_decide_eq_true hx).trans (of_decide_eq_true hy).symm)

/-- The communication data are fetched, and the function data are those from before. -/
theorem fetchCommData_ok (self : ADParserReader) (read : Option Words) :
    ∃ after err, self.fetchCommData (readWords read) = .ok (after, err) ∧
      after.validEvents FUNC = self.validEvents FUNC ∧
      ∀ ev ∈ after.validEvents COMM, ev.ts ≤ maxTs := by
  cases read with
  | none => exact ⟨_, _, rfl, rfl, fun ev hev => (by cases hev)⟩
  | some read =>
    let words : ℕ → ℕ := fun i => (read.2 i).toNat
    let after : ADParserReader :=
      { self with
        commCount := read.1
        commTimestamps :=
          self.replaceIndices COMM read.1 (readInto COMM read.1 words self.commTimestamps) }
    obtain ⟨inOrder, hcheck, -⟩ := after.checkEventOrder_ok COMM
    refine ⟨after, .OK, ?_, rfl, ts_validEvents_le fun k hk => ?_⟩
    · change (after.checkEventOrder COMM false >>= _) = _
      rw [hcheck]
      rfl
    · rw [ts_relabelled self self.commTimestamps rfl hk]
      exact ts_rawEvent_le COMM read.2 k

/-- The counter data are fetched, and the other data are those from before. -/
theorem fetchCounterData_ok (self : ADParserReader) (read : Option Words) :
    ∃ after err, self.fetchCounterData (readWords read) = .ok (after, err) ∧
      after.validEvents FUNC = self.validEvents FUNC ∧
      after.validEvents COMM = self.validEvents COMM ∧
      ∀ ev ∈ after.validEvents COUNT, ev.ts ≤ maxTs := by
  cases read with
  | none => exact ⟨_, _, rfl, rfl, rfl, fun ev hev => (by cases hev)⟩
  | some read =>
    let words : ℕ → ℕ := fun i => (read.2 i).toNat
    let after : ADParserReader :=
      { self with
        counterCount := read.1
        counterTimestamps :=
          self.replaceIndices COUNT read.1 (readInto COUNT read.1 words self.counterTimestamps) }
    obtain ⟨inOrder, hcheck, -⟩ := after.checkEventOrder_ok COUNT
    refine ⟨after, .OK, ?_, rfl, rfl, ts_validEvents_le fun k hk => ?_⟩
    · change (after.checkEventOrder COUNT false >>= _) = _
      rw [hcheck]
      rfl
    · rw [ts_relabelled self self.counterTimestamps rfl hk]
      exact ts_rawEvent_le COUNT read.2 k

/-- Whatever the reads deliver is fetched, and the events are extracted from it exactly if it meets
the condition. -/
theorem getEvents_returns_iff (self : ADParserReader) (funcs comms counters : Option Words)
    (eventTypes : AList fun _ : ℤ => String) :
    ∃ after, self.fetchData (readWords funcs) (readWords comms) (readWords counters) = .ok after ∧
      ((∃ out, after.getEventsOf eventTypes = .ok out) ↔ after.Extractable eventTypes) := by
  obtain ⟨parser, err, hfuncs, hfuncsTs, hsorted⟩ := self.fetchFuncData_ok funcs
  obtain ⟨parser', err', hcomms, hkeep, hcommsTs⟩ := parser.fetchCommData_ok comms
  obtain ⟨after, err'', hcounters, hkeepFuncs, hkeepComms, hcountersTs⟩ :=
    parser'.fetchCounterData_ok counters
  have hfuncsEq : after.validEvents FUNC = parser.validEvents FUNC := hkeepFuncs.trans hkeep
  refine ⟨after, ?_, getEventsOf_ok_iff (fun type => ?_) fun tid => ?_⟩
  · unfold fetchData
    simp only [hfuncs, hcomms, hcounters, bind, Except.bind]
    rfl
  · cases type with
    | FUNC =>
      rw [hfuncsEq]
      exact hfuncsTs
    | COMM =>
      rw [hkeepComms]
      exact hcommsTs
    | COUNT => exact hcountersTs
  · unfold validOn
    rw [hfuncsEq]
    exact hsorted tid

/-- A parser of rank 0 before its first step. -/
private def firstStep : ADParserReader where
  rank := 0
  programIdx := 0
  currentStep := 0
  eventType := ∅
  correlationIDcounterIdx := -1
  eventTimestamps := []
  timerEventCount := 0
  commTimestamps := []
  commCount := 0
  counterTimestamps := []
  counterCount := 0
  dataRankOverride := false
  globalFuncIdxMap := { connectedToPS := false, idxmap := fun _ => none, pid := 0 }

/-- A function event of an event type that is not known. -/
private def unknownTypeRow (i : ℕ) : UInt64 := [0, 0, 0, 7, 3, 10].getD i 0

/-- The event types of entries and exits. -/
private def entryAndExit : AList fun _ : ℤ => String :=
  (AList.singleton 1 "EXIT").insert 0 "ENTRY"

/-- One row of an unknown event type, and the vector of event types is left. -/
theorem getEvents_leaves_eventTypes :
    ∃ after, firstStep.fetchData (readWords (some (1, unknownTypeRow))) none none = .ok after ∧
      after.getEventsOf entryAndExit = .error "undefined: event type index out of range" := by
  refine ⟨_, rfl, ?_⟩
  decide +kernel

end ADParserReader

end Chimbuko
