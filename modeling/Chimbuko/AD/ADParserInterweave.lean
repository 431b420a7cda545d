import Chimbuko.AD.ADParser
import Chimbuko.Library.Grouping
import Chimbuko.Library.TransitionSystem

/-!
# Interweaving the events of one thread

At every moment the earliest of the three next events is put out, and which type wins a tie
depends on whether the next function event is an entry. So at one time the leading entries come
first, then the communication events, then the counters, and then the other function events.
-/

namespace Chimbuko

namespace ADParser

open EventDataType FuncEventType Grouping

/-- An event is the entry of a function. -/
def isEntry (map : List FuncEventType) (ev : Event) : Bool := map[ev.eid]? = some ENTRY

/-- The events of one time in the order they are put out: the leading entries, the
communication events, the counters, the other function events. -/
def ties (map : List FuncEventType) (events : EventDataType → List Event) (t : ℕ) : List Event :=
  (group Event.ts (events FUNC) t).takeWhile (isEntry map) ++ group Event.ts (events COMM) t ++
    group Event.ts (events COUNT) t ++ (group Event.ts (events FUNC) t).dropWhile (isEntry map)

/-- The first of the earliest timestamps is chosen. -/
theorem getEarliest_spec (a b c : ℕ) :
    ∃ i, getEarliest a b c = .ok i ∧
      (i = 0 ∧ a ≤ b ∧ a ≤ c ∨ i = 1 ∧ b < a ∧ b ≤ c ∨ i = 2 ∧ c < a ∧ c < b) := by
  rw [getEarliest]
  split
  · rename_i h
    exact ⟨0, rfl, Or.inl ⟨rfl, h⟩⟩
  split
  · rename_i h
    exact ⟨1, rfl, Or.inr (Or.inl ⟨rfl, h⟩)⟩
  split
  · rename_i h
    exact ⟨2, rfl, Or.inr (Or.inr ⟨rfl, h⟩)⟩
  · omega

namespace Cursor

/-- The next event of a type goes before the next events of the other types. -/
def Wins (c : Cursor) (type : FuncEventType) : EventDataType → Prop
  | FUNC =>
    if type = ENTRY then nextTs c.funcs ≤ nextTs c.comms ∧ nextTs c.funcs ≤ nextTs c.counters
    else nextTs c.funcs < nextTs c.comms ∧ nextTs c.funcs < nextTs c.counters
  | COMM => nextTs c.comms ≤ nextTs c.counters ∧
    if type = ENTRY then nextTs c.comms < nextTs c.funcs else nextTs c.comms ≤ nextTs c.funcs
  | COUNT => nextTs c.counters < nextTs c.comms ∧
    if type = ENTRY then nextTs c.counters < nextTs c.funcs else nextTs c.counters ≤ nextTs c.funcs

/-- The priorities decide ties. The rule for correlation identifiers that coincide with an exit
never applies, since counters go before an exit in any case. -/
theorem earliest_spec (c : Cursor) (map : List FuncEventType) (type : FuncEventType)
    (isCorid : Bool) : ∃ t, c.earliest map type isCorid = .ok t ∧ c.Wins type t := by
  obtain ⟨i, hi, hcases⟩ := getEarliest_spec (nextTs (c.remaining (priority type 0)))
    (nextTs (c.remaining (priority type 1))) (nextTs (c.remaining (priority type 2)))
  have hwins : c.Wins type (priority type i) := by
    by_cases htype : type = ENTRY
    · rw [priority, if_pos htype] at hcases ⊢
      rcases hcases with ⟨rfl, h⟩ | ⟨rfl, h⟩ | ⟨rfl, h⟩
      · change c.Wins type FUNC
        rw [Wins, if_pos htype]
        exact h
      · change c.Wins type COMM
        rw [Wins, if_pos htype]
        exact ⟨h.2, h.1⟩
      · change c.Wins type COUNT
        rw [Wins, if_pos htype]
        exact ⟨h.2, h.1⟩
    · rw [priority, if_neg htype] at hcases ⊢
      rcases hcases with ⟨rfl, h⟩ | ⟨rfl, h⟩ | ⟨rfl, h⟩
      · change c.Wins type COMM
        rw [Wins, if_neg htype]
        exact h
      · change c.Wins type COUNT
        rw [Wins, if_neg htype]
        exact h
      · change c.Wins type FUNC
        rw [Wins, if_neg htype]
        exact h
  refine ⟨priority type i, ?_, hwins⟩
  rw [earliest, hi]
  change (if priority type i = FUNC ∧ type = EXIT ∧ nextTs c.funcs = c.lastFuncEntry ∧ isCorid ∧
    nextTs c.counters = c.lastFuncEntry then _ else pure (priority type i)) = _
  rw [if_neg]
  · rfl
  · rintro ⟨hfunc, hexit, hts, -, hcounter⟩
    rw [hfunc, Wins, if_neg (by rw [hexit]; decide)] at hwins
    omega

/-- The remaining events are in time order, of their types, and before the end of time, and the
types of the function events are known. -/
structure Ordered (c : Cursor) (map : List FuncEventType) : Prop where
  sorted : ∀ type, (c.remaining type).Pairwise fun x y => x.ts ≤ y.ts
  type_eq : ∀ type, ∀ ev ∈ c.remaining type, ev.type = type
  ts_lt : ∀ type, ∀ ev ∈ c.remaining type, ev.ts < maxTs
  eid_lt : ∀ ev ∈ c.funcs, ev.eid < map.length

/-- The next timestamp is that of the first event. -/
theorem nextTs_cons (ev : Event) (rest : List Event) : nextTs (ev :: rest) = ev.ts := rfl

/-- The next event of an array in time order is its earliest. -/
theorem nextTs_le_of_sorted {events : List Event} (h : events.Pairwise fun x y => x.ts ≤ y.ts)
    {ev : Event} (hev : ev ∈ events) : nextTs events ≤ ev.ts := by
  cases events with
  | nil => cases hev
  | cons first rest =>
    rcases List.mem_cons.mp hev with rfl | hmem
    · exact le_rfl
    · exact (List.pairwise_cons.mp h).1 ev hmem

/-- No event of an array in time order has a time before its next event. -/
theorem group_eq_nil_of_sorted {events : List Event}
    (h : events.Pairwise fun x y => x.ts ≤ y.ts) {t : ℕ} (ht : t < nextTs events) :
    group Event.ts events t = [] := by
  refine group_eq_nil Event.ts fun ev hev heq => ?_
  have := nextTs_le_of_sorted h hev
  omega

/-- The type of the next function event, and what that event is then. -/
theorem funcEventType_ok {c : Cursor} {map : List FuncEventType} {type : FuncEventType}
    (h : c.funcEventType map = .ok type) :
    (c.funcs = [] → type = NA) ∧
      ∀ ev rest, c.funcs = ev :: rest → map[ev.eid]? = some type := by
  unfold Cursor.funcEventType at h
  cases hfuncs : c.funcs with
  | nil =>
    rw [hfuncs] at h
    cases h
    exact ⟨fun _ => rfl, fun ev rest hcons => (by cases hcons)⟩
  | cons ev rest =>
    simp only [hfuncs] at h
    cases htype : map[ev.eid]? with
    | none =>
      rw [htype] at h
      cases h
    | some type' =>
      rw [htype] at h
      cases h
      refine ⟨fun hnil => (by cases hnil), fun ev' rest' hcons => ?_⟩
      cases hcons
      exact htype

/-- Whether the next function event is an entry. -/
theorem funcEventType_entry {c : Cursor} {map : List FuncEventType} {type : FuncEventType}
    (h : c.funcEventType map = .ok type) :
    type = ENTRY ↔ ∃ ev rest, c.funcs = ev :: rest ∧ isEntry map ev = true := by
  obtain ⟨hnone, hfirst⟩ := funcEventType_ok h
  cases hfuncs : c.funcs with
  | nil =>
    rw [hnone hfuncs]
    simp
  | cons ev rest => simp [isEntry, hfirst ev rest hfuncs]

/-- The type of the next function event is found. -/
theorem Ordered.funcEventType {c : Cursor} {map : List FuncEventType} (hc : c.Ordered map) :
    ∃ type, c.funcEventType map = .ok type := by
  rw [Cursor.funcEventType]
  cases hfuncs : c.funcs with
  | nil => exact ⟨NA, rfl⟩
  | cons ev rest =>
    have hlt : ev.eid < map.length := hc.eid_lt ev (hfuncs ▸ List.mem_cons_self)
    refine ⟨map[ev.eid], ?_⟩
    simp only [List.getElem?_eq_getElem hlt]
    rfl

/-- The winning event is the earliest of all remaining events. -/
theorem Wins.nextTs_le {c : Cursor} {type : FuncEventType} {t : EventDataType}
    (h : c.Wins type t) (type' : EventDataType) :
    nextTs (c.remaining t) ≤ nextTs (c.remaining type') := by
  cases t <;> rw [Wins] at h <;> cases type' <;> simp only [remaining] <;> split at h <;> omega

/-- If the type to put out next has an event then this is put out, and the other arrays are left as
they are. -/
theorem next_of_earliest {c : Cursor} {map : List FuncEventType} (cid : ℤ) {type : FuncEventType}
    (htype : c.funcEventType map = .ok type) {t : EventDataType}
    (ht : c.earliest map type (c.counterIsCorrelationId cid) = .ok t) {ev : Event}
    {rest : List Event} (hrem : c.remaining t = ev :: rest) :
    ∃ c', c.next map cid = .ok (ev, c') ∧ c'.remaining = Function.update c.remaining t rest := by
  obtain ⟨c', hadvance, hrest⟩ : ∃ c', c.advance type (c.counterIsCorrelationId cid) t =
      some (ev, c') ∧ c'.remaining = Function.update c.remaining t rest := by
    cases t with
    | FUNC =>
      have hfuncs : c.funcs = ev :: rest := hrem
      by_cases hentry : type = ENTRY
      · refine ⟨{ c with funcs := rest, lastFuncEntry := ev.ts, funcHasCorid := false },
          by rw [advance, hfuncs]; simp only [if_pos hentry], ?_⟩
        funext type'
        cases type' <;> rfl
      · refine ⟨{ c with funcs := rest }, by rw [advance, hfuncs]; simp only [if_neg hentry], ?_⟩
        funext type'
        cases type' <;> rfl
    | COMM =>
      have hcomms : c.comms = ev :: rest := hrem
      refine ⟨_, by rw [advance, hcomms], ?_⟩
      funext type'
      cases type' <;> rfl
    | COUNT =>
      have hcounters : c.counters = ev :: rest := hrem
      refine ⟨_, by rw [advance, hcounters], ?_⟩
      funext type'
      cases type' <;> rfl
  refine ⟨c', ?_, hrest⟩
  rw [Cursor.next, htype]
  change (c.earliest map type (c.counterIsCorrelationId cid) >>= _) = _
  rw [ht]
  simp only [bind, Except.bind, hadvance]
  rfl

/-- Putting out an event takes it off its array. -/
theorem advance_some {c c' : Cursor} {type : FuncEventType} {isCorid : Bool} {t : EventDataType}
    {ev : Event} (h : c.advance type isCorid t = some (ev, c')) :
    ∃ rest, c.remaining t = ev :: rest ∧ c'.remaining = Function.update c.remaining t rest := by
  cases t with
  | FUNC =>
    rw [advance] at h
    split at h
    · cases h
    · rename_i first rest hfuncs
      have hevent : first = ev ∧ c'.remaining = Function.update c.remaining FUNC rest := by
        split at h <;> cases h <;> refine ⟨rfl, ?_⟩ <;> funext type' <;> cases type' <;> rfl
      exact ⟨rest, hevent.1 ▸ hfuncs, hevent.2⟩
  | COMM =>
    rw [advance] at h
    split at h
    · cases h
    · rename_i first rest hcomms
      cases h
      refine ⟨rest, hcomms, ?_⟩
      funext type'
      cases type' <;> rfl
  | COUNT =>
    rw [advance] at h
    split at h
    · cases h
    · rename_i first rest hcounters
      cases h
      refine ⟨rest, hcounters, ?_⟩
      funext type'
      cases type' <;> rfl

/-- What it takes to put out an event: the type of the next function event is known, and the event
is the first of the type that wins. -/
theorem next_inv {c c' : Cursor} {map : List FuncEventType} {cid : ℤ} {ev : Event}
    (h : c.next map cid = .ok (ev, c')) :
    ∃ type t rest, c.funcEventType map = .ok type ∧ c.Wins type t ∧ c.remaining t = ev :: rest ∧
      c'.remaining = Function.update c.remaining t rest := by
  rw [Cursor.next] at h
  cases htype : c.funcEventType map with
  | error e =>
    rw [htype] at h
    cases h
  | ok type =>
    obtain ⟨t, ht, hwins⟩ := c.earliest_spec map type (c.counterIsCorrelationId cid)
    rw [htype] at h
    change (c.earliest map type (c.counterIsCorrelationId cid) >>= _) = _ at h
    rw [ht] at h
    simp only [bind, Except.bind] at h
    cases hadvance : c.advance type (c.counterIsCorrelationId cid) t with
    | none =>
      rw [hadvance] at h
      cases h
    | some result =>
      rw [hadvance] at h
      cases h
      obtain ⟨rest, hrem, hrest⟩ := advance_some hadvance
      exact ⟨type, t, rest, rfl, hwins, hrem, hrest⟩

/-- If events remain then one of them is put out. -/
theorem Ordered.next {c : Cursor} {map : List FuncEventType} (hc : c.Ordered map) (cid : ℤ)
    (hne : ¬(c.funcs = [] ∧ c.comms = [] ∧ c.counters = [])) :
    ∃ ev c', c.next map cid = .ok (ev, c') := by
  obtain ⟨type, htype⟩ := hc.funcEventType
  obtain ⟨t, ht, hwins⟩ := c.earliest_spec map type (c.counterIsCorrelationId cid)
  -- an array without further events does not win against one that has some
  have hsome : c.remaining t ≠ [] := by
    intro hnil
    have hend : ∀ type, c.remaining type = [] → nextTs (c.remaining type) = maxTs :=
      fun type h => by rw [h]; rfl
    have hlt : ∀ type, c.remaining type ≠ [] → nextTs (c.remaining type) < maxTs := by
      intro type h
      cases hrem : c.remaining type with
      | nil => exact absurd hrem h
      | cons ev rest => exact hc.ts_lt type ev (hrem ▸ List.mem_cons_self)
    have hall : ∀ type, c.remaining type = [] := by
      intro type'
      by_contra h
      exact absurd ((hend t hnil).ge.trans (hwins.nextTs_le type')) (not_le_of_gt (hlt type' h))
    exact hne ⟨hall FUNC, hall COMM, hall COUNT⟩
  obtain ⟨ev, rest, hrem⟩ := List.exists_cons_of_ne_nil hsome
  obtain ⟨c', hnext, -⟩ := next_of_earliest cid htype ht hrem
  exact ⟨ev, c', hnext⟩

/-- The winning event comes first among the events of its time, and is not among those of any
other time. -/
theorem ties_eq {c c' : Cursor} {map : List FuncEventType}
    (hsorted : ∀ type, (c.remaining type).Pairwise fun x y => x.ts ≤ y.ts)
    {type : FuncEventType} {t : EventDataType} {ev : Event} {rest : List Event}
    (hwins : c.Wins type t)
    (hentry : type = ENTRY ↔ ∃ ev rest, c.funcs = ev :: rest ∧ isEntry map ev = true)
    (hrem : c.remaining t = ev :: rest)
    (hrest : c'.remaining = Function.update c.remaining t rest) (time : ℕ) :
    ties map c.remaining time =
      if ev.ts = time then ev :: ties map c'.remaining time else ties map c'.remaining time := by
  have hnext : nextTs (c.remaining t) = ev.ts := by rw [hrem]; rfl
  have hcons : group Event.ts (c.remaining t) time =
      if ev.ts = time then ev :: group Event.ts rest time else group Event.ts rest time := by
    rw [hrem, group, List.filter_cons]
    simp only [decide_eq_true_eq]
    rfl
  by_cases htime : ev.ts = time
  swap
  · rw [if_neg htime] at hcons ⊢
    have hgroup : ∀ type', group Event.ts (c.remaining type') time =
        group Event.ts (c'.remaining type') time := by
      intro type'
      rw [hrest]
      by_cases h : type' = t
      · rw [h, Function.update_self, hcons]
      · rw [Function.update_of_ne h]
    rw [ties, ties, hgroup FUNC, hgroup COMM, hgroup COUNT]
  rw [if_pos htime] at hcons ⊢
  -- a next function event at this time that is no entry ends the run of entries
  have hrun : type ≠ ENTRY →
      (group Event.ts (c.remaining FUNC) time).takeWhile (isEntry map) = [] := by
    intro hne
    cases hfuncs : c.remaining FUNC with
    | nil => rfl
    | cons first others =>
      have hfirst : isEntry map first = false := by
        rw [← Bool.not_eq_true]
        exact fun h => hne (hentry.mpr ⟨first, others, hfuncs, h⟩)
      by_cases h : first.ts = time
      · rw [group, List.filter_cons, if_pos (decide_eq_true h), List.takeWhile_cons, hfirst]
        rfl
      · have hlt : time < nextTs (c.remaining FUNC) := by
          have hle := hwins.nextTs_le FUNC
          rw [hnext, htime] at hle
          refine lt_of_le_of_ne hle ?_
          rw [hfuncs]
          exact Ne.symm h
        rw [← hfuncs, group_eq_nil_of_sorted (hsorted FUNC) hlt]
        rfl
  have hsame : ∀ type', type' ≠ t → c'.remaining type' = c.remaining type' := fun type' h => by
    rw [hrest, Function.update_of_ne h]
  have hself : c'.remaining t = rest := by rw [hrest, Function.update_self]
  cases t with
  | FUNC =>
    rw [ties, ties, hsame COMM (by decide), hsame COUNT (by decide), hself, hcons]
    by_cases htype : type = ENTRY
    · obtain ⟨first, others, hfuncs, hfirst⟩ := hentry.mp htype
      obtain ⟨rfl, rfl⟩ := List.cons.inj (hfuncs.symm.trans hrem)
      rw [List.takeWhile_cons, List.dropWhile_cons, hfirst]
      rfl
    · have hgroups : group Event.ts (c.remaining COMM) time = [] ∧
          group Event.ts (c.remaining COUNT) time = [] := by
        rw [Wins, if_neg htype] at hwins
        have h : nextTs c.funcs = time := hnext.trans htime
        exact ⟨group_eq_nil_of_sorted (hsorted COMM) (h ▸ hwins.1),
          group_eq_nil_of_sorted (hsorted COUNT) (h ▸ hwins.2)⟩
      have hnil := hrun htype
      rw [hcons] at hnil
      have hdrop : (ev :: group Event.ts rest time).dropWhile (isEntry map) =
          ev :: group Event.ts rest time := by
        have := List.takeWhile_append_dropWhile (p := isEntry map)
          (l := ev :: group Event.ts rest time)
        rwa [hnil, List.nil_append] at this
      rw [hnil, hdrop, hgroups.1, hgroups.2]
      simp only [List.nil_append, List.append_nil]
      rw [List.takeWhile_append_dropWhile]
  | COMM =>
    have hnil : (group Event.ts (c.remaining FUNC) time).takeWhile (isEntry map) = [] := by
      by_cases htype : type = ENTRY
      · have hlt : time < nextTs (c.remaining FUNC) := by
          rw [Wins, if_pos htype] at hwins
          exact htime ▸ hnext ▸ hwins.2
        rw [group_eq_nil_of_sorted (hsorted FUNC) hlt]
        rfl
      · exact hrun htype
    rw [ties, ties, hsame FUNC (by decide), hsame COUNT (by decide), hself, hcons, hnil]
    rfl
  | COUNT =>
    have hnil : (group Event.ts (c.remaining FUNC) time).takeWhile (isEntry map) = [] := by
      by_cases htype : type = ENTRY
      · have hlt : time < nextTs (c.remaining FUNC) := by
          rw [Wins, if_pos htype] at hwins
          exact htime ▸ hnext ▸ hwins.2
        rw [group_eq_nil_of_sorted (hsorted FUNC) hlt]
        rfl
      · exact hrun htype
    have hcomms : group Event.ts (c.remaining COMM) time = [] := by
      rw [Wins] at hwins
      exact group_eq_nil_of_sorted (hsorted COMM) (htime ▸ hnext ▸ hwins.1)
    rw [ties, ties, hsame FUNC (by decide), hsame COMM (by decide), hself, hcons, hnil, hcomms]
    rfl

/-- Taking an event keeps the others in order. -/
theorem Ordered.advance {c c' : Cursor} {map : List FuncEventType} (hc : c.Ordered map)
    {t : EventDataType} {ev : Event} {rest : List Event} (hrem : c.remaining t = ev :: rest)
    (hrest : c'.remaining = Function.update c.remaining t rest) : c'.Ordered map := by
  have hsub : ∀ type, (c'.remaining type).Sublist (c.remaining type) := by
    intro type
    rw [hrest]
    by_cases h : type = t
    · rw [h, Function.update_self, hrem]
      exact List.sublist_cons_self ev rest
    · rw [Function.update_of_ne h]
  exact { sorted := fun type => (hc.sorted type).sublist (hsub type)
          type_eq := fun type ev hev => hc.type_eq type ev ((hsub type).subset hev)
          ts_lt := fun type ev hev => hc.ts_lt type ev ((hsub type).subset hev)
          eid_lt := fun ev hev => hc.eid_lt ev ((hsub FUNC).subset hev) }

/-- The number of remaining events. -/
def count (c : Cursor) : ℕ := c.funcs.length + c.comms.length + c.counters.length

/-- Taking an event leaves one less. -/
theorem count_advance {c c' : Cursor} {t : EventDataType} {ev : Event} {rest : List Event}
    (hrem : c.remaining t = ev :: rest)
    (hrest : c'.remaining = Function.update c.remaining t rest) : c.count = c'.count + 1 := by
  have h := fun type => congrArg List.length (congrFun hrest type)
  have hfuncs := h FUNC
  have hcomms := h COMM
  have hcounters := h COUNT
  cases t <;> simp only [remaining] at hrem <;>
    simp only [remaining, Function.update_apply, reduceCtorEq, if_true, if_false]
      at hfuncs hcomms hcounters <;>
    rw [count, count, hrem, List.length_cons] <;> omega

end Cursor

/-- Arrays before the end of time whose function events are of known types are interwoven. -/
theorem Cursor.Ordered.interweave {map : List FuncEventType} (cid : ℤ) (n : ℕ) {c : Cursor}
    (hc : c.Ordered map) : ∃ out, interweave map cid n c = .ok out := by
  induction n generalizing c with
  | zero => exact ⟨[], rfl⟩
  | succ n ih =>
    rw [ADParser.interweave]
    by_cases hempty : c.funcs = [] ∧ c.comms = [] ∧ c.counters = []
    · rw [if_pos hempty]
      exact ⟨[], rfl⟩
    · obtain ⟨ev, c', hnext⟩ := hc.next cid hempty
      obtain ⟨type, t, rest, -, -, hrem, hrest⟩ := Cursor.next_inv hnext
      obtain ⟨tail, htail⟩ := ih (hc.advance hrem hrest)
      refine ⟨ev :: tail, ?_⟩
      rw [if_neg hempty, hnext]
      change (ADParser.interweave map cid n c' >>= _) = _
      rw [htail]
      rfl

/-- Interwoven arrays in time order are in time order, keep the order of each type, and resolve ties
by the priorities. -/
theorem interweave_ok (map : List FuncEventType) (cid : ℤ) (n : ℕ) {c : Cursor} {out : List Event}
    (hsorted : ∀ type, (c.remaining type).Pairwise fun x y => x.ts ≤ y.ts)
    (htype : ∀ type, ∀ ev ∈ c.remaining type, ev.type = type) (hn : c.count ≤ n)
    (h : interweave map cid n c = .ok out) :
    (out.Pairwise fun x y => x.ts ≤ y.ts) ∧
      (∀ type, group Event.type out type = c.remaining type) ∧
      ∀ time, group Event.ts out time = ties map c.remaining time := by
  have hnothing : ∀ {c : Cursor}, (∀ type, c.remaining type = []) →
      (∀ type, group Event.type [] type = c.remaining type) ∧
      ∀ time, group Event.ts [] time = ties map c.remaining time := by
    intro c hempty
    refine ⟨fun type => (hempty type).symm, fun time => ?_⟩
    rw [ties, hempty, hempty, hempty]
    rfl
  induction n generalizing c out with
  | zero =>
    cases h
    refine ⟨List.Pairwise.nil, hnothing fun type => ?_⟩
    rw [Cursor.count] at hn
    cases type <;> rw [Cursor.remaining, ← List.length_eq_zero_iff] <;> omega
  | succ n ih =>
    rw [interweave] at h
    split at h
    · rename_i hempty
      cases h
      refine ⟨List.Pairwise.nil, hnothing fun type => ?_⟩
      cases type
      · exact hempty.1
      · exact hempty.2.1
      · exact hempty.2.2
    · obtain ⟨⟨ev, c'⟩, hnext, hrun⟩ := TransitionSystem.bind_eq_ok h
      obtain ⟨tail, htail, hout⟩ := TransitionSystem.bind_eq_ok hrun
      cases hout
      obtain ⟨type, t, rest, hfunc, hwins, hrem, hrest⟩ := Cursor.next_inv hnext
      have hcount := Cursor.count_advance hrem hrest
      have hsub : ∀ type, (c'.remaining type).Sublist (c.remaining type) := by
        intro type
        rw [hrest]
        by_cases heq : type = t
        · rw [heq, Function.update_self, hrem]
          exact List.sublist_cons_self ev rest
        · rw [Function.update_of_ne heq]
      obtain ⟨hordered, htypes, hties⟩ := ih (fun type => (hsorted type).sublist (hsub type))
        (fun type x hx => htype type x ((hsub type).subset hx)) (by omega) htail
      refine ⟨List.pairwise_cons.mpr ⟨fun x hx => ?_, hordered⟩, fun type => ?_, fun time => ?_⟩
      · have hmem : x ∈ c.remaining x.type := by
          apply (hsub x.type).subset
          rw [← htypes]
          exact (mem_group Event.type).mpr ⟨hx, rfl⟩
        have hfirst := (hwins.nextTs_le x.type).trans
          (Cursor.nextTs_le_of_sorted (hsorted x.type) hmem)
        rwa [hrem] at hfirst
      · have hev : ev.type = t := htype t ev (hrem ▸ List.mem_cons_self)
        have htail' : tail.filter (fun x => decide (x.type = type)) = c'.remaining type :=
          htypes type
        rw [group, List.filter_cons, htail', hrest, hev]
        by_cases heq : t = type
        · rw [if_pos (decide_eq_true heq), ← heq, Function.update_self, hrem]
        · rw [if_neg (by simpa using heq), Function.update_of_ne (Ne.symm heq)]
      · have htail' : tail.filter (fun x => decide (x.ts = time)) = ties map c'.remaining time :=
          hties time
        rw [Cursor.ties_eq hsorted hwins (Cursor.funcEventType_entry hfunc) hrem hrest time, group,
          List.filter_cons, htail']
        simp only [decide_eq_true_eq]

end ADParser

end Chimbuko
