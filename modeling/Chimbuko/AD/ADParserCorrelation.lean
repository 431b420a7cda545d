import Chimbuko.AD.ADParserStream
import Mathlib.Data.List.TakeWhile

/-!
# Correlation identifiers of functions that take no time

A counter with a correlation identifier belongs to the function that it is put out in. The rule of
the parser for a function that starts and ends at the time of such counters is that it claims at
most one of them if another function starts at that time afterwards, and all that remain if none
does.

An exit lets the counters of its time go first, so the rule is never applied: the counters follow
the entries that lead the function events of their time. When the rule is met nevertheless is stated
in terms of these entries.
-/

namespace Chimbuko

namespace ADParser

open EventDataType FuncEventType Grouping

/-- An event is the exit of a function. -/
def isExit (map : List FuncEventType) (ev : Event) : Bool := map[ev.eid]? = some EXIT

/-- Function events in which every function that starts also ends, and the other way round. -/
inductive Balanced (map : List FuncEventType) : List Event → Prop
  | nil : Balanced map []
  | other {ev : Event} {rest : List Event} (hentry : isEntry map ev = false)
      (hexit : isExit map ev = false) (hrest : Balanced map rest) : Balanced map (ev :: rest)
  | call {entry exit : Event} {body rest : List Event} (hentry : isEntry map entry = true)
      (hexit : isExit map exit = true) (hfid : entry.fid = exit.fid) (hbody : Balanced map body)
      (hrest : Balanced map rest) : Balanced map (entry :: (body ++ exit :: rest))

/-- A function among the function events that starts and ends at one time, and the events before and
after it. -/
structure ZeroLength (map : List FuncEventType) (funcs before : List Event) (entry exit : Event)
    (after : List Event) : Prop where
  split : ∃ body, Balanced map body ∧ funcs = before ++ entry :: (body ++ exit :: after)
  isEntry : isEntry map entry = true
  isExit : isExit map exit = true
  fid_eq : entry.fid = exit.fid
  ts_eq : entry.ts = exit.ts

/-- The counters of a time that are correlation identifiers. -/
def corids (cid : ℤ) (counters : List Event) (time : ℕ) : List Event :=
  (group Event.ts counters time).filter fun ev => toInt ev.counterId = cid

/-- A counter is put out between the entry and the exit of a function. -/
def Claims (out : List Event) (entry exit ev : Event) : Prop := [entry, ev, exit].Sublist out

instance (out : List Event) (entry exit ev : Event) : Decidable (Claims out entry exit ev) :=
  inferInstanceAs (Decidable (List.Sublist _ _))

/-- Another function starts at the time. -/
def EntryFollows (map : List FuncEventType) (after : List Event) (time : ℕ) : Prop :=
  ∃ ev ∈ after, ev.ts = time ∧ isEntry map ev = true

/-- The rule for functions that take no time: if another function starts at that time afterwards then
one claims at most one correlation identifier, and else all that no earlier one has claimed. -/
structure CoridRule (map : List FuncEventType) (cid : ℤ) (funcs counters out : List Event) :
    Prop where
  one : ∀ {before entry exit after}, ZeroLength map funcs before entry exit after →
    EntryFollows map after entry.ts → ∀ x ∈ corids cid counters entry.ts,
      ∀ y ∈ corids cid counters entry.ts,
        Claims out entry exit x → Claims out entry exit y → x = y
  rest : ∀ {before entry exit after}, ZeroLength map funcs before entry exit after →
    ¬EntryFollows map after entry.ts → ∀ x ∈ corids cid counters entry.ts,
      Claims out entry exit x ∨ ∃ before' entry' exit' after',
        ZeroLength map before before' entry' exit' after' ∧ entry'.ts = entry.ts ∧
          Claims out entry' exit' x

/-- The entries that the function events of a time start with. -/
def leadingEntries (map : List FuncEventType) (funcs : List Event) (time : ℕ) : List Event :=
  (group Event.ts funcs time).takeWhile (isEntry map)

/-- A function that takes no time and starts with the leading entries is not followed by another one
of its time unless there is at most one correlation identifier, and if there is one then the last
such function starts with the leading entries, or an earlier one does. -/
structure Unambiguous (map : List FuncEventType) (cid : ℤ) (funcs counters : List Event) :
    Prop where
  one : ∀ {before entry exit after}, ZeroLength map funcs before entry exit after →
    EntryFollows map after entry.ts → entry ∈ leadingEntries map funcs entry.ts →
      ∀ x ∈ corids cid counters entry.ts, ∀ y ∈ corids cid counters entry.ts, x = y
  rest : ∀ {before entry exit after}, ZeroLength map funcs before entry exit after →
    ¬EntryFollows map after entry.ts → corids cid counters entry.ts ≠ [] →
      entry ∈ leadingEntries map funcs entry.ts ∨ ∃ before' entry' exit' after',
        ZeroLength map before before' entry' exit' after' ∧ entry'.ts = entry.ts ∧
          entry' ∈ leadingEntries map funcs entry.ts

variable {map : List FuncEventType} {cid : ℤ} {funcs before after : List Event} {entry exit : Event}

/-- The entry is one of the events. -/
theorem ZeroLength.entry_mem (h : ZeroLength map funcs before entry exit after) :
    entry ∈ funcs := by
  obtain ⟨body, -, rfl⟩ := h.split
  simp

/-- The exit is one of the events. -/
theorem ZeroLength.exit_mem (h : ZeroLength map funcs before entry exit after) :
    exit ∈ funcs := by
  obtain ⟨body, -, rfl⟩ := h.split
  simp

/-- A function among the first events is one among all of them. -/
theorem ZeroLength.of_before {before' after' : List Event} {entry' exit' : Event}
    (hinner : ZeroLength map before before' entry' exit' after')
    (h : ZeroLength map funcs before entry exit after) :
    ∃ after'', ZeroLength map funcs before' entry' exit' after'' := by
  obtain ⟨body, -, hfuncs⟩ := h.split
  obtain ⟨body', hbody', hbefore⟩ := hinner.split
  refine ⟨after' ++ entry :: (body ++ exit :: after), ⟨body', hbody', ?_⟩, hinner.isEntry,
    hinner.isExit, hinner.fid_eq, hinner.ts_eq⟩
  rw [hfuncs, hbefore]
  simp only [List.append_assoc, List.cons_append]

/-- Of the events of one time, those in order are also in order among all events. -/
theorem claims_group_iff {out : List Event} {x : Event} {time : ℕ} (hentry : entry.ts = time)
    (hx : x.ts = time) (hexit : exit.ts = time) :
    Claims (group Event.ts out time) entry exit x ↔ Claims out entry exit x := by
  constructor
  · intro h
    exact h.trans List.filter_sublist
  · intro h
    have hfilter := h.filter fun ev => decide (ev.ts = time)
    have hself : [entry, x, exit].filter (fun ev => decide (ev.ts = time)) = [entry, x, exit] := by
      rw [List.filter_eq_self]
      simp [hentry, hx, hexit]
    rwa [hself] at hfilter

/-- Among the events of one time, a function claims the counters exactly if its entry is a leading
one. -/
theorem claims_ties_iff {events : EventDataType → List Event}
    (htype : ∀ type, ∀ ev ∈ events type, ev.type = type) {x : Event} {time : ℕ}
    (hentry : entry ∈ events FUNC) (hexit : exit ∈ events FUNC) (hx : x ∈ events COUNT)
    (hisExit : isExit map exit = true) (hexitTs : exit.ts = time) (hxTs : x.ts = time) :
    Claims (ties map events time) entry exit x ↔
      entry ∈ leadingEntries map (events FUNC) time := by
  have hxType : x.type = COUNT := htype COUNT x hx
  have hentryType : entry.type = FUNC := htype FUNC entry hentry
  have hgroup : ∀ {type ev}, ev ∈ group Event.ts (events type) time → ev.type = type :=
    fun hev => htype _ _ ((mem_group Event.ts).mp hev).1
  unfold Claims ties
  constructor
  · intro h
    obtain ⟨first, last, hsplit, hfirst, hlast⟩ := List.sublist_append_iff.mp h
    cases first with
    | nil =>
      -- a counter is not among the function events
      rw [List.nil_append] at hsplit
      have hmem : x ∈ last := by
        rw [← hsplit]
        simp
      have hfunc := hgroup ((List.dropWhile_sublist _).subset (hlast.subset hmem))
      rw [hxType] at hfunc
      cases hfunc
    | cons ev rest =>
      obtain ⟨rfl, -⟩ := List.cons.inj hsplit
      have hmem := hfirst.subset List.mem_cons_self
      rcases List.mem_append.mp hmem with hmem | hcount
      · rcases List.mem_append.mp hmem with hlead | hcomm
        · exact hlead
        · have hcommType := hgroup hcomm
          rw [hentryType] at hcommType
          cases hcommType
      · have hcountType := hgroup hcount
        rw [hentryType] at hcountType
        cases hcountType
  · intro hlead
    have hexitMem : exit ∈ (group Event.ts (events FUNC) time).dropWhile (isEntry map) := by
      have hall : exit ∈ group Event.ts (events FUNC) time :=
        (mem_group Event.ts).mpr ⟨hexit, hexitTs⟩
      rw [← List.takeWhile_append_dropWhile (p := isEntry map)
        (l := group Event.ts (events FUNC) time)] at hall
      rcases List.mem_append.mp hall with htake | hdrop
      · have hisEntry := List.mem_takeWhile_imp htake
        unfold isEntry at hisEntry
        unfold isExit at hisExit
        rw [of_decide_eq_true hisExit] at hisEntry
        cases of_decide_eq_true hisEntry
      · exact hdrop
    have hcounters : [x].Sublist (group Event.ts (events COUNT) time) :=
      List.singleton_sublist.mpr ((mem_group Event.ts).mpr ⟨hx, hxTs⟩)
    have hfirst : [entry].Sublist (leadingEntries map (events FUNC) time ++
        group Event.ts (events COMM) time) :=
      List.singleton_sublist.mpr (List.mem_append_left _ hlead)
    exact (hfirst.append hcounters).append (List.singleton_sublist.mpr hexitMem)

/-- In a stream, a function claims the correlation identifiers of its time exactly if its entry is a
leading one. -/
theorem claims_iff {self : ADParser} {out : List Event} (hout : self.getEvents = .ok out) {tid : ℕ}
    (h : ZeroLength self.funcEventTypeMap (self.validOn tid FUNC) before entry exit after)
    {x : Event} (hx : x ∈ corids cid (self.validOn tid COUNT) entry.ts) :
    Claims (group Event.tid out tid) entry exit x ↔
      entry ∈ leadingEntries self.funcEventTypeMap (self.validOn tid FUNC) entry.ts := by
  obtain ⟨hxMem, hxTs⟩ := (mem_group Event.ts).mp (List.mem_of_mem_filter hx)
  have htype : ∀ type, ∀ ev ∈ self.validOn tid type, ev.type = type := fun type ev hev =>
    type_of_mem_validEvents ((mem_group Event.tid).mp hev).1
  rw [← claims_group_iff rfl hxTs h.ts_eq.symm, ((getEvents_spec hout).2.2 tid).2]
  exact claims_ties_iff htype h.entry_mem h.exit_mem hxMem h.isExit h.ts_eq.symm hxTs

/-- A stream meets the rule on every thread exactly if the data are such that the counters after the
leading entries meet it. -/
theorem coridRule_iff {self : ADParser} {out : List Event} (hout : self.getEvents = .ok out) :
    (∀ tid, CoridRule self.funcEventTypeMap self.correlationIDcounterIdx (self.validOn tid FUNC)
      (self.validOn tid COUNT) (group Event.tid out tid)) ↔
    ∀ tid, Unambiguous self.funcEventTypeMap self.correlationIDcounterIdx (self.validOn tid FUNC)
      (self.validOn tid COUNT) := by
  constructor
  · intro hrule tid
    constructor
    · intro before entry exit after h hfollows hlead x hx y hy
      exact (hrule tid).one h hfollows x hx y hy ((claims_iff hout h hx).mpr hlead)
        ((claims_iff hout h hy).mpr hlead)
    · intro before entry exit after h hlast hne
      obtain ⟨x, hx⟩ := List.exists_mem_of_ne_nil _ hne
      rcases (hrule tid).rest h hlast x hx with
        hclaims | ⟨before', entry', exit', after', h', hts, hclaims⟩
      · exact Or.inl ((claims_iff hout h hx).mp hclaims)
      · obtain ⟨after'', h''⟩ := h'.of_before h
        rw [← hts] at hx
        exact Or.inr ⟨before', entry', exit', after', h', hts,
          hts ▸ (claims_iff hout h'' hx).mp hclaims⟩
  · intro hdata tid
    constructor
    · intro before entry exit after h hfollows x hx y hy hclaims _
      exact (hdata tid).one h hfollows ((claims_iff hout h hx).mp hclaims) x hx y hy
    · intro before entry exit after h hlast x hx
      rcases (hdata tid).rest h hlast (List.ne_nil_of_mem hx) with
        hlead | ⟨before', entry', exit', after', h', hts, hlead⟩
      · exact Or.inl ((claims_iff hout h hx).mpr hlead)
      · obtain ⟨after'', h''⟩ := h'.of_before h
        rw [← hts] at hx hlead
        exact Or.inr ⟨before', entry', exit', after', h', hts, (claims_iff hout h'' hx).mpr hlead⟩

/-- The metadata of the examples, and no data. -/
private def noData : ADParser where
  rank := 0
  programIdx := 0
  currentStep := 0
  eventType := (AList.singleton 1 "EXIT").insert 0 "ENTRY"
  correlationIDcounterIdx := 99
  eventTimestamps := []
  timerEventCount := 0
  commTimestamps := []
  commCount := 0
  counterTimestamps := []
  counterCount := 0

/-- A function that starts and ends at the time of a correlation identifier, and a later one. -/
private def oneFunction : ADParser :=
  { noData with
    eventTimestamps :=
      [0, 0, 0, 0, 12, 100, 0, 0, 0, 1, 12, 100, 0, 0, 0, 0, 13, 101, 0, 0, 0, 1, 13, 102]
    timerEventCount := 4
    counterTimestamps := [0, 0, 0, 99, 1256, 100]
    counterCount := 1 }

/-- The function claims the identifier. -/
theorem coridRule_iff_oneFunction :
    ∃ out, oneFunction.getEvents = .ok out ∧
      ∀ tid, CoridRule oneFunction.funcEventTypeMap 99 (oneFunction.validOn tid FUNC)
        (oneFunction.validOn tid COUNT) (group Event.tid out tid) := by
  refine ⟨[oneFunction.event FUNC 0, oneFunction.event COUNT 0, oneFunction.event FUNC 1,
    oneFunction.event FUNC 2, oneFunction.event FUNC 3], by decide +kernel,
    (coridRule_iff (by decide +kernel)).mpr fun tid => ?_⟩
  have hcounters : ∀ time, ∀ x ∈ corids 99 (oneFunction.validOn tid COUNT) time,
      x = oneFunction.event COUNT 0 := by
    intro time x hx
    have hvalid : ∀ x ∈ oneFunction.validEvents COUNT, x = oneFunction.event COUNT 0 := by
      decide +kernel
    exact hvalid x ((mem_group Event.tid).mp ((mem_group Event.ts).mp
      (List.mem_of_mem_filter hx)).1).1
  constructor
  · intro before entry exit after _ _ _ x hx y hy
    exact (hcounters _ x hx).trans (hcounters _ y hy).symm
  · intro before entry exit after h _ hne
    obtain ⟨x, hx⟩ := List.exists_mem_of_ne_nil _ hne
    have hts : entry.ts = 100 := by
      rw [← ((mem_group Event.ts).mp (List.mem_of_mem_filter hx)).2, hcounters _ x hx]
      decide +kernel
    obtain ⟨hvalid, rfl⟩ := (mem_group Event.tid).mp h.entry_mem
    have hfirst : ∀ ev ∈ oneFunction.validEvents FUNC,
        isEntry oneFunction.funcEventTypeMap ev = true → ev.ts = 100 →
          ev = oneFunction.event FUNC 0 := by
      decide +kernel
    rw [hfirst entry hvalid h.isEntry hts]
    exact Or.inl (by decide +kernel)

/-- Three functions that start and end at the time of three correlation identifiers. -/
private def threeFunctions : ADParser :=
  { noData with
    eventTimestamps :=
      [0, 0, 0, 0, 12, 100, 0, 0, 0, 1, 12, 100, 0, 0, 0, 0, 13, 100, 0, 0, 0, 1, 13, 100,
        0, 0, 0, 0, 12, 100, 0, 0, 0, 1, 12, 100]
    timerEventCount := 6
    counterTimestamps := [0, 0, 0, 99, 1256, 100, 0, 0, 0, 99, 1257, 100, 0, 0, 0, 99, 1258, 100]
    counterCount := 3 }

/-- The first function claims all three identifiers. -/
theorem not_coridRule_threeFunctions :
    ∃ out, threeFunctions.getEvents = .ok out ∧
      ¬CoridRule threeFunctions.funcEventTypeMap 99 (threeFunctions.validOn 0 FUNC)
        (threeFunctions.validOn 0 COUNT) (group Event.tid out 0) := by
  refine ⟨[0].map (threeFunctions.event FUNC) ++ [0, 1, 2].map (threeFunctions.event COUNT) ++
    [1, 2, 3, 4, 5].map (threeFunctions.event FUNC), by decide +kernel, fun hrule => ?_⟩
  have hfirst : ZeroLength threeFunctions.funcEventTypeMap (threeFunctions.validOn 0 FUNC) []
      (threeFunctions.event FUNC 0) (threeFunctions.event FUNC 1)
      ([2, 3, 4, 5].map (threeFunctions.event FUNC)) :=
    ⟨⟨[], Balanced.nil, by decide +kernel⟩, by decide +kernel, by decide +kernel, by decide +kernel,
      by decide +kernel⟩
  have heq := hrule.one hfirst ⟨threeFunctions.event FUNC 2, by decide +kernel⟩
    (threeFunctions.event COUNT 0) (by decide +kernel) (threeFunctions.event COUNT 1)
    (by decide +kernel) (by decide +kernel) (by decide +kernel)
  exact absurd heq (by decide +kernel)

end ADParser

end Chimbuko
