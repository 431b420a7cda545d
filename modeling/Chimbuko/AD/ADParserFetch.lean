import Chimbuko.AD.ADParser
import Chimbuko.AD.ADglobalFunctionIndexMap
import Chimbuko.Library.Filing
import Chimbuko.Library.RowArray

/-!
# Fetching the trace data

`fetchFuncData` reads the function events of a step into the parser's buffer and repairs them: the
program index and, where it is overridden, the rank are replaced, the local function indices are
replaced by global ones, and the rows are sorted by their timestamps if those of a thread are out of
order. A row whose function index is not known is made invalid by its program index.

What the read delivers is arbitrary. The buffer is a flat array that only grows, and the loops go
through it with pointers that they advance themselves.
-/

namespace Chimbuko

open Filing RowArray

/-- The outcome of fetching data. -/
inductive ParserError
  | OK
  | NoFuncData
  | NoCommData
  | NoCountData
deriving DecidableEq

/-- Look up a global index, without asking the server. -/
def ADglobalFunctionIndexMap.lookupConst (self : ADglobalFunctionIndexMap) (localIdx : ℕ) :
    Except String ℕ :=
  if !self.connectedToPS then .ok localIdx
  else
    match self.idxmap localIdx with
    | some globalIdx => .ok globalIdx
    | none =>
      .error ("ADglobalFunctionIndexMap::lookup (const version): local index " ++
        toString localIdx ++ " not in map")

/-- The parser with what it needs to repair the data that it reads. -/
structure ADParserReader extends ADParser where
  /-- Whether the rank in the data is overwritten with that of the parser. -/
  dataRankOverride : Bool
  globalFuncIdxMap : ADglobalFunctionIndexMap

namespace EventDataType

/-- How messages name the events of a type. -/
def descrPlural : EventDataType → String
  | FUNC => "Funcs"
  | COMM => "Comms"
  | COUNT => "Counters"

end EventDataType

namespace ADParser

open EventDataType

/-- The last timestamp of each thread, and whether the events so far are in order. -/
abbrev OrderCheck := (ℕ → Option ℕ) × Bool

/-- Check an event against the last one of its thread. -/
def checkEvent (self : ADParser) (type : EventDataType) (exitOnFail : Bool) (s : OrderCheck)
    (i : ℕ) : Except String OrderCheck :=
  let ev := self.event type i
  if self.validateEvent ev then
    match s.1 ev.tid with
    | none => pure (Function.update s.1 ev.tid (some ev.ts), s.2)
    | some last =>
      if ev.ts < last then
        if exitOnFail then
          throw (type.descrPlural ++ " on thr " ++ toString ev.tid ++
            " are out of order! Timestamp " ++ toString ev.ts ++ " < " ++ toString last)
        else pure (Function.update s.1 ev.tid (some ev.ts), false)
      else pure (Function.update s.1 ev.tid (some ev.ts), s.2)
  else pure s

/-- Whether the valid events of each thread are in time order. -/
def checkEventOrder (self : ADParser) (type : EventDataType) (exitOnFail : Bool) :
    Except String Bool := do
  let s ← (List.range (self.numEvents type)).foldlM (self.checkEvent type exitOnFail)
    (fun _ => none, true)
  pure s.2

/-- The first `n` events of a type, where they are valid and of one thread, are in time order. -/
def InOrder (self : ADParser) (type : EventDataType) (n : ℕ) : Prop :=
  ∀ k l, k < l → l < n → self.validateEvent (self.event type k) = true →
    self.validateEvent (self.event type l) = true →
    (self.event type k).tid = (self.event type l).tid →
    (self.event type k).ts ≤ (self.event type l).ts

/-- Every valid event so far is no later than the last one of its thread. -/
def Reached (self : ADParser) (type : EventDataType) (n : ℕ) (lastTs : ℕ → Option ℕ) : Prop :=
  ∀ k, k < n → self.validateEvent (self.event type k) = true →
    ∃ last, lastTs (self.event type k).tid = some last ∧ (self.event type k).ts ≤ last

variable {self : ADParser} {type : EventDataType} {n : ℕ} {lastTs : ℕ → Option ℕ}

/-- An invalid event is not checked. -/
theorem Reached.skip (h : self.Reached type n lastTs)
    (hinvalid : self.validateEvent (self.event type n) ≠ true) :
    self.Reached type (n + 1) lastTs := by
  intro k hk hvalid
  rcases Nat.lt_succ_iff_lt_or_eq.mp hk with hlt | rfl
  · exact h k hlt hvalid
  · exact absurd hvalid hinvalid

/-- A valid event that is no earlier than the last one of its thread becomes the last one. -/
theorem Reached.push (h : self.Reached type n lastTs)
    (hlast : ∀ last, lastTs (self.event type n).tid = some last → last ≤ (self.event type n).ts) :
    self.Reached type (n + 1)
      (Function.update lastTs (self.event type n).tid (some (self.event type n).ts)) := by
  intro k hk hvalid
  rcases Nat.lt_succ_iff_lt_or_eq.mp hk with hlt | rfl
  · obtain ⟨last, htid, hts⟩ := h k hlt hvalid
    by_cases hthread : (self.event type k).tid = (self.event type n).tid
    · rw [hthread, Function.update_self]
      rw [hthread] at htid
      exact ⟨_, rfl, hts.trans (hlast last htid)⟩
    · rw [Function.update_of_ne hthread]
      exact ⟨last, htid, hts⟩
  · rw [Function.update_self]
    exact ⟨_, rfl, le_rfl⟩

/-- An event that is not valid is passed over. -/
theorem InOrder.skip (h : self.InOrder type n)
    (hinvalid : self.validateEvent (self.event type n) ≠ true) : self.InOrder type (n + 1) := by
  intro k l hkl hl hk hvalid
  rcases Nat.lt_succ_iff_lt_or_eq.mp hl with hlt | rfl
  · exact h k l hkl hlt hk hvalid
  · exact absurd hvalid hinvalid

/-- A valid event that is not earlier than the last one of its thread is in order. -/
theorem InOrder.push (h : self.InOrder type n) (hreached : self.Reached type n lastTs)
    (hlast : ∀ last, lastTs (self.event type n).tid = some last → last ≤ (self.event type n).ts) :
    self.InOrder type (n + 1) := by
  intro k l hkl hl hk hvalid htid
  rcases Nat.lt_succ_iff_lt_or_eq.mp hl with hlt | rfl
  · exact h k l hkl hlt hk hvalid htid
  · obtain ⟨last, hsome, hts⟩ := hreached k hkl hk
    rw [htid] at hsome
    exact hts.trans (hlast last hsome)

/-- Checking one event more. -/
theorem checkEvent_ok (self : ADParser) (type : EventDataType) (s : OrderCheck) (n : ℕ) :
    ∃ s', self.checkEvent type false s n = .ok s' ∧
      ((s.2 = true → self.InOrder type n ∧ self.Reached type n s.1) →
        s'.2 = true → self.InOrder type (n + 1) ∧ self.Reached type (n + 1) s'.1) := by
  unfold checkEvent
  by_cases hvalid : self.validateEvent (self.event type n) = true
  · simp only [hvalid, if_true]
    cases hlast : s.1 (self.event type n).tid with
    | none =>
      have hnone : ∀ last, s.1 (self.event type n).tid = some last →
          last ≤ (self.event type n).ts := by
        intro last hsome
        rw [hlast] at hsome
        cases hsome
      exact ⟨_, rfl, fun h hs => ⟨(h hs).1.push (h hs).2 hnone, (h hs).2.push hnone⟩⟩
    | some last =>
      by_cases hts : (self.event type n).ts < last
      · simp only [hts, if_true]
        exact ⟨_, rfl, fun _ hs => by cases hs⟩
      · have hle : ∀ last, s.1 (self.event type n).tid = some last →
            last ≤ (self.event type n).ts := by
          intro last' hsome
          rw [hlast] at hsome
          cases hsome
          exact not_lt.mp hts
        simp only [hts, if_false]
        exact ⟨_, rfl, fun h hs => ⟨(h hs).1.push (h hs).2 hle, (h hs).2.push hle⟩⟩
  · simp only [hvalid]
    exact ⟨s, rfl, fun h hs => ⟨(h hs).1.skip hvalid, (h hs).2.skip hvalid⟩⟩

/-- The order check does not fail, and if it finds the events in order then they are. -/
theorem checkEventOrder_ok (self : ADParser) (type : EventDataType) :
    ∃ inOrder, self.checkEventOrder type false = .ok inOrder ∧
      (inOrder = true → self.InOrder type (self.numEvents type)) := by
  have hloop : ∀ n, ∃ s, (List.range n).foldlM (self.checkEvent type false)
      (fun _ => none, true) = .ok s ∧
        (s.2 = true → self.InOrder type n ∧ self.Reached type n s.1) := by
    intro n
    induction n with
    | zero =>
      exact ⟨_, rfl, fun _ => ⟨fun k l _ hl => absurd hl l.not_lt_zero,
        fun k hk => absurd hk k.not_lt_zero⟩⟩
    | succ n ih =>
      obtain ⟨s, hs, hinv⟩ := ih
      obtain ⟨s', hs', hnext⟩ := self.checkEvent_ok type s n
      refine ⟨s', ?_, hnext hinv⟩
      rw [List.range_succ, List.foldlM_append, hs]
      exact (bind_pure _).trans hs'
  obtain ⟨s, hs, hinv⟩ := hloop (self.numEvents type)
  unfold checkEventOrder
  rw [hs]
  exact ⟨s.2, rfl, fun h => (hinv h).1⟩

end ADParser

namespace ADParserReader

open EventDataType

/-- The buffer after a read of `count` rows, which may be longer than they are. -/
def readInto (type : EventDataType) (count : ℕ) (words : ℕ → ℕ) (buffer : List ℕ) : List ℕ :=
  (List.range (count * type.dim)).map words ++ buffer.drop (count * type.dim)

/-- Replace the program index and, where it is overridden, the rank. -/
def replaceIndices (self : ADParserReader) (type : EventDataType) (count : ℕ) (data : List ℕ) :
    List ℕ :=
  let data := setColumn type.dim 0 self.programIdx count data
  if self.dataRankOverride then setColumn type.dim 1 (toUnsignedLong self.rank) count data
  else data

/-- The program index of a row that is made invalid. -/
def invalidProgramIdx (self : ADParserReader) : ℕ :=
  (self.programIdx + 99999999) % 2 ^ 64

/-- A row of function data as an event. -/
def funcEvent (data : List ℕ) (i : ℕ) : Event :=
  { data := row FUNC.dim data i, type := FUNC, idx := i, id := .root }

/-- Replace the local function index that the pointer points at. A row whose index is not known is
made invalid, unless it is so already. -/
def substituteFid (self : ADParserReader) (s : List ℕ × ℕ) (i : ℕ) :
    Except String (List ℕ × ℕ) :=
  match self.globalFuncIdxMap.lookupConst (s.1.getD s.2 0) with
  | .ok newIdx => pure (s.1.set s.2 newIdx, s.2 + FUNC.dim)
  | .error _ =>
    if !self.validateEvent (funcEvent s.1 i) then pure (s.1, s.2 + FUNC.dim)
    else
      let data := s.1.set (i * FUNC.dim + 0) self.invalidProgramIdx
      if self.validateEvent (funcEvent data i) then throw "invalidation check failed!??"
      else pure (data, s.2 + FUNC.dim)

/-- Replace the local function indices, if there is a server. -/
def substituteFids (self : ADParserReader) (count : ℕ) (data : List ℕ) :
    Except String (List ℕ) :=
  if self.globalFuncIdxMap.connectedToPS then do
    let s ← (List.range count).foldlM self.substituteFid (data, 4)
    pure s.1
  else pure data

/-- The rows by their timestamps, those with equal ones in the order of the array. -/
def sortedIdx (count : ℕ) (data : List ℕ) : Buckets ℕ ℕ :=
  ((List.range count).foldl (fun s i =>
    (s.1.putLast (data.getD (s.2 + FUNC.idxTs) 0) i, s.2 + FUNC.dim)) (∅, 0)).1

/-- The rows copied one after another in the order of their timestamps. -/
def sortRows (count : ℕ) (data : List ℕ) : List ℕ :=
  ((sortedIdx count data).toList.flatMap Prod.snd).flatMap (row FUNC.dim data)

/-- Keep the rows of a step. -/
def storeRows (self : ADParserReader) (count : ℕ) (data : List ℕ) : ADParserReader :=
  { self with timerEventCount := count, eventTimestamps := data }

/-- Sort the stored rows, unless those of each thread are in order. -/
def fixOrder (self : ADParserReader) : Except String ADParserReader := do
  let inOrder ← self.checkEventOrder FUNC false
  if inOrder then pure self
  else pure { self with eventTimestamps := sortRows self.timerEventCount self.eventTimestamps }

/-- Fetch the function data, if there are any. -/
def fetchFuncData (self : ADParserReader) (read : Option (ℕ × (ℕ → ℕ))) :
    Except String (ADParserReader × ParserError) :=
  match read with
  | none => pure ({ self with timerEventCount := 0 }, .NoFuncData)
  | some (count, words) => do
    let data ← self.substituteFids count
      (self.replaceIndices FUNC count (readInto FUNC count words self.eventTimestamps))
    let self ← (self.storeRows count data).fixOrder
    pure (self, .OK)

/-- Fetch the communication data, if there are any. Data that are out of order are reported. -/
def fetchCommData (self : ADParserReader) (read : Option (ℕ × (ℕ → ℕ))) :
    Except String (ADParserReader × ParserError) :=
  match read with
  | none => pure ({ self with commCount := 0 }, .NoCommData)
  | some (count, words) => do
    let data := self.replaceIndices COMM count (readInto COMM count words self.commTimestamps)
    let self := { self with commCount := count, commTimestamps := data }
    let _ ← self.checkEventOrder COMM false
    pure (self, .OK)

/-- Fetch the counter data, if there are any. Data that are out of order are reported. -/
def fetchCounterData (self : ADParserReader) (read : Option (ℕ × (ℕ → ℕ))) :
    Except String (ADParserReader × ParserError) :=
  match read with
  | none => pure ({ self with counterCount := 0 }, .NoCountData)
  | some (count, words) => do
    let data := self.replaceIndices COUNT count (readInto COUNT count words self.counterTimestamps)
    let self := { self with counterCount := count, counterTimestamps := data }
    let _ ← self.checkEventOrder COUNT false
    pure (self, .OK)

/-- Fetch the data of a step, whatever is missing of them. -/
def fetchData (self : ADParserReader) (funcs comms counters : Option (ℕ × (ℕ → ℕ))) :
    Except String ADParserReader := do
  let (self, _) ← self.fetchFuncData funcs
  let (self, _) ← self.fetchCommData comms
  let (self, _) ← self.fetchCounterData counters
  pure self

variable {self : ADParserReader}

/-- Whether an event is valid depends on its row. -/
theorem validateEvent_congr {ev ev' : Event} (h : ev.data = ev'.data) :
    self.validateEvent ev = self.validateEvent ev' := by
  unfold ADParser.validateEvent Event.pid Event.rid Event.tid
  rw [h]

/-- A row with its program index and, where it is overridden, its rank replaced. -/
def relabelRow (self : ADParserReader) (r : List ℕ) : List ℕ :=
  let r := r.set 0 self.programIdx
  if self.dataRankOverride then r.set 1 (toUnsignedLong self.rank) else r

/-- A row of function data with its function index replaced, or invalid. -/
def substituteRow (self : ADParserReader) (r : List ℕ) : List ℕ :=
  match self.globalFuncIdxMap.lookupConst (r.getD 4 0) with
  | .ok newIdx => r.set 4 newIdx
  | .error _ =>
    if self.validateEvent { data := r, type := FUNC, idx := 0, id := .root } then
      r.set 0 self.invalidProgramIdx
    else r

/-- Every row is relabelled by itself. -/
theorem row_replaceIndices (self : ADParserReader) (type : EventDataType) {count : ℕ}
    {data : List ℕ} (hdata : count * type.dim ≤ data.length) :
    (self.replaceIndices type count data).length = data.length ∧
      ∀ k, k < count → row type.dim (self.replaceIndices type count data) k =
        self.relabelRow (row type.dim data k) := by
  have hdim : 1 < type.dim := by cases type <;> decide
  obtain ⟨hlength, hrows⟩ :=
    row_setColumn (Nat.zero_lt_of_lt hdim) self.programIdx hdata
  obtain ⟨hlength', hrows'⟩ :=
    row_setColumn hdim (toUnsignedLong self.rank) (hdata.trans hlength.ge)
  unfold replaceIndices relabelRow
  split
  · refine ⟨hlength'.trans hlength, fun k hk => ?_⟩
    rw [hrows' k, if_pos hk, hrows k, if_pos hk]
  · refine ⟨hlength, fun k hk => ?_⟩
    rw [hrows k, if_pos hk]

/-- The program index that makes a row invalid does so. -/
theorem validateEvent_invalid {r : List ℕ} (hr : r ≠ []) (ev : Event)
    (hev : ev.data = r.set 0 self.invalidProgramIdx) : self.validateEvent ev = false := by
  have hpid : ev.pid = self.invalidProgramIdx := by
    unfold Event.pid
    rw [hev]
    cases r with
    | nil => exact absurd rfl hr
    | cons first rest => rw [List.set_cons_zero, List.getD_cons_zero]
  have hne : self.invalidProgramIdx ≠ self.programIdx := by
    unfold invalidProgramIdx
    omega
  unfold ADParser.validateEvent
  rw [hpid]
  simp [hne]

/-- A step of the loop substitutes the function index of its row. -/
theorem stepAt_substituteFid (self : ADParserReader) (i : ℕ) :
    StepAt FUNC.dim 4 self.substituteRow self.substituteFid i := by
  intro data hdata
  have hword : data.getD (i * FUNC.dim + 4) 0 = (row FUNC.dim data i).getD 4 0 := by
    rw [List.getD_eq_getElem?_getD, List.getD_eq_getElem?_getD, getElem?_eq_row i (by decide)]
  have hnext : i * FUNC.dim + 4 + FUNC.dim = (i + 1) * FUNC.dim + 4 := by
    rw [Nat.succ_mul]
    omega
  have hrow : row FUNC.dim data i ≠ [] := by
    apply List.ne_nil_of_length_pos
    rw [length_row hdata]
    decide
  unfold substituteFid substituteRow
  simp only [hword, hnext]
  cases hlookup : self.globalFuncIdxMap.lookupConst ((row FUNC.dim data i).getD 4 0) with
  | ok newIdx =>
    exact ⟨_, rfl, List.length_set, fun k => row_set i k (by decide) newIdx⟩
  | error e =>
    simp only
    have hvalid : self.validateEvent (funcEvent data i) = self.validateEvent
        { data := row FUNC.dim data i, type := FUNC, idx := 0, id := .root } :=
      validateEvent_congr rfl
    rw [← hvalid]
    cases self.validateEvent (funcEvent data i) with
    | false =>
      refine ⟨data, rfl, rfl, fun k => ?_⟩
      split
      · rename_i hk
        rw [hk]
        rfl
      · rfl
    | true =>
      have hset : ∀ k, row FUNC.dim (data.set (i * FUNC.dim + 0) self.invalidProgramIdx) k =
          if k = i then (row FUNC.dim data i).set 0 self.invalidProgramIdx
          else row FUNC.dim data k :=
        fun k => row_set i k (by decide) self.invalidProgramIdx
      have hinvalid : self.validateEvent
          (funcEvent (data.set (i * FUNC.dim + 0) self.invalidProgramIdx) i) = false := by
        apply validateEvent_invalid hrow
        exact (hset i).trans (if_pos rfl)
      simp only [Bool.not_true, hinvalid]
      exact ⟨_, rfl, List.length_set, hset⟩

/-- A row that the read delivers. -/
def rawEvent (type : EventDataType) (words : ℕ → ℕ) (i : ℕ) : Event where
  data := (List.range type.dim).map fun j => words (i * type.dim + j)
  type := type
  idx := i
  id := .root

/-- An event has as many words as its type has columns. -/
@[simp] theorem length_rawEvent (type : EventDataType) (words : ℕ → ℕ) (i : ℕ) :
    (rawEvent type words i).data.length = type.dim := by
  unfold rawEvent
  rw [List.length_map, List.length_range]

/-- An event with its program index and, where it is overridden, its rank replaced. -/
def relabel (self : ADParserReader) (ev : Event) : Event :=
  { ev with data := self.relabelRow ev.data }

/-- What the fix-up may do to a row. Its program index, a rank that is overridden and its function
index are replaced, and nothing else. A function index that is known is replaced by the global one
and leaves the row as valid as the relabelled one; otherwise the row is invalid. -/
structure Repaired (reader : ADParserReader) (raw new : Event) : Prop where
  others : ∀ j, j ≠ 0 → (reader.dataRankOverride = true → j ≠ 1) → j ≠ 4 →
    new.data[j]? = raw.data[j]?
  fid : ∀ g, reader.globalFuncIdxMap.lookupConst raw.fid = .ok g → new.fid = g
  known : ∀ g, reader.globalFuncIdxMap.lookupConst raw.fid = .ok g →
    reader.validateEvent new = reader.validateEvent (reader.relabel raw)
  unknown : ∀ e, reader.globalFuncIdxMap.lookupConst raw.fid = .error e →
    reader.validateEvent new = false

/-- Relabeling a row leaves all but its first columns. -/
theorem getElem?_relabelRow (r : List ℕ) {j : ℕ} (h0 : j ≠ 0)
    (h1 : self.dataRankOverride = true → j ≠ 1) : (self.relabelRow r)[j]? = r[j]? := by
  unfold relabelRow
  split
  · rename_i hrank
    rw [List.getElem?_set_ne (h1 hrank).symm, List.getElem?_set_ne h0.symm]
  · rw [List.getElem?_set_ne h0.symm]

/-- Relabeling a row keeps its length. -/
@[simp] theorem length_relabelRow (r : List ℕ) : (self.relabelRow r).length = r.length := by
  unfold relabelRow
  split <;> simp

/-- Relabeling a row leaves all but its first columns. -/
theorem getD_relabelRow (r : List ℕ) {j : ℕ} (hj : 1 < j) :
    (self.relabelRow r).getD j 0 = r.getD j 0 := by
  rw [List.getD_eq_getElem?_getD, getElem?_relabelRow r (by omega) (by omega),
    List.getD_eq_getElem?_getD]

/-- The fix-up of a row. -/
theorem repaired_of_row {raw new : Event} (hraw : raw.data.length = FUNC.dim)
    (hnew : new.data = self.substituteRow (self.relabelRow raw.data)) :
    self.Repaired raw new := by
  have hfid : (self.relabelRow raw.data).getD 4 0 = raw.fid := getD_relabelRow raw.data (by decide)
  have hlength : (self.relabelRow raw.data).length = 6 := (length_relabelRow raw.data).trans hraw
  unfold substituteRow at hnew
  rw [hfid] at hnew
  cases hlookup : self.globalFuncIdxMap.lookupConst raw.fid with
  | ok g =>
    simp only [hlookup] at hnew
    have hget : ∀ j, j ≠ 4 → new.data[j]? = (self.relabelRow raw.data)[j]? := by
      intro j hj
      rw [hnew, List.getElem?_set_ne hj.symm]
    have hgetD : ∀ j, j ≠ 4 → new.data.getD j 0 = (self.relabelRow raw.data).getD j 0 := by
      intro j hj
      rw [List.getD_eq_getElem?_getD, hget j hj, List.getD_eq_getElem?_getD]
    constructor
    · intro j h0 h1 h4
      rw [hget j h4, getElem?_relabelRow raw.data h0 h1]
    · intro g' hg'
      rw [hlookup] at hg'
      cases hg'
      unfold Event.fid
      rw [hnew, List.getD_eq_getElem?_getD, List.getElem?_set_self (by omega), Option.getD_some]
    · intro _ _
      unfold ADParser.validateEvent Event.pid Event.rid Event.tid
      rw [hgetD 0 (by decide), hgetD 1 (by decide), hgetD 2 (by decide)]
      rfl
    · intro e he
      rw [hlookup] at he
      cases he
  | error e =>
    simp only [hlookup] at hnew
    have hinvalid : self.validateEvent new = false ∧
        ∀ j, j ≠ 0 → new.data[j]? = (self.relabelRow raw.data)[j]? := by
      split at hnew
      · refine ⟨validateEvent_invalid ?_ new hnew, fun j hj => ?_⟩
        · apply List.ne_nil_of_length_pos
          omega
        · rw [hnew, List.getElem?_set_ne hj.symm]
      · rename_i hvalid
        refine ⟨(validateEvent_congr hnew).trans (Bool.eq_false_of_not_eq_true hvalid), ?_⟩
        intro j _
        rw [hnew]
    constructor
    · intro j h0 h1 _
      rw [hinvalid.2 j h0, getElem?_relabelRow raw.data h0 h1]
    · intro g hg
      rw [hlookup] at hg
      cases hg
    · intro g hg
      rw [hlookup] at hg
      cases hg
    · intro _ _
      exact hinvalid.1

/-- The sorted indices file every row under its timestamp. -/
theorem filed_sortedIdx (count : ℕ) (data : List ℕ) :
    Filed (fun i => data.getD (i * FUNC.dim + FUNC.idxTs) 0) (List.range count)
      (sortedIdx count data).itemsAt := by
  have hloop : ∀ n, ∃ m : Buckets ℕ ℕ,
      (List.range n).foldl (fun (s : Buckets ℕ ℕ × ℕ) i =>
        (s.1.putLast (data.getD (s.2 + FUNC.idxTs) 0) i, s.2 + FUNC.dim)) (∅, 0) =
          (m, n * FUNC.dim) ∧
      Filed (fun i => data.getD (i * FUNC.dim + FUNC.idxTs) 0) (List.range n) m.itemsAt := by
    intro n
    induction n with
    | zero =>
      refine ⟨∅, by rw [Nat.zero_mul]; rfl, fun k => ?_⟩
      rw [Buckets.itemsAt_empty]
      rfl
    | succ n ih =>
      obtain ⟨m, hm, hfiled⟩ := ih
      refine ⟨m.putLast (data.getD (n * FUNC.dim + FUNC.idxTs) 0) n, ?_, ?_⟩
      · rw [List.range_succ, List.foldl_append, hm, Nat.succ_mul]
        rfl
      · rw [List.range_succ, Buckets.itemsAt_putLast]
        exact hfiled.push n
  obtain ⟨m, hm, hfiled⟩ := hloop count
  unfold sortedIdx
  rw [hm]
  exact hfiled

/-- The rows of the buffer after a read. -/
theorem row_readInto (type : EventDataType) {count : ℕ} (words : ℕ → ℕ) (buffer : List ℕ) {i : ℕ}
    (hi : i < count) :
    row type.dim (readInto type count words buffer) i = (rawEvent type words i).data := by
  have hrows : (i + 1) * type.dim ≤ count * type.dim := Nat.mul_le_mul_right _ hi
  have hlength : (row type.dim (readInto type count words buffer) i).length = type.dim := by
    apply length_row
    unfold readInto
    rw [List.length_append, List.length_map, List.length_range]
    omega
  apply List.ext_getElem?
  intro j
  by_cases hj : j < type.dim
  · rw [Nat.succ_mul] at hrows
    have hword : i * type.dim + j < count * type.dim := by omega
    unfold rawEvent readInto
    rw [← getElem?_eq_row i hj, List.getElem?_append_left (by simpa using hword),
      List.getElem?_map, List.getElem?_range hword, List.getElem?_map, List.getElem?_range hj]
    rfl
  · rw [List.getElem?_eq_none (hlength.le.trans (not_lt.mp hj)),
      List.getElem?_eq_none ((length_rawEvent type words i).le.trans (not_lt.mp hj))]

/-- Without a connection to the server, there is nothing to substitute. -/
theorem substituteRow_of_not_connected (h : self.globalFuncIdxMap.connectedToPS = false)
    (r : List ℕ) : self.substituteRow r = r := by
  have hlookup : self.globalFuncIdxMap.lookupConst (r.getD 4 0) = .ok (r.getD 4 0) := by
    unfold ADglobalFunctionIndexMap.lookupConst
    rw [h]
    rfl
  unfold substituteRow
  rw [hlookup]
  by_cases hr : 4 < r.length
  · rw [List.getD_eq_getElem _ _ hr]
    exact List.set_getElem_self hr
  · exact List.set_eq_of_length_le (not_lt.mp hr)

/-- The loops repair every row by itself. -/
theorem substituted_rows (self : ADParserReader) (count : ℕ) (words : ℕ → ℕ) (buffer : List ℕ) :
    ∃ data, self.substituteFids count
        (self.replaceIndices FUNC count (readInto FUNC count words buffer)) = .ok data ∧
      count * FUNC.dim ≤ data.length ∧
      ∀ k, k < count → row FUNC.dim data k =
        self.substituteRow (self.relabelRow (rawEvent FUNC words k).data) := by
  have hread : count * FUNC.dim ≤ (readInto FUNC count words buffer).length := by
    unfold readInto
    rw [List.length_append, List.length_map, List.length_range]
    omega
  obtain ⟨hlength, hrows⟩ := self.row_replaceIndices FUNC hread
  have hrelabelled : ∀ k, k < count →
      row FUNC.dim (self.replaceIndices FUNC count (readInto FUNC count words buffer)) k =
        self.relabelRow (rawEvent FUNC words k).data := by
    intro k hk
    rw [hrows k hk, row_readInto FUNC words buffer hk]
  unfold substituteFids
  cases hconnected : self.globalFuncIdxMap.connectedToPS with
  | false =>
    refine ⟨_, rfl, hread.trans hlength.ge, fun k hk => ?_⟩
    rw [hrelabelled k hk, substituteRow_of_not_connected hconnected]
  | true =>
    obtain ⟨data, hloop, hlength', hrows'⟩ :=
      foldlM_rows self.stepAt_substituteFid count (hread.trans hlength.ge)
    refine ⟨data, ?_, (hread.trans hlength.ge).trans hlength'.ge, fun k hk => ?_⟩
    · simp only [if_true, hloop]
      rfl
    · rw [hrows' k, if_pos hk, hrelabelled k hk]

/-- A repaired row has the timestamp of the raw one. -/
theorem Repaired.ts_eq {raw new : Event} (h : self.Repaired raw new) (hraw : raw.type = FUNC)
    (hnew : new.type = FUNC) : new.ts = raw.ts := by
  unfold Event.ts
  rw [hraw, hnew, List.getD_eq_getElem?_getD, List.getD_eq_getElem?_getD,
    h.others FUNC.idxTs (by decide) (fun _ => by decide) (by decide)]

/-- The timestamp of a row. -/
def tsOfRow (data : List ℕ) (i : ℕ) : ℕ := data.getD (i * FUNC.dim + FUNC.idxTs) 0

/-- Sorting puts every row somewhere, by its timestamp, and keeps the order of those with equal
ones. -/
theorem sortRows_spec {count : ℕ} {data : List ℕ} (hdata : count * FUNC.dim ≤ data.length) :
    ∃ order : List ℕ, order.Perm (List.range count) ∧
      (∀ k i, order[k]? = some i → row FUNC.dim (sortRows count data) k = row FUNC.dim data i) ∧
      (order.Pairwise fun i j => tsOfRow data i = tsOfRow data j → i < j) ∧
      order.Pairwise fun i j => tsOfRow data i ≤ tsOfRow data j := by
  have hfiled : Filed (tsOfRow data) (List.range count) (sortedIdx count data).itemsAt :=
    filed_sortedIdx count data
  have hperm := Buckets.perm_toList hfiled
  refine ⟨(sortedIdx count data).toList.flatMap Prod.snd, hperm, fun k i hk => ?_,
    pairwise_of_group fun ts => ?_, Buckets.sorted_toList hfiled⟩
  · refine row_flatMap (fun j hj => ?_) hk
    have hlt : j < count := List.mem_range.mp (hperm.mem_iff.mp hj)
    exact length_row ((Nat.mul_le_mul_right _ hlt).trans hdata)
  · rw [Buckets.group_toList hfiled ts]
    exact List.pairwise_lt_range.filter _

/-- The fix-up of the function data succeeds for every array that is read. Every row of the result
is a row of the input, repaired, and the rows with equal timestamps keep their order. The valid rows
of each thread are in time order. -/
theorem fetchFuncData_repairs (self : ADParserReader) (count : ℕ) (words : ℕ → ℕ) :
    ∃ (after : ADParserReader) (order : List ℕ),
      self.fetchFuncData (some (count, words)) = .ok (after, .OK) ∧
      after.timerEventCount = count ∧ after.validateEvent = self.validateEvent ∧
      order.Perm (List.range count) ∧
      (∀ k i, order[k]? = some i → self.Repaired (rawEvent FUNC words i) (after.event FUNC k)) ∧
      (order.Pairwise fun i j => (rawEvent FUNC words i).ts = (rawEvent FUNC words j).ts → i < j) ∧
      ∀ k l, k < l → l < count → after.validateEvent (after.event FUNC k) = true →
        after.validateEvent (after.event FUNC l) = true →
        (after.event FUNC k).tid = (after.event FUNC l).tid →
        (after.event FUNC k).ts ≤ (after.event FUNC l).ts := by
  obtain ⟨data, hdata, hlength, hrows⟩ := self.substituted_rows count words self.eventTimestamps
  have hrepaired : ∀ i, i < count → ∀ new : Event, new.data = row FUNC.dim data i →
      self.Repaired (rawEvent FUNC words i) new := by
    intro i hi new hnew
    exact repaired_of_row (length_rawEvent FUNC words i) (hnew.trans (hrows i hi))
  obtain ⟨inOrder, hcheck, hordered⟩ := (self.storeRows count data).checkEventOrder_ok FUNC
  have hrun : ∀ after, (self.storeRows count data).fixOrder = .ok after →
      self.fetchFuncData (some (count, words)) = .ok (after, .OK) := by
    intro after hafter
    unfold fetchFuncData
    simp only [hdata, bind, Except.bind, hafter]
    rfl
  cases inOrder with
  | true =>
    refine ⟨self.storeRows count data, List.range count, hrun _ ?_, rfl, rfl, List.Perm.refl _, ?_,
      ?_, hordered rfl⟩
    · unfold fixOrder
      rw [hcheck]
      rfl
    · intro k i hk
      obtain ⟨hlt, hki⟩ := List.getElem?_eq_some_iff.mp hk
      rw [List.length_range] at hlt
      rw [List.getElem_range] at hki
      subst hki
      exact hrepaired k hlt _ rfl
    · apply List.pairwise_lt_range.imp
      intro i j hij _
      exact hij
  | false =>
    obtain ⟨order, hperm, hrow, hstable, hsorted⟩ := sortRows_spec hlength
    have hmem : ∀ k i : ℕ, order[k]? = some i → i < count := by
      intro k i hk
      exact List.mem_range.mp (hperm.mem_iff.mp (List.mem_of_getElem? hk))
    have hkey : ∀ i ∈ order, tsOfRow data i = (rawEvent FUNC words i).ts := by
      intro i hi
      have hlt : i < count := List.mem_range.mp (hperm.mem_iff.mp hi)
      rw [← (hrepaired i hlt (funcEvent data i) rfl).ts_eq rfl rfl]
      unfold tsOfRow
      rw [List.getD_eq_getElem?_getD, getElem?_eq_row i (by decide)]
      exact (List.getD_eq_getElem?_getD ..).symm
    let after : ADParserReader :=
      { self.storeRows count data with eventTimestamps := sortRows count data }
    have hafter : ∀ k i : ℕ, order[k]? = some i →
        self.Repaired (rawEvent FUNC words i) (after.event FUNC k) := by
      intro k i hk
      exact hrepaired i (hmem k i hk) _ (hrow k i hk)
    refine ⟨after, order, hrun _ ?_, rfl, rfl, hperm, hafter, ?_, ?_⟩
    · unfold fixOrder
      rw [hcheck]
      rfl
    · apply hstable.imp_of_mem
      intro i j hi hj hij hts
      apply hij
      rw [hkey i hi, hkey j hj, hts]
    · intro k l hkl hl _ _ _
      have hcount : order.length = count := hperm.length_eq.trans List.length_range
      have hkorder : k < order.length := by omega
      have hlorder : l < order.length := by omega
      rw [(hafter k _ (List.getElem?_eq_getElem hkorder)).ts_eq rfl rfl,
        (hafter l _ (List.getElem?_eq_getElem hlorder)).ts_eq rfl rfl,
        ← hkey _ (List.getElem_mem hkorder), ← hkey _ (List.getElem_mem hlorder)]
      exact List.pairwise_iff_getElem.mp hsorted k l hkorder hlorder hkl

/-- One row of another program, whose function index is known. -/
private def otherProgram : ADParserReader where
  rank := 0
  programIdx := 0
  currentStep := 0
  eventType := ∅
  correlationIDcounterIdx := -1
  eventTimestamps := []
  timerEventCount := 0
  commTimestamps := []
  commCount := 0
  counterTimestamps := []
  counterCount := 0
  dataRankOverride := false
  globalFuncIdxMap := { connectedToPS := true, idxmap := fun _ => some 5, pid := 0 }

/-- A row of another program. -/
private def otherProgramRow (i : ℕ) : ℕ := [7, 0, 0, 0, 3, 10].getD i 0

/-- A row that was not valid can be valid after the fix-up, since its program index is replaced. -/
theorem validity_changes_otherProgram :
    ∃ after, otherProgram.fetchFuncData (some (1, otherProgramRow)) = .ok (after, .OK) ∧
      otherProgram.globalFuncIdxMap.lookupConst (rawEvent FUNC otherProgramRow 0).fid = .ok 5 ∧
      otherProgram.validateEvent (rawEvent FUNC otherProgramRow 0) = false ∧
      after.validateEvent (after.event FUNC 0) = true := by
  refine ⟨_, rfl, rfl, ?_, ?_⟩
  · decide
  · decide +kernel

end ADParserReader

end Chimbuko
