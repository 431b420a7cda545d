import Chimbuko.AD.ADglobalFunctionIndexMap
import Chimbuko.AD.Event
import Chimbuko.Library.TextScan

/-!
# Trace attributes

`ADParser::update_attributes` classifies the attributes of a trace by the words that occur in
their names. Timers, event types and counters are kept under the number after the first blank of
the name, timers under the global index that belongs to it. Metadata are reported once.

With the engine `BPFile` the attributes are only fetched once.
-/

namespace Chimbuko

open TextScan TransitionSystem

/-- A piece of metadata: the program, rank and thread it is about, a description and a value. -/
structure MetaData where
  pid : ℕ
  rid : ℕ
  tid : ℕ
  descr : String
  value : String
deriving DecidableEq

/-- What an attribute defines, by its name. -/
inductive AttributeType
  | Func
  | Event
  | Counter
  | Metadata
  | Unknown
deriving DecidableEq

/-- The names of attributes with the parameter `Value`, if they have it. -/
abbrev AttributeTable := List (String × Option String)

/-- What the parser keeps of the attributes. -/
structure ADParserAttributes where
  engineType : String
  opened : Bool
  attrOnce : Bool
  programIdx : ℕ
  metadataSeen : List String
  newMetadata : List MetaData
  funcMap : AList fun _ : ℤ => String
  eventType : AList fun _ : ℤ => String
  counterMap : AList fun _ : ℤ => String
  correlationIDcounterIdx : ℤ
  globalFuncIdxMap : ADglobalFunctionIndexMap

namespace ADParserAttributes

/-- Whether a word occurs in a name. -/
def contains (name word : String) : Bool := decide (word.toList <:+: name.toList)

/-- The type of an attribute. The first word that occurs in the name decides. -/
def attributeType (name : String) : AttributeType :=
  if contains name "timer" then .Func
  else if contains name "event_type" then .Event
  else if contains name "counter" then .Counter
  else if contains name "MetaData" then .Metadata
  else .Unknown

/-- The rank, thread and description in a name of the form `MetaData:rank:tid:descr`. -/
def matchMetaData (name : List Char) : Option (List Char × List Char × List Char) :=
  if "MetaData:".toList <+: name then
    let rest := name.drop 9
    match rest.dropWhile Char.isDigit with
    | ':' :: rest' =>
      match rest'.dropWhile Char.isDigit with
      | ':' :: descr =>
        if rest.takeWhile Char.isDigit = [] ∨ rest'.takeWhile Char.isDigit = [] ∨
            descr.any isLineEnd then none
        else some (rest.takeWhile Char.isDigit, rest'.takeWhile Char.isDigit, descr)
      | _ => none
    | _ => none
  else none

/-- A text without quotation marks. -/
def removeQuotes (value : String) : String :=
  String.ofList (value.toList.filter fun c => c.toNat ≠ 34)

/-- Report a piece of metadata, unless one of its name was reported before. -/
def addMetadata (self : ADParserAttributes) (name : String) (value : Option String) :
    Except String ADParserAttributes :=
  if name ∈ self.metadataSeen then pure self
  else
    match matchMetaData name.toList with
    | none => pure self
    | some (rank, tid, descr) => do
      let rank ← stoul rank
      let tid ← stoul tid
      match value with
      | none => throw "undefined: end iterator dereferenced"
      | some value => pure { self with
          newMetadata := self.newMetadata ++
            [{ pid := self.programIdx, rid := rank, tid := tid, descr := String.ofList descr
               value := removeQuotes value }]
          metadataSeen := name :: self.metadataSeen }

/-- Add an entry to a map unless its key is there already. -/
def insertNew (m : AList fun _ : ℤ => String) (key : ℤ) (value : String) :
    AList fun _ : ℤ => String :=
  match m.lookup key with
  | none => m.insert key value
  | some _ => m

/-- Add an entry for an event type or a counter, or put a timer on the list of those whose global
index has to be looked up. -/
def addEntry (s : ADParserAttributes × List (ℤ × String)) (type : AttributeType) (key : ℤ)
    (value : String) : ADParserAttributes × List (ℤ × String) :=
  let (self, funcIdxNamePairs) := s
  match type with
  | .Func => (self, funcIdxNamePairs ++ [(key, value)])
  | .Event => ({ self with eventType := insertNew self.eventType key value }, funcIdxNamePairs)
  | .Counter =>
    ({ self with
      counterMap := insertNew self.counterMap key value
      correlationIDcounterIdx :=
        if (self.counterMap.lookup key).isNone ∧ value = "Correlation ID" then key
        else self.correlationIDcounterIdx }, funcIdxNamePairs)
  | .Metadata => (self, funcIdxNamePairs)
  | .Unknown => (self, funcIdxNamePairs)

/-- Add what an attribute says. -/
def addAttribute (s : ADParserAttributes × List (ℤ × String))
    (attributePair : String × Option String) :
    Except String (ADParserAttributes × List (ℤ × String)) :=
  let (name, value) := attributePair
  match attributeType name with
  | .Metadata => do
    let self ← s.1.addMetadata name value
    pure (self, s.2)
  | .Unknown => pure s
  | type =>
    match name.toList.dropWhile fun c => c ≠ ' ' with
    | [] => pure s
    | text => do
      let key ← stoi text
      match value with
      | none => pure s
      | some value => pure (addEntry s type key (removeQuotes value))

/-- Look up the global indices of functions and add their names. -/
def addFunctions (self : ADParserAttributes) (server : PSglobalFunctionIndexMap)
    (pairs : List (ℤ × String)) :
    Except String (ADParserAttributes × PSglobalFunctionIndexMap) :=
  if pairs = [] then pure (self, server)
  else do
    let (globalFuncIdxMap, server, globIdx) ← self.globalFuncIdxMap.lookupBatch server
      (pairs.map fun p => (p.1 % 2 ^ 64).toNat) (pairs.map Prod.snd)
    let entries := globIdx.zip (pairs.map Prod.snd)
    pure ({ self with
      globalFuncIdxMap := globalFuncIdxMap
      funcMap := entries.foldl (fun m e => insertNew m (toInt e.1) e.2) self.funcMap }, server)

/-- Whether a call fetches the attributes. -/
def fetches (self : ADParserAttributes) : Bool :=
  self.opened ∧ ¬ (self.engineType = "BPFile" ∧ self.attrOnce)

/-- Update the maps and the new metadata from the attributes that are available. -/
def updateAttributes (self : ADParserAttributes) (server : PSglobalFunctionIndexMap)
    (available : AttributeTable) :
    Except String (ADParserAttributes × PSglobalFunctionIndexMap) :=
  if !self.opened then pure (self, server)
  else
    let self := { self with newMetadata := [] }
    if self.engineType = "BPFile" ∧ self.attrOnce then pure (self, server)
    else do
      let (self, funcIdxNamePairs) ← available.foldlM addAttribute (self, [])
      let (self, server) ← self.addFunctions server funcIdxNamePairs
      pure ({ self with attrOnce := true }, server)

/-- The attributes before the first step. -/
def new (engineType : String) (opened : Bool) (programIdx : ℕ) (connectedToPS : Bool) :
    ADParserAttributes where
  engineType := engineType
  opened := opened
  attrOnce := false
  programIdx := programIdx
  metadataSeen := []
  newMetadata := []
  funcMap := ∅
  eventType := ∅
  counterMap := ∅
  correlationIDcounterIdx := -1
  globalFuncIdxMap :=
    { connectedToPS := connectedToPS, idxmap := fun _ => none, pid := programIdx }

/-- Update from the attributes of one step after the other, with the state of the server on each,
and collect the new metadata. -/
def runUpdates : ADParserAttributes → List (PSglobalFunctionIndexMap × AttributeTable) →
    Except String (List MetaData × ADParserAttributes)
  | self, [] => pure ([], self)
  | self, (server, available) :: rest => do
    let (self, _) ← self.updateAttributes server available
    let (later, final) ← runUpdates self rest
    pure (self.newMetadata ++ later, final)

end ADParserAttributes

/-- The description of metadata, a text on one line. -/
structure Description where
  chars : List Char
  ne_nil : chars ≠ []
  single_line : chars.any isLineEnd = false

/-- The attributes of a trace. -/
inductive Attribute
  | timer (k : DecimalInteger)
  | eventType (k : DecimalInteger)
  | counter (k : DecimalInteger)
  | metadata (rank tid : Digits) (descr : Description)

namespace Attribute

open ADParserAttributes

/-- The name of metadata. -/
def metadataName (rank tid descr : List Char) : List Char :=
  "MetaData:".toList ++ (rank ++ ':' :: (tid ++ ':' :: descr))

/-- The name under which an attribute is found. -/
def name : Attribute → String
  | timer k => String.ofList ("timer".toList ++ ' ' :: k.text)
  | eventType k => String.ofList ("event_type".toList ++ ' ' :: k.text)
  | counter k => String.ofList ("counter".toList ++ ' ' :: k.text)
  | metadata rank tid descr => String.ofList (metadataName rank.chars tid.chars descr.chars)

/-- The words that make a name one of a timer, an event type or a counter. -/
def words : List String := ["timer", "event_type", "counter"]

/-- The numbers of an attribute can be represented, and none of the words that mark other
attributes occurs in a description. -/
def Plain : Attribute → Prop
  | timer k => k.FitsInt
  | eventType k => k.FitsInt
  | counter k => k.FitsInt
  | metadata rank tid descr => rank.value < 2 ^ 64 ∧ tid.value < 2 ^ 64 ∧
      ∀ word ∈ words, ¬ word.toList <:+: descr.chars

/-- The function index that an attribute defines. -/
def timerKey : Attribute → Option ℤ
  | timer k => some k.value
  | _ => none

/-- The event type that an attribute defines. -/
def eventTypeKey : Attribute → Option ℤ
  | eventType k => some k.value
  | _ => none

/-- The counter that an attribute defines. -/
def counterKey : Attribute → Option ℤ
  | counter k => some k.value
  | _ => none

/-- The metadata that an attribute with a value says. -/
def metaData (programIdx : ℕ) (value : String) : Attribute → Option MetaData
  | metadata rank tid descr => some
      { pid := programIdx, rid := rank.value, tid := tid.value, descr := String.ofList descr.chars
        value := removeQuotes value }
  | _ => none

/-- An attribute in a table. -/
def toEntry (a : Attribute × String) : String × Option String := (a.1.name, some a.2)

/-- The entries of attributes of one kind, with their values without quotation marks. -/
def entries (key : Attribute → Option ℤ) (attributes : List (Attribute × String)) :
    List (ℤ × String) :=
  attributes.filterMap fun a => (key a.1).map fun k => (k, removeQuotes a.2)

/-- The first value that is given for a key. -/
def firstValue (entries : List (ℤ × String)) (key : ℤ) : Option String :=
  (entries.find? fun e => e.1 = key).map Prod.snd

/-- One piece of metadata for each metadata attribute whose name was not seen before. -/
def reportedOnce (programIdx : ℕ) : List String → List (Attribute × String) → List MetaData
  | _, [] => []
  | seen, (a, value) :: rest =>
    match a.metaData programIdx value with
    | none => reportedOnce programIdx seen rest
    | some reported =>
      if a.name ∈ seen then reportedOnce programIdx seen rest
      else reported :: reportedOnce programIdx (a.name :: seen) rest

/-- The timers of all steps with their global indices. -/
def globalTimers : ADglobalFunctionIndexMap →
    List (PSglobalFunctionIndexMap × List (Attribute × String)) → List (ℤ × String)
  | _, [] => []
  | globalFuncIdxMap, (server, attributes) :: rest =>
    let pairs := entries timerKey attributes
    match globalFuncIdxMap.lookupBatch server (pairs.map fun p => (p.1 % 2 ^ 64).toNat)
      (pairs.map Prod.snd) with
    | .error _ => []
    | .ok (globalFuncIdxMap, _, globIdx) =>
      (globIdx.zip (pairs.map Prod.snd)).map (fun e => (toInt e.1, e.2)) ++
        globalTimers globalFuncIdxMap rest

/-- The words that mark attributes are words of other characters than the rest of a name. -/
private theorem chars_of_mem_words {word : String} (hword : word ∈ words) :
    word.toList ≠ [] ∧
      ∀ c ∈ word.toList, c ≠ ' ' ∧ c ≠ ':' ∧ c ≠ '-' ∧ c.isDigit = false := by
  simp only [words, List.mem_cons, List.not_mem_nil, or_false] at hword
  rcases hword with rfl | rfl | rfl
  · simp
  · simp
  · simp

/-- The word of function attributes is searched for. -/
private theorem timer_mem : "timer" ∈ words := by simp [words]

/-- The word of event type attributes is searched for. -/
private theorem eventType_mem : "event_type" ∈ words := by simp [words]

/-- The word of counter attributes is searched for. -/
private theorem counter_mem : "counter" ∈ words := by simp [words]

/-- A word that marks attributes does not occur in digits. -/
private theorem not_infix_digits {word : String} (hword : word ∈ words) (d : Digits) :
    ¬ word.toList <:+: d.chars := by
  obtain ⟨hne, hchars⟩ := chars_of_mem_words hword
  obtain ⟨c, hc⟩ := List.exists_mem_of_ne_nil _ hne
  intro h
  have hdigit := d.isDigit c (h.subset hc)
  rw [(hchars c hc).2.2.2] at hdigit
  exact Bool.false_ne_true hdigit

/-- A word that marks attributes does not occur in a decimal integer. -/
private theorem not_infix_text {word : String} (hword : word ∈ words) (k : DecimalInteger) :
    ¬ word.toList <:+: k.text := by
  obtain ⟨hne, hchars⟩ := chars_of_mem_words hword
  intro h
  unfold DecimalInteger.text at h
  split at h
  · have hsign : word.toList <:+: [] ++ '-' :: k.digits.chars := h
    rcases infix_of_separated (fun hc => (hchars _ hc).2.2.1 rfl) hsign with hnil | hdigits
    · exact hne (List.infix_nil.mp hnil)
    · exact not_infix_digits hword k.digits hdigits
  · exact not_infix_digits hword k.digits h

/-- The words that mark attributes occur in the name of a timer, an event type or a counter where
they occur before the blank. -/
private theorem contains_keyed {word : String} (hword : word ∈ words) (kind : String)
    (k : DecimalInteger) :
    contains (String.ofList (kind.toList ++ ' ' :: k.text)) word =
      decide (word.toList <:+: kind.toList) := by
  rw [contains, String.toList_ofList]
  refine decide_eq_decide.mpr ⟨fun h => ?_, fun h => h.trans (List.infix_append' [] _ _)⟩
  have hblank : ' ' ∉ word.toList := fun hc => ((chars_of_mem_words hword).2 _ hc).1 rfl
  exact (infix_of_separated hblank h).resolve_right (not_infix_text hword k)

/-- The words that mark attributes occur in the name of metadata where they occur in the
description. -/
private theorem contains_metadataName {word : String} (hword : word ∈ words) (rank tid : Digits)
    (descr : List Char) :
    contains (String.ofList (metadataName rank.chars tid.chars descr)) word =
      decide (word.toList <:+: descr) := by
  rw [contains, String.toList_ofList]
  have hcolon : ':' ∉ word.toList := fun hc => ((chars_of_mem_words hword).2 _ hc).2.1 rfl
  have hname : metadataName rank.chars tid.chars descr =
      "MetaData".toList ++ ':' :: (rank.chars ++ ':' :: (tid.chars ++ ':' :: descr)) := rfl
  have hfirst : ¬ word.toList <:+: "MetaData".toList := by
    clear hcolon
    revert word
    decide +kernel
  refine decide_eq_decide.mpr ⟨fun h => ?_, fun h => ?_⟩
  · rw [hname] at h
    have hrank := (infix_of_separated hcolon h).resolve_left hfirst
    have htid := (infix_of_separated hcolon hrank).resolve_left (not_infix_digits hword rank)
    exact (infix_of_separated hcolon htid).resolve_left (not_infix_digits hword tid)
  · rw [hname]
    refine h.trans (List.IsSuffix.isInfix ?_)
    refine List.suffix_append_of_suffix (List.IsSuffix.trans ?_ (List.suffix_cons _ _))
    refine List.suffix_append_of_suffix (List.IsSuffix.trans ?_ (List.suffix_cons _ _))
    exact List.suffix_append_of_suffix (List.suffix_cons _ _)

/-- The name of a function attribute. -/
theorem name_timer (k : DecimalInteger) :
    (timer k).name = String.ofList ("timer".toList ++ ' ' :: k.text) := rfl

/-- The name of an event type attribute. -/
theorem name_eventType (k : DecimalInteger) :
    (eventType k).name = String.ofList ("event_type".toList ++ ' ' :: k.text) := rfl

/-- The name of a counter attribute. -/
theorem name_counter (k : DecimalInteger) :
    (counter k).name = String.ofList ("counter".toList ++ ' ' :: k.text) := rfl

/-- The name of a metadata attribute. -/
theorem name_metadata (rank tid : Digits) (descr : Description) : (metadata rank tid descr).name =
    String.ofList (metadataName rank.chars tid.chars descr.chars) := rfl

/-- A function attribute is recognised. -/
theorem attributeType_timer (k : DecimalInteger) : attributeType (timer k).name = .Func := by
  have htimer := contains_keyed timer_mem "timer" k
  rw [attributeType, name_timer, htimer, if_pos (by decide +kernel)]

/-- An event type attribute is recognised. -/
theorem attributeType_eventType (k : DecimalInteger) :
    attributeType (eventType k).name = .Event := by
  have htimer := contains_keyed timer_mem "event_type" k
  have hevent := contains_keyed eventType_mem "event_type" k
  rw [attributeType, name_eventType, htimer, hevent, if_neg (by decide +kernel),
    if_pos (by decide +kernel)]

/-- A counter attribute is recognised. -/
theorem attributeType_counter (k : DecimalInteger) :
    attributeType (counter k).name = .Counter := by
  have htimer := contains_keyed timer_mem "counter" k
  have hevent := contains_keyed eventType_mem "counter" k
  have hcounter := contains_keyed counter_mem "counter" k
  rw [attributeType, name_counter, htimer, hevent, hcounter, if_neg (by decide +kernel),
    if_neg (by decide +kernel), if_pos (by decide +kernel)]

/-- Metadata is recognised if none of the words occurs in its description. -/
theorem attributeType_metadata (rank tid : Digits) {descr : Description}
    (hdescr : ∀ word ∈ words, ¬ word.toList <:+: descr.chars) :
    attributeType (metadata rank tid descr).name = .Metadata := by
  have hno : ∀ word ∈ words,
      contains (String.ofList (metadataName rank.chars tid.chars descr.chars)) word = false := by
    intro word hword
    rw [contains_metadataName hword, decide_eq_false_iff_not]
    exact hdescr word hword
  have hmeta : contains (String.ofList (metadataName rank.chars tid.chars descr.chars))
      "MetaData" = true := by
    have hchars := String.toList_ofList (l := metadataName rank.chars tid.chars descr.chars)
    rw [contains, hchars, decide_eq_true_eq]
    exact ⟨[], ':' :: (rank.chars ++ ':' :: (tid.chars ++ ':' :: descr.chars)), rfl⟩
  rw [attributeType, name_metadata, hno "timer" timer_mem,
    hno "event_type" eventType_mem, hno "counter" counter_mem, hmeta]
  rfl

/-- What a name of the form `MetaData:rank:tid:descr` says. -/
theorem matchMetaData_metadataName (rank tid : Digits) (descr : Description) :
    matchMetaData (metadataName rank.chars tid.chars descr.chars) =
      some (rank.chars, tid.chars, descr.chars) := by
  have hdrop : (metadataName rank.chars tid.chars descr.chars).drop 9 =
      rank.chars ++ ':' :: (tid.chars ++ ':' :: descr.chars) := rfl
  have hrank := scan_digits rank.isDigit (c := ':') (by decide) (tid.chars ++ ':' :: descr.chars)
  have htid := scan_digits tid.isDigit (c := ':') (by decide) descr.chars
  unfold matchMetaData
  rw [if_pos ⟨_, rfl⟩]
  simp only [hdrop, hrank.1, hrank.2, htid.1, htid.2, rank.ne_nil, tid.ne_nil,
    descr.single_line, false_or, Bool.false_eq_true, if_false]

/-- The text from the first blank of a name on. -/
private theorem dropWhile_keyed (kind : String) (hkind : ' ' ∉ kind.toList) (k : DecimalInteger) :
    ((String.ofList (kind.toList ++ ' ' :: k.text)).toList.dropWhile fun c => c ≠ ' ') =
      ' ' :: k.text := by
  have hpos : ∀ c ∈ kind.toList, decide (c ≠ ' ') = true := by
    intro c hc
    rw [decide_eq_true_eq]
    rintro rfl
    exact hkind hc
  rw [String.toList_ofList, List.dropWhile_append_of_pos hpos,
    List.dropWhile_cons_of_neg (by decide)]

/-- A timer, an event type or a counter is added if its number fits, otherwise the conversion of
the number throws. -/
private theorem addAttribute_keyed (s : ADParserAttributes × List (ℤ × String)) {kind : String}
    (hkind : ' ' ∉ kind.toList) (k : DecimalInteger) {type : AttributeType}
    (htype : attributeType (String.ofList (kind.toList ++ ' ' :: k.text)) = type)
    (hkey : type = .Func ∨ type = .Event ∨ type = .Counter) (value : String) :
    addAttribute s (String.ofList (kind.toList ++ ' ' :: k.text), some value) =
      if k.FitsInt then .ok (addEntry s type k.value (removeQuotes value))
      else .error "stoi" := by
  unfold addAttribute
  simp only [htype, dropWhile_keyed kind hkind k, stoi_text]
  by_cases hfits : k.FitsInt
  · simp only [if_pos hfits]
    rcases hkey with rfl | rfl | rfl
    all_goals rfl
  · simp only [if_neg hfits]
    rcases hkey with rfl | rfl | rfl
    all_goals rfl

/-- A function attribute gives its index a name, if the index fits. -/
theorem addAttribute_timer (s : ADParserAttributes × List (ℤ × String)) (k : DecimalInteger)
    (value : String) : addAttribute s (toEntry (timer k, value)) =
      if k.FitsInt then .ok (addEntry s .Func k.value (removeQuotes value))
      else .error "stoi" :=
  addAttribute_keyed s (by decide +kernel) k (attributeType_timer k) (Or.inl rfl) value

/-- An event type attribute gives its index a name, if the index fits. -/
theorem addAttribute_eventType (s : ADParserAttributes × List (ℤ × String)) (k : DecimalInteger)
    (value : String) : addAttribute s (toEntry (eventType k, value)) =
      if k.FitsInt then .ok (addEntry s .Event k.value (removeQuotes value))
      else .error "stoi" :=
  addAttribute_keyed s (by decide +kernel) k (attributeType_eventType k) (Or.inr (Or.inl rfl)) value

/-- A counter attribute gives its index a name, if the index fits. -/
theorem addAttribute_counter (s : ADParserAttributes × List (ℤ × String)) (k : DecimalInteger)
    (value : String) : addAttribute s (toEntry (counter k, value)) =
      if k.FitsInt then .ok (addEntry s .Counter k.value (removeQuotes value))
      else .error "stoi" :=
  addAttribute_keyed s (by decide +kernel) k (attributeType_counter k) (Or.inr (Or.inr rfl)) value

/-- Report a piece of metadata under a name that was not seen before. -/
def report (self : ADParserAttributes) (name : String) (reported : MetaData) :
    ADParserAttributes :=
  if name ∈ self.metadataSeen then self
  else { self with
    newMetadata := self.newMetadata ++ [reported]
    metadataSeen := name :: self.metadataSeen }

/-- What a recognised attribute adds. -/
def add (s : ADParserAttributes × List (ℤ × String)) (a : Attribute × String) :
    ADParserAttributes × List (ℤ × String) :=
  match a with
  | (timer k, value) => addEntry s .Func k.value (removeQuotes value)
  | (eventType k, value) => addEntry s .Event k.value (removeQuotes value)
  | (counter k, value) => addEntry s .Counter k.value (removeQuotes value)
  | (metadata rank tid descr, value) =>
    (report s.1 (metadata rank tid descr).name
      { pid := s.1.programIdx, rid := rank.value, tid := tid.value
        descr := String.ofList descr.chars, value := removeQuotes value }, s.2)

/-- A plain attribute is recognised. -/
theorem addAttribute_plain (s : ADParserAttributes × List (ℤ × String)) {a : Attribute × String}
    (h : a.1.Plain) : addAttribute s (toEntry a) = .ok (add s a) := by
  obtain ⟨attr, value⟩ := a
  cases attr with
  | timer k =>
    rw [addAttribute_timer]
    exact if_pos h
  | eventType k =>
    rw [addAttribute_eventType]
    exact if_pos h
  | counter k =>
    rw [addAttribute_counter]
    exact if_pos h
  | metadata rank tid descr =>
    obtain ⟨hrank, htid, hdescr⟩ := h
    have hmatch : matchMetaData (metadata rank tid descr).name.toList =
        some (rank.chars, tid.chars, descr.chars) := by
      rw [name_metadata, String.toList_ofList]
      exact matchMetaData_metadataName rank tid descr
    have hrank' : stoul rank.chars = .ok rank.value := by
      rw [stoul_chars, if_pos hrank]
    have htid' : stoul tid.chars = .ok tid.value := by
      rw [stoul_chars, if_pos htid]
    unfold addAttribute toEntry
    simp only [attributeType_metadata rank tid hdescr]
    unfold addMetadata
    rw [hmatch, add, report]
    by_cases hseen : (metadata rank tid descr).name ∈ s.1.metadataSeen
    · simp only [if_pos hseen]
      rfl
    · simp only [if_neg hseen, hrank', htid']
      rfl

end Attribute

end Chimbuko
