import Chimbuko.AD.ADParserAttributes

/-!
# Trace attributes over a stream

The attributes that the parser fetches in the steps of a stream, and what it makes of them if
their names can be told apart by the words in them: one piece of metadata for each name, and the
first value that is given for each timer, event type and counter.
-/

namespace Chimbuko

open TextScan TransitionSystem

namespace ADParserAttributes

/-- The steps in which the attributes are fetched. -/
def presented {α : Type} : ADParserAttributes → List α → List α
  | _, [] => []
  | self, step :: rest =>
    if self.fetches then step :: presented { self with attrOnce := true } rest
    else presented self rest

/-- Whether attributes are fetched depends on the engine and on what was fetched before. -/
theorem presented_congr {α : Type} (self other : ADParserAttributes)
    (hengine : self.engineType = other.engineType) (hopened : self.opened = other.opened)
    (honce : self.attrOnce = other.attrOnce) (steps : List α) :
    self.presented steps = other.presented steps := by
  induction steps generalizing self other with
  | nil => rfl
  | cons step rest ih =>
    have hfetches : self.fetches = other.fetches := by
      unfold fetches
      rw [hengine, hopened, honce]
    rw [presented, presented, hfetches]
    split
    · rw [ih { self with attrOnce := true } { other with attrOnce := true } hengine hopened rfl]
    · exact ih self other hengine hopened honce

/-- A call that does not fetch the attributes. -/
theorem updateAttributes_skips {self : ADParserAttributes} (h : self.fetches = false)
    (hclosed : self.opened = false → self.newMetadata = []) (server : PSglobalFunctionIndexMap)
    (available : AttributeTable) : self.updateAttributes server available =
      .ok ({ self with newMetadata := [] }, server) := by
  unfold fetches at h
  rw [decide_eq_false_iff_not] at h
  unfold updateAttributes
  by_cases hopened : self.opened = true
  · have honce : self.engineType = "BPFile" ∧ self.attrOnce = true := by
      by_contra hno
      exact h ⟨hopened, hno⟩
    simp only [hopened, Bool.not_true, Bool.false_eq_true, if_false, if_pos honce]
    rfl
  · rw [Bool.not_eq_true] at hopened
    have hself : { self with newMetadata := [] } = self := by
      rw [← hclosed hopened]
    rw [hself]
    simp only [hopened, Bool.not_false, if_true]
    rfl

/-- A call that fetches the attributes. -/
theorem updateAttributes_fetches {self : ADParserAttributes} (h : self.fetches = true)
    (server : PSglobalFunctionIndexMap) (available : AttributeTable) :
    self.updateAttributes server available = (do
      let (self, funcIdxNamePairs) ←
        available.foldlM addAttribute ({ self with newMetadata := [] }, [])
      let (self, server) ← self.addFunctions server funcIdxNamePairs
      pure ({ self with attrOnce := true }, server)) := by
  unfold fetches at h
  rw [decide_eq_true_eq] at h
  unfold updateAttributes
  simp only [h.1, Bool.not_true, Bool.false_eq_true, if_false, if_neg h.2]

/-- A value is only inserted under a new key. -/
theorem lookup_insertNew (m : AList fun _ : ℤ => String) (key : ℤ) (value : String) (k : ℤ) :
    (insertNew m key value).lookup k =
      (m.lookup k).or (if key = k then some value else none) := by
  unfold insertNew
  by_cases hk : key = k
  · subst hk
    rw [if_pos rfl]
    cases hm : m.lookup key with
    | none => simp
    | some old => simp [hm]
  · rw [if_neg hk, Option.or_none]
    cases hm : m.lookup key with
    | none => simp only [AList.lookup_insert_ne (Ne.symm hk)]
    | some old => rfl

end ADParserAttributes

namespace Attribute

open ADParserAttributes

/-- The value of the first entry decides. -/
theorem firstValue_cons (e : ℤ × String) (rest : List (ℤ × String)) (key : ℤ) :
    firstValue (e :: rest) key =
      (if e.1 = key then some e.2 else none).or (firstValue rest key) := by
  unfold firstValue
  by_cases hkey : e.1 = key
  · rw [List.find?_cons_of_pos (by simpa using hkey), if_pos hkey]
    rfl
  · rw [List.find?_cons_of_neg (by simpa using hkey), if_neg hkey]
    rfl

/-- The first value of a key is among the first entries unless these have none. -/
theorem firstValue_append (a b : List (ℤ × String)) (key : ℤ) :
    firstValue (a ++ b) key = (firstValue a key).or (firstValue b key) := by
  induction a with
  | nil => rfl
  | cons e rest ih => rw [List.cons_append, firstValue_cons, ih, firstValue_cons, Option.or_assoc]

/-- Entries that are only added under new keys. -/
theorem lookup_foldl_insertNew (entries : List (ℤ × String)) (m : AList fun _ : ℤ => String)
    (key : ℤ) : (entries.foldl (fun m e => insertNew m e.1 e.2) m).lookup key =
      (m.lookup key).or (firstValue entries key) := by
  induction entries generalizing m with
  | nil => exact (Option.or_none).symm
  | cons e rest ih =>
    rw [List.foldl_cons, ih, lookup_insertNew, firstValue_cons, Option.or_assoc]

/-- The entries of attributes and others are those of all of them. -/
theorem entries_append (key : Attribute → Option ℤ) (a b : List (Attribute × String)) :
    entries key (a ++ b) = entries key a ++ entries key b := List.filterMap_append

/-- What the attributes of one step leave as it was until the functions are added. -/
structure SameFunctions (after before : ADParserAttributes) : Prop where
  engineType : after.engineType = before.engineType
  opened : after.opened = before.opened
  programIdx : after.programIdx = before.programIdx
  funcMap : after.funcMap = before.funcMap
  globalFuncIdxMap : after.globalFuncIdxMap = before.globalFuncIdxMap

section Report

variable (self : ADParserAttributes) (name : String) (reported : MetaData)

/-- Reporting metadata leaves the event types. -/
theorem report_eventType : (report self name reported).eventType = self.eventType := by
  unfold report
  split
  · rfl
  · rfl

/-- Reporting metadata leaves the counters. -/
theorem report_counterMap : (report self name reported).counterMap = self.counterMap := by
  unfold report
  split
  · rfl
  · rfl

/-- Reporting metadata leaves the functions. -/
theorem report_sameFunctions : SameFunctions (report self name reported) self := by
  unfold report
  split
  · exact ⟨rfl, rfl, rfl, rfl, rfl⟩
  · exact ⟨rfl, rfl, rfl, rfl, rfl⟩

end Report

section Add

variable (s : ADParserAttributes × List (ℤ × String))

/-- The timers are put on the list. -/
theorem foldl_add_timers (attributes : List (Attribute × String)) :
    (attributes.foldl add s).2 = s.2 ++ entries timerKey attributes := by
  induction attributes generalizing s with
  | nil => exact (List.append_nil _).symm
  | cons a rest ih =>
    rw [List.foldl_cons, ih]
    obtain ⟨attr, value⟩ := a
    cases attr with
    | timer k => exact List.append_assoc _ _ _
    | eventType k => rfl
    | counter k => rfl
    | metadata rank tid descr => rfl

/-- Adding attributes inserts the event types that they define. -/
theorem foldl_add_eventType (attributes : List (Attribute × String)) :
    (attributes.foldl add s).1.eventType =
      (entries eventTypeKey attributes).foldl (fun m e => insertNew m e.1 e.2) s.1.eventType := by
  induction attributes generalizing s with
  | nil => rfl
  | cons a rest ih =>
    rw [List.foldl_cons, ih]
    obtain ⟨attr, value⟩ := a
    cases attr with
    | timer k => rfl
    | eventType k => rfl
    | counter k => rfl
    | metadata rank tid descr =>
      rw [add, report_eventType]
      rfl

/-- Adding attributes inserts the counters that they define. -/
theorem foldl_add_counterMap (attributes : List (Attribute × String)) :
    (attributes.foldl add s).1.counterMap =
      (entries counterKey attributes).foldl (fun m e => insertNew m e.1 e.2) s.1.counterMap := by
  induction attributes generalizing s with
  | nil => rfl
  | cons a rest ih =>
    rw [List.foldl_cons, ih]
    obtain ⟨attr, value⟩ := a
    cases attr with
    | timer k => rfl
    | eventType k => rfl
    | counter k => rfl
    | metadata rank tid descr =>
      rw [add, report_counterMap]
      rfl

/-- An attribute leaves the functions, which are added later. -/
theorem add_sameFunctions (a : Attribute × String) : SameFunctions (add s a).1 s.1 := by
  obtain ⟨attr, value⟩ := a
  cases attr with
  | timer k => exact ⟨rfl, rfl, rfl, rfl, rfl⟩
  | eventType k => exact ⟨rfl, rfl, rfl, rfl, rfl⟩
  | counter k => exact ⟨rfl, rfl, rfl, rfl, rfl⟩
  | metadata rank tid descr => exact report_sameFunctions s.1 _ _

/-- Attributes leave the functions, which are added later. -/
theorem foldl_add_sameFunctions (attributes : List (Attribute × String)) :
    SameFunctions (attributes.foldl add s).1 s.1 := by
  induction attributes generalizing s with
  | nil => exact ⟨rfl, rfl, rfl, rfl, rfl⟩
  | cons a rest ih =>
    have hrest := ih (add s a)
    have ha := add_sameFunctions s a
    exact ⟨hrest.engineType.trans ha.engineType, hrest.opened.trans ha.opened,
      hrest.programIdx.trans ha.programIdx, hrest.funcMap.trans ha.funcMap,
      hrest.globalFuncIdxMap.trans ha.globalFuncIdxMap⟩

/-- The attributes of a step report the metadata that were not seen before, and what follows is
reported as if it came in the same table. -/
theorem foldl_add_reported (attributes : List (Attribute × String)) :
    (attributes.foldl add s).1.newMetadata =
        s.1.newMetadata ++ reportedOnce s.1.programIdx s.1.metadataSeen attributes ∧
      ∀ later, reportedOnce s.1.programIdx s.1.metadataSeen (attributes ++ later) =
        reportedOnce s.1.programIdx s.1.metadataSeen attributes ++
          reportedOnce s.1.programIdx (attributes.foldl add s).1.metadataSeen later := by
  induction attributes generalizing s with
  | nil => exact ⟨(List.append_nil _).symm, fun later => rfl⟩
  | cons a rest ih =>
    obtain ⟨hnew, hlater⟩ := ih (add s a)
    rw [List.foldl_cons, hnew]
    obtain ⟨attr, value⟩ := a
    cases attr with
    | timer k => exact ⟨rfl, hlater⟩
    | eventType k => exact ⟨rfl, hlater⟩
    | counter k => exact ⟨rfl, hlater⟩
    | metadata rank tid descr =>
      have hadd : add s (metadata rank tid descr, value) =
        (report s.1 (metadata rank tid descr).name
          { pid := s.1.programIdx, rid := rank.value, tid := tid.value
            descr := String.ofList descr.chars, value := removeQuotes value }, s.2) := rfl
      have honce : ∀ seen others, reportedOnce s.1.programIdx seen
          ((metadata rank tid descr, value) :: others) =
            if (metadata rank tid descr).name ∈ seen then reportedOnce s.1.programIdx seen others
            else { pid := s.1.programIdx, rid := rank.value, tid := tid.value
                   descr := String.ofList descr.chars, value := removeQuotes value } ::
              reportedOnce s.1.programIdx ((metadata rank tid descr).name :: seen) others :=
        fun seen others => rfl
      rw [hadd] at hlater ⊢
      simp only [honce, List.cons_append]
      by_cases hseen : (metadata rank tid descr).name ∈ s.1.metadataSeen
      · simp only [report, if_pos hseen] at hlater ⊢
        exact ⟨trivial, hlater⟩
      · simp only [report, if_neg hseen] at hlater ⊢
        refine ⟨List.append_assoc _ _ _, fun later => ?_⟩
        exact congrArg (List.cons _) (hlater later)

end Add

/-- A table of plain attributes is recognised. -/
theorem foldlM_addAttribute_plain (s : ADParserAttributes × List (ℤ × String))
    {attributes : List (Attribute × String)} (h : ∀ a ∈ attributes, a.1.Plain) :
    (attributes.map toEntry).foldlM addAttribute s = .ok (attributes.foldl add s) := by
  induction attributes generalizing s with
  | nil => rfl
  | cons a rest ih =>
    rw [List.map_cons, List.foldlM_cons, addAttribute_plain s (h a List.mem_cons_self)]
    exact ih (add s a) fun b hb => h b (List.mem_cons_of_mem a hb)

/-- The functions of a list are looked up as a batch and added under their global indices. -/
theorem addFunctions_eq (self : ADParserAttributes) (server : PSglobalFunctionIndexMap)
    (pairs : List (ℤ × String)) : ∃ globalFuncIdxMap server' globIdx,
      self.globalFuncIdxMap.lookupBatch server (pairs.map fun p => (p.1 % 2 ^ 64).toNat)
        (pairs.map Prod.snd) = .ok (globalFuncIdxMap, server', globIdx) ∧
      globIdx.length = pairs.length ∧
      self.addFunctions server pairs = .ok ({ self with
        globalFuncIdxMap := globalFuncIdxMap
        funcMap := ((globIdx.zip (pairs.map Prod.snd)).map fun e => (toInt e.1, e.2)).foldl
          (fun m e => insertNew m e.1 e.2) self.funcMap }, server') := by
  obtain ⟨globalFuncIdxMap, server', globIdx, hbatch, hlength⟩ :=
    self.globalFuncIdxMap.lookupBatch_total server
      (pairs.map fun p => (p.1 % 2 ^ 64).toNat) (pairs.map Prod.snd)
      (by rw [List.length_map, List.length_map])
  rw [List.length_map] at hlength
  refine ⟨globalFuncIdxMap, server', globIdx, hbatch, hlength, ?_⟩
  unfold addFunctions
  by_cases hpairs : pairs = []
  · subst hpairs
    rw [List.map_nil, List.map_nil, ADglobalFunctionIndexMap.lookupBatch_nil] at hbatch
    cases hbatch
    rfl
  · rw [if_neg hpairs, hbatch]
    simp only [List.foldl_map]
    rfl

/-- The attributes of steps, as they are found in the tables. -/
def tables (steps : List (PSglobalFunctionIndexMap × List (Attribute × String))) :
    List (PSglobalFunctionIndexMap × AttributeTable) :=
  steps.map fun step => (step.1, step.2.map toEntry)

/-- The attributes of all steps. -/
def attributesOf (steps : List (PSglobalFunctionIndexMap × List (Attribute × String))) :
    List (Attribute × String) :=
  steps.flatMap Prod.snd

/-- What was known before, or else what the fetched attributes say. -/
structure Known (before after : ADParserAttributes)
    (fetched : List (PSglobalFunctionIndexMap × List (Attribute × String))) : Prop where
  eventType : ∀ key, after.eventType.lookup key = (before.eventType.lookup key).or
    (firstValue (entries eventTypeKey (attributesOf fetched)) key)
  counterMap : ∀ key, after.counterMap.lookup key = (before.counterMap.lookup key).or
    (firstValue (entries counterKey (attributesOf fetched)) key)
  funcMap : ∀ key, after.funcMap.lookup key = (before.funcMap.lookup key).or
    (firstValue (globalTimers before.globalFuncIdxMap fetched) key)

/-- What a step that fetches plain attributes does. -/
structure Recognises (before : ADParserAttributes) (server : PSglobalFunctionIndexMap)
    (attributes : List (Attribute × String)) (after : ADParserAttributes) : Prop where
  engineType : after.engineType = before.engineType
  opened : after.opened = before.opened
  attrOnce : after.attrOnce = true
  newMetadata : after.newMetadata =
    reportedOnce before.programIdx before.metadataSeen attributes
  later : ∀ later, reportedOnce before.programIdx before.metadataSeen (attributes ++ later) =
    reportedOnce before.programIdx before.metadataSeen attributes ++
      reportedOnce after.programIdx after.metadataSeen later
  eventType : ∀ key, after.eventType.lookup key = (before.eventType.lookup key).or
    (firstValue (entries eventTypeKey attributes) key)
  counterMap : ∀ key, after.counterMap.lookup key = (before.counterMap.lookup key).or
    (firstValue (entries counterKey attributes) key)
  funcMap : ∀ later key, (after.funcMap.lookup key).or
      (firstValue (globalTimers after.globalFuncIdxMap later) key) =
    (before.funcMap.lookup key).or
      (firstValue (globalTimers before.globalFuncIdxMap ((server, attributes) :: later)) key)

/-- A step that fetches plain attributes recognises them. -/
theorem updateAttributes_plain {before : ADParserAttributes} (hfetches : before.fetches = true)
    (server : PSglobalFunctionIndexMap) {attributes : List (Attribute × String)}
    (hplain : ∀ a ∈ attributes, a.1.Plain) : ∃ after server',
      before.updateAttributes server (attributes.map toEntry) = .ok (after, server') ∧
        Recognises before server attributes after := by
  have htable := foldlM_addAttribute_plain ({ before with newMetadata := [] }, []) hplain
  have hsame := foldl_add_sameFunctions ({ before with newMetadata := [] }, []) attributes
  have htimers := foldl_add_timers ({ before with newMetadata := [] }, []) attributes
  have hevents := foldl_add_eventType ({ before with newMetadata := [] }, []) attributes
  have hcounters := foldl_add_counterMap ({ before with newMetadata := [] }, []) attributes
  obtain ⟨hnew, hlater⟩ := foldl_add_reported ({ before with newMetadata := [] }, []) attributes
  rw [List.nil_append] at htimers hnew
  generalize attributes.foldl add ({ before with newMetadata := [] }, []) = s at *
  obtain ⟨globalFuncIdxMap, server', globIdx, hbatch, hlength, hadd⟩ :=
    addFunctions_eq s.1 server s.2
  refine ⟨{ s.1 with
    globalFuncIdxMap := globalFuncIdxMap
    funcMap := ((globIdx.zip (s.2.map Prod.snd)).map fun e => (toInt e.1, e.2)).foldl
      (fun m e => insertNew m e.1 e.2) s.1.funcMap
    attrOnce := true }, server', ?_,
      ⟨hsame.engineType, hsame.opened, rfl, hnew, ?_, ?_, ?_, ?_⟩⟩
  · rw [updateAttributes_fetches hfetches, htable]
    simp only [bind, Except.bind, hadd]
    rfl
  · intro later
    exact (hlater later).trans (by simp only [hsame.programIdx])
  · intro key
    simp only [hevents, lookup_foldl_insertNew]
  · intro key
    simp only [hcounters, lookup_foldl_insertNew]
  · intro later key
    rw [hsame.globalFuncIdxMap, htimers] at hbatch
    have hglobal : globalTimers before.globalFuncIdxMap ((server, attributes) :: later) =
        ((globIdx.zip ((entries timerKey attributes).map Prod.snd)).map
          fun e => (toInt e.1, e.2)) ++ globalTimers globalFuncIdxMap later := by
      rw [globalTimers]
      simp only [hbatch]
    rw [hglobal, firstValue_append]
    simp only [hsame.funcMap, htimers, lookup_foldl_insertNew, Option.or_assoc]

/-- A run over plain attributes. -/
theorem runUpdates_plain (steps : List (PSglobalFunctionIndexMap × List (Attribute × String)))
    (before : ADParserAttributes) (hclosed : before.opened = false → before.newMetadata = [])
    (hplain : ∀ a ∈ attributesOf (before.presented steps), a.1.Plain) :
    ∃ after, before.runUpdates (tables steps) =
        .ok (reportedOnce before.programIdx before.metadataSeen
          (attributesOf (before.presented steps)), after) ∧
      Known before after (before.presented steps) := by
  induction steps generalizing before with
  | nil =>
    refine ⟨before, rfl, fun key => ?_, fun key => ?_, fun key => ?_⟩
    · exact Option.or_none.symm
    · exact Option.or_none.symm
    · exact Option.or_none.symm
  | cons step rest ih =>
    obtain ⟨server, attributes⟩ := step
    have htables : tables ((server, attributes) :: rest) =
      (server, attributes.map toEntry) :: tables rest := rfl
    cases hfetches : before.fetches with
    | false =>
      have hpresented : before.presented ((server, attributes) :: rest) =
          presented { before with newMetadata := [] } rest := by
        rw [presented, hfetches]
        exact presented_congr before { before with newMetadata := [] } rfl rfl rfl rest
      rw [hpresented] at hplain ⊢
      obtain ⟨after, hrun, hknown⟩ := ih { before with newMetadata := [] } (fun _ => rfl) hplain
      refine ⟨after, ?_, ⟨hknown.eventType, hknown.counterMap, hknown.funcMap⟩⟩
      rw [htables, runUpdates, updateAttributes_skips hfetches hclosed]
      simp only [bind, Except.bind] at hrun ⊢
      rw [hrun]
      rfl
    | true =>
      rw [presented, if_pos hfetches] at hplain ⊢
      have hattributes : ∀ later, attributesOf ((server, attributes) :: later) =
        attributes ++ attributesOf later := fun later => rfl
      rw [hattributes] at hplain
      obtain ⟨next, server', hupdate, hnext⟩ := updateAttributes_plain hfetches server
        fun a ha => hplain a (List.mem_append_left _ ha)
      have hrest : presented { before with attrOnce := true } rest = next.presented rest := by
        apply presented_congr
        · exact hnext.engineType.symm
        · exact hnext.opened.symm
        · exact hnext.attrOnce.symm
      rw [hrest] at hplain ⊢
      have hopened : next.opened = true := by
        rw [fetches, decide_eq_true_eq] at hfetches
        exact hnext.opened.trans hfetches.1
      obtain ⟨after, hrun, hknown⟩ := ih next (fun hfalse => by
        rw [hopened] at hfalse
        cases hfalse) fun a ha => hplain a (List.mem_append_right _ ha)
      refine ⟨after, ?_, ⟨fun key => ?_, fun key => ?_, fun key => ?_⟩⟩
      · rw [htables, runUpdates, hupdate]
        simp only [bind, Except.bind] at hrun ⊢
        rw [hrun, hnext.newMetadata, hattributes, hnext.later]
        rfl
      · rw [hknown.eventType, hnext.eventType, hattributes, entries_append, firstValue_append,
          Option.or_assoc]
      · rw [hknown.counterMap, hnext.counterMap, hattributes, entries_append, firstValue_append,
          Option.or_assoc]
      · rw [hknown.funcMap, hnext.funcMap]

/-- Reported metadata have numbers that could be read, and none of the words that mark other
attributes occurs in their descriptions. -/
def Readable (m : MetaData) : Prop :=
  m.rid < 2 ^ 64 ∧ m.tid < 2 ^ 64 ∧ ∀ word ∈ words, ¬ word.toList <:+: m.descr.toList

/-- A name without the words that mark other attributes. -/
theorem not_infix_of_metadata {name : String} (h : attributeType name = .Metadata) :
    ∀ word ∈ words, ¬ word.toList <:+: name.toList := by
  intro word hword hoccurs
  have hcontains : contains name word = true := decide_eq_true hoccurs
  unfold attributeType at h
  rcases List.mem_cons.mp hword with rfl | hword
  · rw [if_pos hcontains] at h
    cases h
  rcases List.mem_cons.mp hword with rfl | hword
  · rw [if_pos hcontains] at h
    split at h
    · cases h
    · cases h
  rcases List.mem_singleton.mp hword with rfl
  rw [if_pos hcontains] at h
  split at h
  · cases h
  · split at h
    · cases h
    · cases h

/-- A description is a part of the name it was found in. -/
theorem suffix_of_matchMetaData {name rank tid descr : List Char}
    (h : matchMetaData name = some (rank, tid, descr)) : descr <:+ name := by
  unfold matchMetaData at h
  split at h
  · simp only at h
    split at h
    · rename_i rest hrest
      split at h
      · rename_i descr' hdescr
        split at h
        · cases h
        · cases h
          have hdescr' := (List.suffix_cons ':' descr).trans
            (hdescr ▸ List.dropWhile_suffix Char.isDigit)
          have hrest' := (List.suffix_cons ':' rest).trans
            (hrest ▸ List.dropWhile_suffix Char.isDigit)
          exact hdescr'.trans (hrest'.trans (List.drop_suffix 9 name))
      · cases h
    · cases h
  · cases h

/-- What an attribute may do: report metadata or add an entry. -/
theorem addAttribute_cases {s t : ADParserAttributes × List (ℤ × String)}
    {attributePair : String × Option String} (h : addAttribute s attributePair = .ok t) :
    t = s ∨ (∃ type key value, t = addEntry s type key value) ∨
      ∃ reported seen, Readable reported ∧ t = ({ s.1 with
        newMetadata := s.1.newMetadata ++ [reported]
        metadataSeen := seen }, s.2) := by
  obtain ⟨name, value⟩ := attributePair
  unfold addAttribute at h
  simp only at h
  split at h
  · rename_i htype
    obtain ⟨next, hadd, hnext⟩ := bind_eq_ok h
    cases hnext
    unfold addMetadata at hadd
    split at hadd
    · cases hadd
      exact Or.inl rfl
    · split at hadd
      · cases hadd
        exact Or.inl rfl
      · rename_i rank tid descr hmatch
        obtain ⟨rid, hrid, hadd⟩ := bind_eq_ok hadd
        obtain ⟨tid, htid, hadd⟩ := bind_eq_ok hadd
        split at hadd
        · cases hadd
        · cases hadd
          refine Or.inr (Or.inr ⟨_, _, ⟨stoul_lt hrid, stoul_lt htid, ?_⟩, rfl⟩)
          intro word hword hoccurs
          rw [String.toList_ofList] at hoccurs
          exact not_infix_of_metadata htype word hword
            (hoccurs.trans (suffix_of_matchMetaData hmatch).isInfix)
  · cases h
    exact Or.inl rfl
  · split at h
    · cases h
      exact Or.inl rfl
    · obtain ⟨key, -, hentry⟩ := bind_eq_ok h
      split at hentry
      · cases hentry
        exact Or.inl rfl
      · cases hentry
        exact Or.inr (Or.inl ⟨_, _, _, rfl⟩)

/-- An entry for a timer, an event type or a counter reports nothing. -/
theorem addEntry_frame (s : ADParserAttributes × List (ℤ × String)) (type : AttributeType)
    (key : ℤ) (value : String) : SameFunctions (addEntry s type key value).1 s.1 ∧
      (addEntry s type key value).1.newMetadata = s.1.newMetadata := by
  cases type with
  | Func => exact ⟨⟨rfl, rfl, rfl, rfl, rfl⟩, rfl⟩
  | Event => exact ⟨⟨rfl, rfl, rfl, rfl, rfl⟩, rfl⟩
  | Counter => exact ⟨⟨rfl, rfl, rfl, rfl, rfl⟩, rfl⟩
  | Metadata => exact ⟨⟨rfl, rfl, rfl, rfl, rfl⟩, rfl⟩
  | Unknown => exact ⟨⟨rfl, rfl, rfl, rfl, rfl⟩, rfl⟩

/-- Adding functions reports nothing. -/
theorem addFunctions_frame {before after : ADParserAttributes}
    {server server' : PSglobalFunctionIndexMap} {pairs : List (ℤ × String)}
    (h : before.addFunctions server pairs = .ok (after, server')) :
    after.engineType = before.engineType ∧ after.opened = before.opened ∧
      after.newMetadata = before.newMetadata := by
  unfold addFunctions at h
  split at h
  · cases h
    exact ⟨rfl, rfl, rfl⟩
  · obtain ⟨looked, -, hlooked⟩ := bind_eq_ok h
    cases hlooked
    exact ⟨rfl, rfl, rfl⟩

/-- If a step that fetches attributes succeeds, each of them was read, and what it reports is
readable. -/
theorem updateAttributes_ok {before after : ADParserAttributes} (hfetches : before.fetches = true)
    {server server' : PSglobalFunctionIndexMap} {available : AttributeTable}
    (h : before.updateAttributes server available = .ok (after, server')) :
    (after.engineType = before.engineType ∧ after.opened = before.opened ∧
      after.attrOnce = true) ∧
      (∀ p ∈ available, ∃ s t, addAttribute s p = .ok t) ∧
        ∀ m ∈ after.newMetadata, Readable m := by
  rw [updateAttributes_fetches hfetches] at h
  obtain ⟨⟨table, pairs⟩, hfold, h⟩ := bind_eq_ok h
  obtain ⟨⟨next, server''⟩, hadd, h⟩ := bind_eq_ok h
  cases h
  obtain ⟨hengine, hopened, hreported⟩ := addFunctions_frame hadd
  have hinv : SameFunctions table { before with newMetadata := [] } ∧
      ∀ m ∈ table.newMetadata, Readable m := by
    refine foldlM_invariant (P := fun s => SameFunctions s.1 { before with newMetadata := [] } ∧
      ∀ m ∈ s.1.newMetadata, Readable m) ?_ available ?_ hfold
    · intro s p t hs hstep
      obtain ⟨hsame, hreadable⟩ := hs
      rcases addAttribute_cases hstep with rfl | ⟨type, key, value, rfl⟩ |
        ⟨reported, seen, hreported, rfl⟩
      · exact ⟨hsame, hreadable⟩
      · obtain ⟨hentry, hnew⟩ := addEntry_frame s type key value
        rw [hnew]
        exact ⟨⟨hentry.engineType.trans hsame.engineType, hentry.opened.trans hsame.opened,
          hentry.programIdx.trans hsame.programIdx, hentry.funcMap.trans hsame.funcMap,
          hentry.globalFuncIdxMap.trans hsame.globalFuncIdxMap⟩, hreadable⟩
      · refine ⟨⟨hsame.engineType, hsame.opened, hsame.programIdx, hsame.funcMap,
          hsame.globalFuncIdxMap⟩, fun m hm => ?_⟩
        rcases List.mem_append.mp hm with hold | hnew
        · exact hreadable m hold
        · rw [List.mem_singleton.mp hnew]
          exact hreported
    · exact ⟨⟨rfl, rfl, rfl, rfl, rfl⟩, fun m hm => absurd hm List.not_mem_nil⟩
  refine ⟨⟨hengine.trans hinv.1.engineType, hopened.trans hinv.1.opened, rfl⟩, ?_, ?_⟩
  · exact fun p hp => foldlM_mem hfold hp
  · rw [hreported]
    exact hinv.2

/-- If a run succeeds, every presented attribute was read, and what was reported is readable. -/
theorem runUpdates_ok (steps : List (PSglobalFunctionIndexMap × List (Attribute × String)))
    {before after : ADParserAttributes} {reported : List MetaData}
    (hclosed : before.opened = false → before.newMetadata = [])
    (h : before.runUpdates (tables steps) = .ok (reported, after)) :
    (∀ a ∈ attributesOf (before.presented steps), ∃ s t, addAttribute s (toEntry a) = .ok t) ∧
      ∀ m ∈ reported, Readable m := by
  induction steps generalizing before reported with
  | nil =>
    cases h
    exact ⟨fun a ha => absurd ha List.not_mem_nil, fun m hm => absurd hm List.not_mem_nil⟩
  | cons step rest ih =>
    obtain ⟨server, attributes⟩ := step
    have htables : tables ((server, attributes) :: rest) =
      (server, attributes.map toEntry) :: tables rest := rfl
    rw [htables, runUpdates] at h
    obtain ⟨⟨next, server'⟩, hupdate, h⟩ := bind_eq_ok h
    obtain ⟨⟨later, final⟩, hrun, h⟩ := bind_eq_ok h
    cases h
    cases hfetches : before.fetches with
    | false =>
      rw [updateAttributes_skips hfetches hclosed] at hupdate
      cases hupdate
      have hpresented : before.presented ((server, attributes) :: rest) =
          presented { before with newMetadata := [] } rest := by
        rw [presented, hfetches]
        exact presented_congr before { before with newMetadata := [] } rfl rfl rfl rest
      rw [hpresented]
      exact ih (fun _ => rfl) hrun
    | true =>
      obtain ⟨⟨hengine, hopened, honce⟩, hread, hreadable⟩ := updateAttributes_ok hfetches hupdate
      have hrest : presented { before with attrOnce := true } rest = next.presented rest := by
        apply presented_congr
        · exact hengine.symm
        · exact hopened.symm
        · exact honce.symm
      obtain ⟨hread', hreadable'⟩ := ih (fun hfalse => by
        rw [fetches, decide_eq_true_eq] at hfetches
        rw [hopened, hfetches.1] at hfalse
        cases hfalse) hrun
      rw [presented, if_pos hfetches, hrest]
      constructor
      · intro a ha
        rcases List.mem_append.mp ha with hfirst | hmem
        · exact hread (toEntry a) (List.mem_map_of_mem hfirst)
        · exact hread' a hmem
      · intro m hm
        rcases List.mem_append.mp hm with hfirst | hmem
        · exact hreadable m hfirst
        · exact hreadable' m hmem

/-- The parts of a metadata attribute can be read off its name. -/
theorem metadata_of_name_eq {rank rank' tid tid' : Digits} {descr descr' : Description}
    (h : (metadata rank tid descr).name = (metadata rank' tid' descr').name) :
    rank.chars = rank'.chars ∧ tid.chars = tid'.chars ∧ descr.chars = descr'.chars := by
  rw [name_metadata, name_metadata] at h
  have hmatch := congrArg matchMetaData (String.ofList_injective h)
  rw [matchMetaData_metadataName, matchMetaData_metadataName] at hmatch
  simpa using hmatch

/-- Every metadata attribute is reported if its name was not seen before. -/
theorem exists_mem_reportedOnce (programIdx : ℕ) (attributes : List (Attribute × String))
    (seen : List String) {rank tid : Digits} {descr : Description} {value : String}
    (hmem : (metadata rank tid descr, value) ∈ attributes)
    (hseen : (metadata rank tid descr).name ∉ seen) :
    ∃ m ∈ reportedOnce programIdx seen attributes, m.rid = rank.value ∧ m.tid = tid.value ∧
      m.descr.toList = descr.chars := by
  induction attributes generalizing seen with
  | nil => cases hmem
  | cons a rest ih =>
    obtain ⟨attr, value'⟩ := a
    cases attr with
    | timer k => exact ih seen (by simpa using hmem) hseen
    | eventType k => exact ih seen (by simpa using hmem) hseen
    | counter k => exact ih seen (by simpa using hmem) hseen
    | metadata rank' tid' descr' =>
      have honce : reportedOnce programIdx seen ((metadata rank' tid' descr', value') :: rest) =
          if (metadata rank' tid' descr').name ∈ seen then reportedOnce programIdx seen rest
          else { pid := programIdx, rid := rank'.value, tid := tid'.value
                 descr := String.ofList descr'.chars, value := removeQuotes value' } ::
            reportedOnce programIdx ((metadata rank' tid' descr').name :: seen) rest := rfl
      rw [honce]
      by_cases hname : (metadata rank tid descr).name = (metadata rank' tid' descr').name
      · obtain ⟨hrank, htid, hdescr⟩ := metadata_of_name_eq hname
        rw [if_neg (hname ▸ hseen)]
        refine ⟨_, List.mem_cons_self, ?_, ?_, ?_⟩
        · exact congrArg decimalValue hrank.symm
        · exact congrArg decimalValue htid.symm
        · rw [String.toList_ofList, hdescr]
      · have hrest : (metadata rank tid descr, value) ∈ rest := by
          rcases List.mem_cons.mp hmem with heq | hrest
          · exact absurd (congrArg (fun a => a.1.name) heq) hname
          · exact hrest
        split
        · exact ih seen hrest hseen
        · obtain ⟨m, hm, hparts⟩ := ih ((metadata rank' tid' descr').name :: seen) hrest (by
            rw [List.mem_cons, not_or]
            exact ⟨hname, hseen⟩)
          exact ⟨m, List.mem_cons_of_mem _ hm, hparts⟩

/-- The timers of all steps are looked up, each under its name. -/
theorem map_globalTimers
    (steps : List (PSglobalFunctionIndexMap × List (Attribute × String)))
    (globalFuncIdxMap : ADglobalFunctionIndexMap) :
    (globalTimers globalFuncIdxMap steps).map Prod.snd =
      (entries timerKey (attributesOf steps)).map Prod.snd := by
  induction steps generalizing globalFuncIdxMap with
  | nil => rfl
  | cons step rest ih =>
    obtain ⟨server, attributes⟩ := step
    have hattributes : attributesOf ((server, attributes) :: rest) =
      attributes ++ attributesOf rest := rfl
    obtain ⟨next, server', globIdx, hbatch, hlength⟩ := globalFuncIdxMap.lookupBatch_total server
      ((entries timerKey attributes).map fun p => (p.1 % 2 ^ 64).toNat)
      ((entries timerKey attributes).map Prod.snd) (by rw [List.length_map, List.length_map])
    rw [globalTimers, hattributes, entries_append, List.map_append, ← ih next]
    simp only [hbatch, List.map_append, List.map_map]
    rw [List.length_map] at hlength
    refine congrArg (· ++ _) (List.map_snd_zip ?_)
    rw [hlength, List.length_map]

/-- The attributes of a run are recognised by the forms of their names: no call throws, metadata
are reported once for each name, and the maps hold the first value that is given for a timer, under
its global index, for an event type and for a counter, and nothing else. -/
structure Recognised (start : ADParserAttributes)
    (steps : List (PSglobalFunctionIndexMap × List (Attribute × String)))
    (reported : List MetaData) (final : ADParserAttributes) : Prop where
  run : start.runUpdates (tables steps) = .ok (reported, final)
  reported : reported =
    reportedOnce start.programIdx [] (attributesOf (start.presented steps))
  eventType : ∀ key, final.eventType.lookup key =
    firstValue (entries eventTypeKey (attributesOf (start.presented steps))) key
  counterMap : ∀ key, final.counterMap.lookup key =
    firstValue (entries counterKey (attributesOf (start.presented steps))) key
  funcMap : ∀ key, final.funcMap.lookup key =
    firstValue (globalTimers start.globalFuncIdxMap (start.presented steps)) key
  timers : (globalTimers start.globalFuncIdxMap (start.presented steps)).map Prod.snd =
    (entries timerKey (attributesOf (start.presented steps))).map Prod.snd

/-- The attributes of a run are recognised by the forms of their names exactly if their numbers
can be represented and no description contains a word that marks other attributes. -/
theorem attributes_recognised_iff (engineType : String) (opened : Bool) (programIdx : ℕ)
    (connectedToPS : Bool)
    (steps : List (PSglobalFunctionIndexMap × List (Attribute × String))) :
    (∃ reported final,
      Recognised (new engineType opened programIdx connectedToPS) steps reported final) ↔
      ∀ a ∈ attributesOf ((new engineType opened programIdx connectedToPS).presented steps),
        a.1.Plain := by
  have hclosed : (new engineType opened programIdx connectedToPS).opened = false →
    (new engineType opened programIdx connectedToPS).newMetadata = [] := fun _ => rfl
  constructor
  · rintro ⟨reported, final, h⟩ ⟨attr, value⟩ ha
    obtain ⟨hread, hreadable⟩ := runUpdates_ok steps hclosed h.run
    obtain ⟨s, t, hadd⟩ := hread (attr, value) ha
    cases attr with
    | timer k =>
      rw [addAttribute_timer] at hadd
      by_cases hfits : k.FitsInt
      · exact hfits
      · rw [if_neg hfits] at hadd
        cases hadd
    | eventType k =>
      rw [addAttribute_eventType] at hadd
      by_cases hfits : k.FitsInt
      · exact hfits
      · rw [if_neg hfits] at hadd
        cases hadd
    | counter k =>
      rw [addAttribute_counter] at hadd
      by_cases hfits : k.FitsInt
      · exact hfits
      · rw [if_neg hfits] at hadd
        cases hadd
    | metadata rank tid descr =>
      obtain ⟨m, hm, hrank, htid, hdescr⟩ :=
        exists_mem_reportedOnce programIdx _ [] ha List.not_mem_nil
      rw [h.reported] at hreadable
      obtain ⟨hrid, htid', hwords⟩ := hreadable m hm
      rw [hrank] at hrid
      rw [htid] at htid'
      rw [hdescr] at hwords
      exact ⟨hrid, htid', hwords⟩
  · intro hplain
    obtain ⟨final, hrun, hknown⟩ := runUpdates_plain steps _ hclosed hplain
    refine ⟨_, final, hrun, rfl, fun key => ?_, fun key => ?_, fun key => ?_,
      map_globalTimers _ _⟩
    · rw [hknown.eventType]
      rfl
    · rw [hknown.counterMap]
      rfl
    · rw [hknown.funcMap]
      rfl

/-- Metadata whose description is `timer resolution`. -/
private def timerResolution : Attribute :=
  metadata ⟨['0'], by simp, by simp⟩ ⟨['0'], by simp, by simp⟩
    ⟨"timer resolution".toList, by simp, by simp [isLineEnd]⟩

/-- The metadata are taken for a timer whose number cannot be read. -/
theorem not_recognised_timerResolution : ¬ ∃ reported final,
    Recognised (new "SST" true 0 false) [(.new, [(timerResolution, "1")])] reported final := by
  rintro ⟨reported, final, h⟩
  have herror : (new "SST" true 0 false).runUpdates
      (tables [(.new, [(timerResolution, "1")])]) = .error "stoi" := by
    rfl
  rw [h.run] at herror
  cases herror

end Attribute

end Chimbuko
