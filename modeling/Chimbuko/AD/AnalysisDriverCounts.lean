import Chimbuko.AD.AnalysisDriverModels

/-!
# How often an execution is counted

Each completed execution that is offered to the algorithm should go into the model once, unless it
is left out as the first one of its function on its thread. What an analysis takes and does not
label is offered again, and its value goes into the local model again. So executions are counted
once as long as each analysis labels what it takes, which depends on the model that it labels by:
the copy of the global model, what the parameter server replies, or the merger with all values so
far.
-/

namespace Chimbuko

open ADExecDataInterface ADOutlier Batching TransitionSystem

/-- Reading a frame leaves the analyses. -/
theorem Driver.analyses_readStep {self t : Driver} {input : StepInput} {haveData : Bool}
    (h : self.readStep input = .ok (t, haveData)) : t.analyses = self.analyses := by
  unfold readStep at h
  cases hparsed : input.parsed with
  | none =>
    rw [hparsed] at h
    cases h
    rfl
  | some p =>
    rw [hparsed] at h
    obtain ⟨t', hread, h⟩ := bind_eq_ok h
    cases h
    obtain ⟨events, manager, registered, -, -, -, ht⟩ := readFrame_ok hread
    rw [ht]
    rfl

instance [LibM] : ∀ (algo : AlgoParams) (param : algo.Param) (idx : ℕ),
    Decidable (algo.Usable param idx)
  | .sstd _, param, idx => inferInstanceAs (Decidable ¬(ADOutlierSSTD.statsAt param idx).count < 2)
  | .hbos .., param, idx =>
    inferInstanceAs (Decidable ¬(HbosParam.fparamAt param idx).histogram.nbin = 0)
  | .copod _, param, idx =>
    inferInstanceAs (Decidable ¬(CopodParam.fparamAt param idx).histogram.nbin = 0)

namespace AnalysisDriver

variable {params : AnalysisParams} {model : params.algo.Param}

/-- The values of a function that went into the local model are as many as the executions that were
offered, but for the first ones on their threads that were left out. -/
def CountedOnce (s : AnalysisDriver params.algo.Param) (fid : ℕ) : Prop :=
  (valuesAt s.given.flatten fid).length + (s.funcSeen.filter fun seen => seen.2 = fid).length =
    (s.driver.executions fid).toFinset.card

instance (s : AnalysisDriver params.algo.Param) (fid : ℕ) : Decidable (s.CountedOnce fid) :=
  inferInstanceAs (Decidable (_ = _))

/-- How many executions of a function the next analysis takes: those that wait, but for one on each
thread on which none was seen. -/
def takenCount (s : AnalysisDriver params.algo.Param) (fid : ℕ) : ℕ :=
  let waiting := s.driver.manager.execDataMap fid
  waiting.length - if params.ignoresFirst then
    ((waiting.map (site s.driver.manager)).toFinset \ s.funcSeen.toFinset).card else 0

/-- What was offered of each function: what was taken, and what is completed and does not wait. -/
structure Offers (s : AnalysisDriver params.algo.Param) : Prop where
  closed : ∀ fid, ∀ it ∈ s.driver.executions fid, s.driver.manager.Closed it ∧
    (s.driver.manager.calls it).fid = fid
  waiting : ∀ fid, ∀ it ∈ s.driver.executions fid, it ∈ s.driver.manager.execDataMap fid →
    ∃ g ∈ s.given, ∃ e ∈ g, e.call = it
  taken : ∀ g ∈ s.given, ∀ e ∈ g, e.call ∈ s.driver.executions e.fid
  settled : ∀ it, s.driver.manager.Closed it →
    it ∉ s.driver.manager.execDataMap (s.driver.manager.calls it).fid →
      it ∈ s.driver.executions (s.driver.manager.calls it).fid

/-- At the start nothing was offered. -/
theorem offers_start [LibM] (model : params.algo.Param) : Offers (start params model) := by
  refine ⟨fun _ _ h => absurd h List.not_mem_nil, fun _ _ h => absurd h List.not_mem_nil,
    fun _ h => absurd h List.not_mem_nil, fun it h => ?_⟩
  exact absurd h.1 (Nat.not_lt_zero it)

/-- What was offered depends on the executions, the analyses and what was taken. -/
theorem Offers.congr {s t : AnalysisDriver params.algo.Param} (h : Offers s)
    (hmanager : t.driver.manager = s.driver.manager)
    (hanalyses : t.driver.analyses = s.driver.analyses) (hgiven : t.given = s.given) :
    Offers t := by
  have hexecutions : t.driver.executions = s.driver.executions := by
    funext fid
    unfold Driver.executions
    rw [hanalyses]
  constructor
  · rw [hmanager, hexecutions]
    exact h.closed
  · rw [hmanager, hexecutions, hgiven]
    exact h.waiting
  · rw [hexecutions, hgiven]
    exact h.taken
  · rw [hmanager, hexecutions]
    exact h.settled

/-- Reading a frame offers nothing, and what it completes waits. -/
theorem Offers.completes {s : AnalysisDriver params.algo.Param} (h : Offers s)
    (hexecutions : s.driver.manager.Executions) {driver : Driver}
    (h' : s.driver.manager.Completes driver.manager)
    (hanalyses : driver.analyses = s.driver.analyses) :
    Offers { s with driver := driver } := by
  have hoffered : ∀ fid, driver.executions fid = s.driver.executions fid := by
    intro fid
    unfold Driver.executions
    rw [hanalyses]
  have hfid : ∀ it, s.driver.manager.Closed it →
      (driver.manager.calls it).fid = (s.driver.manager.calls it).fid := fun it hit =>
    congrArg Prod.snd (h'.labelOf it hit.1)
  have hmap : ∀ fid it, s.driver.manager.Closed it →
      (it ∈ driver.manager.execDataMap fid ↔ it ∈ s.driver.manager.execDataMap fid) := by
    intro fid it hit
    obtain ⟨new, hnew, -, hopen⟩ := h'.execData hexecutions.stacksValid fid
    rw [hnew, List.mem_append]
    exact ⟨fun hmem => hmem.resolve_right fun hin => (hopen it hin).1 hit, Or.inl⟩
  refine ⟨fun fid it hit => ?_, fun fid it hit hmem => ?_, fun g hg e he => ?_,
    fun it hit hnot => ?_⟩
  · rw [hoffered] at hit
    obtain ⟨hclosed, hfunc⟩ := h.closed fid it hit
    exact ⟨h'.closed it hclosed, (hfid it hclosed).trans hfunc⟩
  · rw [hoffered] at hit
    exact h.waiting fid it hit ((hmap fid it (h.closed fid it hit).1).mp hmem)
  · rw [hoffered]
    exact h.taken g hg e he
  · dsimp only at hit hnot ⊢
    rw [hoffered]
    by_cases hclosed : s.driver.manager.Closed it
    · rw [hfid it hclosed, hmap _ _ hclosed] at hnot
      rw [hfid it hclosed]
      exact h.settled it hclosed hnot
    · exact absurd (h'.pushed hexecutions.stacksValid it hclosed hit) hnot

/-- An analysis offers what waits, and takes what it does not label or leave out. -/
theorem Offers.took {s t : AnalysisDriver params.algo.Param} (h : Offers s)
    (hexecutions : s.driver.manager.Executions)
    (hunlabeled : ∀ fid, ∀ it ∈ s.driver.manager.execDataMap fid,
      (s.driver.manager.calls it).label = 0)
    {ignored : List CallRef} {g : List GivenExec}
    (htook : Took params.valueOf s.driver.manager t.driver.manager ignored g)
    (hgiven : t.given = s.given ++ [g])
    (hoffered : ∀ fid, t.driver.executions fid =
      s.driver.executions fid ++ s.driver.manager.execDataMap fid) :
    Offers t := by
  have hclosed : ∀ it, t.driver.manager.Closed it ↔ s.driver.manager.Closed it := by
    intro it
    unfold ADEvent.Closed
    rw [htook.callStack, htook.nextRef]
  refine ⟨fun fid it hit => ?_, fun fid it hit hmem => ?_, fun g' hg' e he => ?_,
    fun it hit hnot => ?_⟩
  · rw [hclosed, htook.fid]
    rw [hoffered] at hit
    rcases List.mem_append.mp hit with hold | hnew
    · exact h.closed fid it hold
    · exact hexecutions.closed fid it hnew
  · rw [hgiven]
    obtain ⟨e, he, hcall, -⟩ := htook.given_of_waits hexecutions hunlabeled hmem
    exact ⟨g, List.mem_append_right _ List.mem_cons_self, e, he, hcall⟩
  · rw [hoffered, List.mem_append]
    rw [hgiven] at hg'
    rcases List.mem_append.mp hg' with hold | hnew
    · exact Or.inl (h.taken g' hold e he)
    · rw [List.mem_singleton.mp hnew] at he
      exact Or.inr (htook.given_mem e he).1
  · rw [hclosed] at hit
    rw [htook.fid] at hnot ⊢
    rw [hoffered, List.mem_append]
    by_cases hwaits : it ∈ s.driver.manager.execDataMap (s.driver.manager.calls it).fid
    · exact Or.inr hwaits
    · exact Or.inl (h.settled it hit hwaits)

/-- The executions that were offered are those that were taken and those that were skipped. -/
theorem Offers.card_eq {s : AnalysisDriver params.algo.Param} (h : Offers s)
    {skipped : List CallRef}
    (haccounted : Accounted params s.driver.manager s.funcSeen s.given skipped) (fid : ℕ) :
    (s.driver.executions fid).toFinset.card =
      ((s.given.flatten.filter fun e => e.fid = fid).map GivenExec.call).toFinset.card +
        (s.funcSeen.filter fun seen => seen.2 = fid).length := by
  set taken := (s.given.flatten.filter fun e => e.fid = fid).map GivenExec.call
  set left := skipped.filter fun it => (s.driver.manager.calls it).fid = fid
  have hmem : ∀ it, it ∈ taken ↔ ∃ g ∈ s.given, ∃ e ∈ g, e.fid = fid ∧ e.call = it := by
    intro it
    simp only [taken, List.mem_map, List.mem_filter, List.mem_flatten, decide_eq_true_eq]
    constructor
    · rintro ⟨e, ⟨⟨g, hg, he⟩, hfid⟩, hcall⟩
      exact ⟨g, hg, e, he, hfid, hcall⟩
    · rintro ⟨g, hg, e, he, hfid, hcall⟩
      exact ⟨e, ⟨⟨g, hg, he⟩, hfid⟩, hcall⟩
  have hleft : ∀ it, it ∈ left ↔ it ∈ skipped ∧ (s.driver.manager.calls it).fid = fid := by
    intro it
    rw [List.mem_filter, decide_eq_true_iff]
  have hunion : (s.driver.executions fid).toFinset = taken.toFinset ∪ left.toFinset := by
    ext it
    rw [Finset.mem_union, List.mem_toFinset, List.mem_toFinset, List.mem_toFinset, hmem, hleft]
    constructor
    · intro hit
      obtain ⟨hclosed, hfid⟩ := h.closed fid it hit
      have htaken : ∀ g ∈ s.given, ∀ e ∈ g, e.call = it → e.fid = fid := by
        intro g hg e he hcall
        rw [← (haccounted.taken g hg e he).2.1, hcall, hfid]
      rcases haccounted.accounted it hclosed with ⟨hwaits, -⟩ | ⟨g, hg, e, he, hcall, -⟩ | hskipped
      · rw [hfid] at hwaits
        obtain ⟨g, hg, e, he, hcall⟩ := h.waiting fid it hit hwaits
        exact Or.inl ⟨g, hg, e, he, htaken g hg e he hcall, hcall⟩
      · exact Or.inl ⟨g, hg, e, he, htaken g hg e he hcall, hcall⟩
      · exact Or.inr ⟨hskipped, hfid⟩
    · rintro (⟨g, hg, e, he, rfl, rfl⟩ | ⟨hskipped, rfl⟩)
      · exact h.taken g hg e he
      · obtain ⟨hclosed, -, hnot⟩ := haccounted.skipped_labeled it hskipped
        exact h.settled it hclosed hnot
  have hdisjoint : Disjoint taken.toFinset left.toFinset := by
    rw [Finset.disjoint_left]
    intro it hit hskipped
    obtain ⟨g, hg, e, he, -, rfl⟩ := (hmem it).mp (List.mem_toFinset.mp hit)
    exact haccounted.disjoint g hg e he ((hleft _).mp (List.mem_toFinset.mp hskipped)).1
  have hnodup : skipped.Nodup := by
    have hseen := haccounted.nodup
    rw [haccounted.funcSeen_eq] at hseen
    exact hseen.of_map _
  have hsites : (s.funcSeen.filter fun seen => seen.2 = fid).length = left.length := by
    rw [haccounted.funcSeen_eq, List.filter_map, List.length_map]
    rfl
  rw [hunion, Finset.card_union_of_disjoint hdisjoint, hsites,
    List.toFinset_card_of_nodup (hnodup.filter _)]

/-- Executions are counted once exactly if every analysis but the last one labeled all that it took
of the function. -/
theorem Offers.countedOnce_iff {s : AnalysisDriver params.algo.Param} (h : Offers s)
    {skipped : List CallRef}
    (haccounted : Accounted params s.driver.manager s.funcSeen s.given skipped) (fid : ℕ) :
    s.CountedOnce fid ↔ ∀ g ∈ s.given.dropLast, ∀ e ∈ g, e.fid = fid → e.label ≠ 0 := by
  unfold CountedOnce
  rw [h.card_eq haccounted, Nat.add_right_cancel_iff, haccounted.length_eq_card_iff]

/-- The values that an analysis takes of a function are those of what waits and is not ignored. -/
theorem length_valuesAt_took {value : ExecData → ℚ} {m m' : ADEvent} {ignored : List CallRef}
    {g : List GivenExec} (h : Took value m m' ignored g) (hexecutions : m.Executions)
    (hunlabeled : ∀ fid, ∀ it ∈ m.execDataMap fid, (m.calls it).label = 0) (fid : ℕ) :
    (valuesAt g fid).length = ((m.execDataMap fid).toFinset \ ignored.toFinset).card := by
  set taken := (g.filter fun e => e.fid = fid).map GivenExec.call
  have hnodup : taken.Nodup := h.nodup.sublist (List.filter_sublist.map _)
  have hset : (m.execDataMap fid).toFinset \ ignored.toFinset = taken.toFinset := by
    ext it
    rw [Finset.mem_sdiff, List.mem_toFinset, List.mem_toFinset, List.mem_toFinset, List.mem_map]
    constructor
    · rintro ⟨hwaits, hnot⟩
      obtain ⟨e, he, hcall, hfid⟩ :=
        h.given_of_not_ignored hexecutions hwaits (hunlabeled fid it hwaits) hnot
      exact ⟨e, List.mem_filter.mpr ⟨he, decide_eq_true hfid⟩, hcall⟩
    · rintro ⟨e, he, rfl⟩
      obtain ⟨hmem, hfid⟩ := List.mem_filter.mp he
      obtain rfl : e.fid = fid := of_decide_eq_true hfid
      exact ⟨(h.given_mem e hmem).1, h.disjoint e hmem⟩
  rw [hset, List.toFinset_card_of_nodup hnodup]
  unfold valuesAt
  rw [List.length_map, List.length_map]

/-- How many executions of a function an analysis takes is known before it. -/
theorem length_valuesAt_eq {s : AnalysisDriver params.algo.Param} {m' : ADEvent}
    {ignored : List CallRef} {g : List GivenExec} {seen : List (Thread × ℕ)}
    (h : Took params.valueOf s.driver.manager m' ignored g)
    (hexecutions : s.driver.manager.Executions)
    (hunlabeled : ∀ fid, ∀ it ∈ s.driver.manager.execDataMap fid,
      (s.driver.manager.calls it).label = 0)
    (hoff : params.ignoresFirst = false → ignored = [])
    (hseen : seen = (ignored.map (site s.driver.manager)).reverse ++ s.funcSeen)
    (hnodup : seen.Nodup)
    (hpassed : params.ignoresFirst = true → ∀ e ∈ g, site s.driver.manager e.call ∈ seen)
    (fid : ℕ) : (valuesAt g fid).length = s.takenCount fid := by
  rw [length_valuesAt_took h hexecutions hunlabeled, Finset.card_sdiff,
    List.toFinset_card_of_nodup (hexecutions.nodup fid)]
  unfold takenCount
  dsimp only
  congr 1
  by_cases hon : params.ignoresFirst = true
  · rw [if_pos hon]
    rw [hseen, List.nodup_append', List.nodup_reverse] at hnodup
    -- the ignored executions of the function are the first ones on their threads
    have hinj : Set.InjOn (site s.driver.manager)
        (ignored.toFinset ∩ (s.driver.manager.execDataMap fid).toFinset : Finset CallRef) := by
      intro it hit it' hit' hsite
      have hmem := List.mem_toFinset.mp (Finset.mem_inter.mp hit).1
      have hmem' := List.mem_toFinset.mp (Finset.mem_inter.mp hit').1
      exact List.inj_on_of_nodup_map hnodup.1 hmem hmem' hsite
    rw [← Finset.card_image_of_injOn hinj]
    congr 1
    ext seen'
    simp only [Finset.mem_image, Finset.mem_inter, Finset.mem_sdiff, List.mem_toFinset,
      List.mem_map]
    constructor
    · rintro ⟨it, ⟨hignored, hwaits⟩, rfl⟩
      exact ⟨⟨it, hwaits, rfl⟩, fun hin => hnodup.2.2
        (List.mem_reverse.mpr (List.mem_map_of_mem hignored)) hin⟩
    · rintro ⟨⟨it, hwaits, rfl⟩, hfresh⟩
      by_cases hignored : it ∈ ignored
      · exact ⟨it, ⟨hignored, hwaits⟩, rfl⟩
      · obtain ⟨e, he, rfl, -⟩ :=
          h.given_of_not_ignored hexecutions hwaits (hunlabeled fid it hwaits) hignored
        have hin := hpassed hon e he
        rw [hseen, List.mem_append, List.mem_reverse] at hin
        obtain ⟨it', hignored, hsite⟩ := List.mem_map.mp (hin.resolve_right hfresh)
        have hsame : (s.driver.manager.calls it').fid = (s.driver.manager.calls e.call).fid :=
          congrArg Prod.snd hsite
        have hwaits' := (h.ignored_mem it' hignored).1
        rw [hsame, (hexecutions.closed fid _ hwaits).2] at hwaits'
        exact ⟨it', ⟨hignored, hwaits'⟩, hsite⟩
  · rw [if_neg hon, hoff (Bool.eq_false_iff.mpr hon)]
    rfl

variable [LibM]

/-- The model that an analysis labels by is good enough for a function: the rank's copy of the
global model, or, if the models are synchronised, what the server replies. Without a server it is
made of all values so far. -/
def LabelsBy (pushed : ℕ → List ℚ) (s : AnalysisDriver params.algo.Param)
    (reply : params.algo.Param) (fid : ℕ) : Prop :=
  if s.outlier.Syncs then
    if params.driver.usePS then
      params.algo.Usable
        (params.algo.setAlgorithm.toADAlgorithm.assign s.outlier.param reply) fid
    else
      params.algo.enough ≤ (pushed fid).length + (valuesAt s.given.flatten fid).length +
        s.takenCount fid
  else params.algo.Usable s.outlier.param fid

/-- The state in which a step starts its analysis, if it has one. -/
def beforeAnalysis (s : AnalysisDriver params.algo.Param)
    (input : AnalysisInput params.algo.Param) : Option (AnalysisDriver params.algo.Param) :=
  let read := s.driver.readStep
    { parsed := input.parsed, labels := [], threads := input.threads }
  (read.toOption.filter fun r => r.2 && Driver.doAnalysisOnStep params.driver r.1.step).map
    fun r => { s with driver := r.1 }

omit [LibM] in
/-- A step that read a frame analyses if there are data and the step is due. -/
theorem beforeAnalysis_eq {s : AnalysisDriver params.algo.Param}
    {input : AnalysisInput params.algo.Param} {driver : Driver} {haveData : Bool}
    (h : s.driver.readStep { parsed := input.parsed, labels := [], threads := input.threads } =
      .ok (driver, haveData)) :
    s.beforeAnalysis input = if haveData && Driver.doAnalysisOnStep params.driver driver.step then
      some { s with driver := driver } else none := by
  unfold beforeAnalysis
  dsimp only
  rw [h]
  change ((if haveData && Driver.doAnalysisOnStep params.driver driver.step then
    some (driver, haveData) else none).map _) = _
  split <;> rfl

/-- If a step analyses, the analysis takes no execution of the function, or it labels those that it
takes. -/
def Labels (pushed : ℕ → List ℚ) (fid : ℕ) (s : AnalysisDriver params.algo.Param) :
    AnalysisAction params.algo.Param → Prop
  | .runFrame input => ∀ v ∈ s.beforeAnalysis input,
    v.takenCount fid = 0 ∨ v.LabelsBy pushed input.reply fid
  | .endRun => True

instance (pushed : ℕ → List ℚ) (s : AnalysisDriver params.algo.Param)
    (reply : params.algo.Param) (fid : ℕ) : Decidable (LabelsBy pushed s reply fid) := by
  unfold LabelsBy
  infer_instance

instance (pushed : ℕ → List ℚ) (fid : ℕ) (s : AnalysisDriver params.algo.Param) :
    ∀ a : AnalysisAction params.algo.Param, Decidable (s.Labels pushed fid a)
  | .runFrame input => inferInstanceAs (Decidable (∀ v ∈ s.beforeAnalysis input,
    v.takenCount fid = 0 ∨ v.LabelsBy pushed input.reply fid))
  | .endRun => isTrue trivial

variable {s t u : AnalysisDriver params.algo.Param} {pushed : ℕ → List ℚ}

/-- An analysis labels what it takes of a function exactly if the model is good enough for it. -/
theorem labels_analyse
    (hmodel : params.driver.usePS = false → 0 < params.globalModelSyncFreq →
      params.algo.Spans model pushed)
    {input : AnalysisInput params.algo.Param} (h : Modelled params model s)
    (hlists : ListsFunctions input.fids s.driver.manager) (hanalyse : s.analyse input = .ok t)
    (fid : ℕ) :
    ∃ g, t.given = s.given ++ [g] ∧ ((∀ e ∈ g, e.fid = fid → e.label ≠ 0) ↔
      s.takenCount fid = 0 ∨ s.LabelsBy pushed input.reply fid) := by
  have hafter := Modelled.analyse h hlists hanalyse
  obtain ⟨skipped, haccounted⟩ := h.accounted
  obtain ⟨batches, rest, hmodels⟩ := h.models
  obtain ⟨presented, done, ignored, synced, hanalysed, htook, hseen, hgiven, -⟩ :=
    analyse_analysed haccounted.executions hlists hanalyse
  obtain ⟨hoff, hseen', hnodup, hpassed⟩ := analyse_firstCalls hanalysed hseen
  have hcount := length_valuesAt_eq htook haccounted.executions
    (fun fid it hit => haccounted.unlabeled hit) hoff hseen' (hnodup haccounted.nodup) hpassed fid
  obtain ⟨param, localParam, -, -, hsync⟩ := hanalysed.updated
  obtain ⟨-, hcases⟩ := updateGlobalModel_cases hsync
  have hsyncs : { s.outlier with localParam := localParam }.Syncs ↔ s.outlier.Syncs := Iff.rfl
  have hlabel : ∀ e ∈ givenOf done, e.fid = fid →
      (e.label ≠ 0 ↔ s.LabelsBy pushed input.reply fid) := by
    intro e he hfid
    have husable : e.label ≠ 0 ↔ params.algo.Usable synced.param fid := by
      rw [hanalysed.label_iff params.algo.assessesBy params.algo.decides
        (execsValid_setupInterface haccounted.executions _) he,
        hanalysed.usable_iff params.algo.decides, hfid]
    unfold LabelsBy
    rcases hcases with ⟨hnot, hparam, -⟩ | ⟨hdue, -, -, ⟨hserver, hparam⟩ | ⟨hserver, -⟩⟩
    · rw [if_neg (hsyncs.not.mp hnot), husable, hparam]
    · have hps : params.driver.usePS = true := hmodels.server.symm.trans hserver
      rw [if_pos (hsyncs.mp hdue), if_pos hps, husable, hparam]
    · have hps : params.driver.usePS = false := hmodels.server.symm.trans hserver
      have hon : params.SyncsOn s.given.length := hmodels.syncs_iff.mp (hsyncs.mp hdue)
      have henough := hafter.labeled hps params.algo.keeps_spans params.algo.decides_spans pushed
        (hmodel hps hon.1) s.given.length (givenOf done)
        (by rw [hgiven, List.getElem?_concat_length]) e he
      have hall : outBy params.SyncsOn (s.given.length + 1) =
          (s.given ++ [givenOf done]).length := by
        rw [List.length_append, List.length_singleton]
        exact if_pos hon
      rw [if_pos (hsyncs.mp hdue), if_neg (Bool.eq_false_iff.mp hps), henough, hgiven, hall,
        List.take_length, hfid, List.flatten_append, List.flatten_singleton, valuesAt_append,
        List.length_append, hcount, Nat.add_assoc]
  refine ⟨givenOf done, hgiven, ?_⟩
  constructor
  · intro hall
    by_cases hnone : s.takenCount fid = 0
    · exact Or.inl hnone
    · rw [← hcount] at hnone
      unfold valuesAt at hnone
      rw [List.length_map] at hnone
      obtain ⟨e, he⟩ := List.exists_mem_of_length_pos (Nat.pos_of_ne_zero hnone)
      obtain ⟨hmem, hfid⟩ := List.mem_filter.mp he
      have hfid' := of_decide_eq_true hfid
      exact Or.inr ((hlabel e hmem hfid').mp (hall e hmem hfid'))
  · intro hcond e he hfid
    rw [hlabel e he hfid]
    refine hcond.resolve_left fun hnone => ?_
    rw [← hcount] at hnone
    have hmem : e.value ∈ valuesAt (givenOf done) fid :=
      List.mem_map_of_mem (List.mem_filter.mpr ⟨he, decide_eq_true hfid⟩)
    rw [List.eq_nil_of_length_eq_zero hnone] at hmem
    exact absurd hmem List.not_mem_nil

/-- An analysis offers what waits. -/
theorem Offers.analyse {skipped : List CallRef} (h : Offers s)
    (haccounted : Accounted params s.driver.manager s.funcSeen s.given skipped)
    {input : AnalysisInput params.algo.Param} (hlists : ListsFunctions input.fids s.driver.manager)
    (hanalyse : s.analyse input = .ok t) : Offers t := by
  obtain ⟨presented, done, ignored, synced, hanalysed, htook, -, hgiven, hdriver⟩ :=
    analyse_analysed haccounted.executions hlists hanalyse
  obtain ⟨manager, report, -, ht⟩ := Driver.analyse_ok hdriver
  have hexecs : done.manager.execDataMap = s.driver.manager.execDataMap := by
    have hmanager : (params.setupInterface s.funcSeen s.driver.manager input.fids).manager =
        s.driver.manager := by rw [params.setupInterface_eq]
    rw [hanalysed.recorded, ← hmanager]
    exact hanalysed.ignoring.execDataMap
  refine h.took haccounted.executions (fun fid it hit => haccounted.unlabeled hit) htook hgiven
    fun fid => ?_
  rw [ht, ← hexecs]
  unfold Driver.executions
  rw [List.flatMap_append]
  exact congrArg _ (List.append_nil _)

/-- An action offers what waits if it analyses. -/
theorem Offers.exec {skipped : List CallRef} (h : Offers s)
    (haccounted : Accounted params s.driver.manager s.funcSeen s.given skipped)
    {a : AnalysisAction params.algo.Param} (hlists : s.Lists a) (hexec : s.exec a = .ok t) :
    Offers t := by
  have hsend : ∀ (v : AnalysisDriver params.algo.Param) (force : Bool) (step : ℕ), Offers v →
      Offers { v with
        driver := { v.driver.sendPSdata params.driver force with step := step } } := by
    intro v force step hv
    obtain ⟨-, hmanager, hanalyses⟩ := Driver.statistics_sendPSdata params.driver v.driver force
    exact hv.congr hmanager hanalyses rfl
  cases a with
  | endRun =>
    cases hexec
    exact hsend s true _ h
  | runFrame input =>
    obtain ⟨⟨t', haveData⟩, hframe, hexec⟩ := bind_eq_ok hexec
    cases hexec
    obtain ⟨driver, hread, hcase⟩ := runFrame_cases hframe
    have hread' := (Driver.readStep_cases hread).1
    unfold Lists at hlists
    dsimp only at hlists
    rw [hread] at hlists
    have hafter : Offers { s with driver := driver } :=
      h.completes haccounted.executions hread' (Driver.analyses_readStep hread)
    rcases hcase with ⟨-, rfl⟩ | ⟨-, u, ⟨-, hanalyse⟩ | ⟨-, rfl⟩, rfl⟩
    · exact hafter
    · exact hsend u false _ (Offers.analyse (s := { s with driver := driver }) hafter
        (haccounted.completes hread') hlists hanalyse)
    · exact hsend _ false _ hafter

/-- In every run the executions that were offered were taken, or do not wait. -/
theorem offers (hrun : Runs (StepOf exec) Lists (start params model) s) : Offers s := by
  have hboth : Modelled params model s ∧ Offers s := by
    refine hrun.invariant (fun s => Modelled params model s ∧ Offers s)
      ⟨modelled_start model, offers_start model⟩ fun s a t ⟨h, hoffers⟩ hlists hexec => ?_
    obtain ⟨skipped, haccounted⟩ := h.accounted
    exact ⟨Modelled.exec h hlists hexec, hoffers.exec haccounted hlists hexec⟩
  exact hboth.2

/-- An action takes nothing, or one more analysis takes what waits, and labels what it takes of a
function exactly if the model is good enough for it. -/
theorem labels_exec
    (hmodel : params.driver.usePS = false → 0 < params.globalModelSyncFreq →
      params.algo.Spans model pushed)
    (h : Modelled params model s) {a : AnalysisAction params.algo.Param} (hlists : s.Lists a)
    (hexec : s.exec a = .ok t) (fid : ℕ) :
    t.given = s.given ∧ s.Labels pushed fid a ∨
      ∃ g, t.given = s.given ++ [g] ∧
        ((∀ e ∈ g, e.fid = fid → e.label ≠ 0) ↔ s.Labels pushed fid a) := by
  cases a with
  | endRun =>
    cases hexec
    exact Or.inl ⟨rfl, trivial⟩
  | runFrame input =>
    obtain ⟨⟨t', haveData⟩, hframe, hexec⟩ := bind_eq_ok hexec
    cases hexec
    obtain ⟨driver, hread, hcase⟩ := runFrame_cases hframe
    unfold Lists at hlists
    unfold Labels
    dsimp only at hlists ⊢
    rw [hread] at hlists
    rw [beforeAnalysis_eq hread]
    rcases hcase with ⟨rfl, rfl⟩ | ⟨rfl, u, ⟨hdo, hanalyse⟩ | ⟨hdo, rfl⟩, rfl⟩
    · exact Or.inl ⟨rfl, fun v hv => absurd hv (Option.not_mem_none v)⟩
    · obtain ⟨skipped, haccounted⟩ := h.accounted
      have hbefore : Modelled params model { s with driver := driver } :=
        ⟨⟨skipped, haccounted.completes (Driver.readStep_cases hread).1⟩, h.models, h.labeled⟩
      obtain ⟨g, hgiven, hiff⟩ := labels_analyse hmodel hbefore hlists hanalyse fid
      refine Or.inr ⟨g, hgiven, hiff.trans ?_⟩
      rw [hdo, Bool.and_self, if_pos rfl]
      constructor
      · intro hcond v hv
        rwa [← Option.mem_some_iff.mp hv]
      · exact fun hcond => hcond _ rfl
    · refine Or.inl ⟨rfl, ?_⟩
      rw [hdo, Bool.and_false, if_neg Bool.false_ne_true]
      exact fun v hv => absurd hv (Option.not_mem_none v)

/-- What was taken stays on record. -/
theorem given_prefix (hrun : Runs (StepOf exec) Lists t u) : t.given <+: u.given := by
  refine hrun.invariant (fun u => t.given <+: u.given) List.prefix_rfl
    fun u a v hprefix _ hexec => ?_
  cases a with
  | endRun =>
    cases hexec
    exact hprefix
  | runFrame input =>
    obtain ⟨⟨v', haveData⟩, hframe, hexec⟩ := bind_eq_ok hexec
    cases hexec
    obtain ⟨driver, -, hcase⟩ := runFrame_cases hframe
    rcases hcase with ⟨-, rfl⟩ | ⟨-, w, ⟨-, hanalyse⟩ | ⟨-, rfl⟩, rfl⟩
    · exact hprefix
    · obtain ⟨data, -, -, -, hgiven⟩ := analyse_cases hanalyse
      dsimp only
      rw [hgiven]
      exact hprefix.trans (List.prefix_append _ _)
    · exact hprefix

omit [LibM] in
/-- A step that reads calls of a function on one thread. -/
def callsInStep {P : Type} (reply : P) (step : ℕ) (calls : List (ℕ × ℕ × ℕ)) :
    AnalysisAction P :=
  .runFrame { parsed := (Driver.callsOnThreads step calls).parsed
              fids := [5], threads := [], reply := reply }

end AnalysisDriver

end Chimbuko
