import Chimbuko.AD.AnalysisDriverEnd

/-!
# The loop over frames

`while(runFrame())` goes on after the input has ended for as long as executions wait. If the models
are synchronised at some frequency the loop ends from every state that a run reaches. If the model
is frozen, it ends exactly if the next analysis settles everything that waits: it labels the
executions of the functions for which the model is good enough, and leaves out the first ones of
their functions on their threads. What it does not settle waits forever.
-/

namespace Chimbuko

open ADExecDataInterface ADOutlier TransitionSystem

namespace AnalysisDriver

variable [LibM] {params : AnalysisParams} {model : params.algo.Param}

/-- The loop reports data for at most some number of frames without input, and when a frame reports
that there are none, every completed execution has a label. -/
structure LoopEnds (s : AnalysisDriver params.algo.Param) : Prop where
  bounded : ∃ frames, ∀ n t, Idles s n t → n ≤ frames
  labeled : ∀ {n t u} {input : AnalysisInput params.algo.Param}, Idles s n t →
    input.parsed = none → t.Lists (.runFrame input) → t.runFrame input = .ok (u, false) →
      ∀ it, t.driver.manager.Closed it → (t.driver.manager.calls it).label ≠ 0

/-- No frame without input reports that there are no data. -/
def NeverEnds (s : AnalysisDriver params.algo.Param) : Prop :=
  ∀ {n t u haveData} {input : AnalysisInput params.algo.Param}, Idles s n t →
    input.parsed = none → t.Lists (.runFrame input) → t.runFrame input = .ok (u, haveData) →
      haveData = true

omit [LibM] in
/-- The next analysis leaves an execution out: it is the only one of its function on its thread that
waits, and none was seen before. -/
def LeavesOut (s : AnalysisDriver params.algo.Param) (it : CallRef) : Prop :=
  params.ignoresFirst = true ∧ site s.driver.manager it ∉ s.funcSeen ∧
    ∀ it' ∈ s.driver.manager.execDataMap (s.driver.manager.calls it).fid,
      site s.driver.manager it' = site s.driver.manager it → it' = it

/-- Of each execution that waits, the copy of the global model is good enough for its function, or
the next analysis leaves it out. -/
def Settles (s : AnalysisDriver params.algo.Param) : Prop :=
  ∀ fid, ∀ it ∈ s.driver.manager.execDataMap fid,
    params.algo.Usable s.outlier.param fid ∨ s.LeavesOut it

variable {s t u : AnalysisDriver params.algo.Param} {n : ℕ}

/-- A frozen model is good enough for the same functions after an analysis. -/
theorem usable_analysed (hfreq : params.globalModelSyncFreq ≤ 0)
    (hrun : Runs (StepOf exec) Lists (start params model) s) {iface presented done ignored synced}
    {reply : params.algo.Param}
    (h : Analysed params.algo.setAlgorithm.toADAlgorithm params.algo.assess iface presented done
      ignored reply s.outlier synced t.outlier) (fid : ℕ) :
    params.algo.Usable t.outlier.param fid ↔ params.algo.Usable s.outlier.param fid := by
  obtain ⟨param, localParam, -, -, hsync⟩ := h.updated
  obtain ⟨batches, rest, hmodels⟩ := (modelled hrun).models
  have hsame := @updateGlobalModel_frozen _ params.algo.setAlgorithm.toADAlgorithm
    { s.outlier with localParam := localParam } reply (hmodels.freq.trans_le hfreq)
  rw [hsame] at hsync
  rw [h.usable_iff params.algo.decides, ← Except.ok.inj hsync]

/-- What an analysis with a frozen model leaves waiting: what was not ignored of the functions for
which the model lacks values. Of such an execution the first one of its function on its thread was
seen, if first ones are left out at all. -/
structure Settling (s t : AnalysisDriver params.algo.Param) (ignored : List CallRef) : Prop where
  usable_iff : ∀ fid,
    params.algo.Usable t.outlier.param fid ↔ params.algo.Usable s.outlier.param fid
  site_eq : site t.driver.manager = site s.driver.manager
  off : params.ignoresFirst = false → ignored = []
  seen : t.funcSeen = (ignored.map (site s.driver.manager)).reverse ++ s.funcSeen
  nodup : t.funcSeen.Nodup
  ignored_mem : ∀ it ∈ ignored,
    it ∈ s.driver.manager.execDataMap (s.driver.manager.calls it).fid
  fid_eq : ∀ fid, ∀ it ∈ s.driver.manager.execDataMap fid, (s.driver.manager.calls it).fid = fid
  mem_iff : ∀ fid it, it ∈ t.driver.manager.execDataMap fid ↔
    it ∈ s.driver.manager.execDataMap fid ∧ it ∉ ignored ∧
      ¬params.algo.Usable s.outlier.param fid
  passed : params.ignoresFirst = true → ∀ fid, ∀ it ∈ t.driver.manager.execDataMap fid,
    site s.driver.manager it ∈ t.funcSeen

/-- An analysis with a frozen model labels what it takes of the functions for which the model is
good enough. -/
theorem settling_analyse (hfreq : params.globalModelSyncFreq ≤ 0)
    {input : AnalysisInput params.algo.Param}
    (hrun : Runs (StepOf exec) Lists (start params model) s)
    (hlists : ListsFunctions input.fids s.driver.manager) (h : s.analyse input = .ok t) :
    ∃ ignored, Settling s t ignored := by
  obtain ⟨skipped, haccounted⟩ := (modelled hrun).accounted
  have hexecutions := haccounted.executions
  obtain ⟨presented, done, ignored, synced, hanalysed, htook, hseen, hgiven, -⟩ :=
    analyse_analysed hexecutions hlists h
  obtain ⟨hoff, hseen', hnodup, hpassed⟩ := analyse_firstCalls hanalysed hseen
  have husable := fun fid => usable_analysed hfreq hrun hanalysed fid
  have hfid : ∀ fid, ∀ it ∈ s.driver.manager.execDataMap fid,
      (s.driver.manager.calls it).fid = fid := fun fid it hit => (hexecutions.closed fid it hit).2
  have hlabel : ∀ e ∈ givenOf done,
      (t.driver.manager.calls e.call).label ≠ 0 ↔ params.algo.Usable s.outlier.param e.fid := by
    intro e he
    rw [(htook.given_mem e he).2.2.1, hanalysed.label_iff params.algo.assessesBy
      params.algo.decides (execsValid_setupInterface hexecutions _) he, husable]
  -- what waits after the analysis was taken and got no label
  have htaken : ∀ fid, ∀ it ∈ s.driver.manager.execDataMap fid, it ∉ ignored →
      ∃ e ∈ givenOf done, e.call = it ∧ e.fid = fid := fun fid it hit hnot =>
    htook.given_of_not_ignored hexecutions hit (haccounted.unlabeled hit) hnot
  have hmem : ∀ fid it, it ∈ t.driver.manager.execDataMap fid ↔
      it ∈ s.driver.manager.execDataMap fid ∧ it ∉ ignored ∧
        ¬params.algo.Usable s.outlier.param fid := by
    intro fid it
    rw [htook.execData, List.mem_filter, decide_eq_true_iff]
    refine and_congr_right fun hit => ?_
    constructor
    · intro hzero
      have hnot : it ∉ ignored := by
        intro hignored
        rw [(htook.ignored_mem it hignored).2.2] at hzero
        exact one_ne_zero hzero
      obtain ⟨e, he, rfl, rfl⟩ := htaken fid it hit hnot
      exact ⟨hnot, fun hgood => (hlabel e he).mpr hgood hzero⟩
    · rintro ⟨hnot, hlacks⟩
      obtain ⟨e, he, rfl, rfl⟩ := htaken fid it hit hnot
      by_contra hne
      exact hlacks ((hlabel e he).mp hne)
  refine ⟨ignored, husable, ?_, hoff, hseen', hnodup haccounted.nodup,
    fun it hit => (htook.ignored_mem it hit).1, hfid, hmem, fun hon fid it hit => ?_⟩
  · exact funext fun it => site_congr (htook.fid it) (htook.measured it)
  · obtain ⟨hin, hnot, -⟩ := (hmem fid it).mp hit
    obtain ⟨e, he, rfl, -⟩ := htaken fid it hin hnot
    exact hpassed hon e he

/-- If the next analysis settles what waits, nothing waits after it. -/
theorem Settling.empty {ignored : List CallRef} (h : Settling s t ignored) (hs : s.Settles)
    (fid : ℕ) : t.driver.manager.execDataMap fid = [] := by
  refine List.eq_nil_iff_forall_not_mem.mpr fun it hit => ?_
  obtain ⟨hin, hnot, hlacks⟩ := (h.mem_iff fid it).mp hit
  obtain ⟨hon, hfresh, honly⟩ := (hs fid it hin).resolve_left hlacks
  have hpassed := h.passed hon fid it hit
  rw [h.seen, List.mem_append, List.mem_reverse] at hpassed
  obtain ⟨it', hit', hsite⟩ := List.mem_map.mp (hpassed.resolve_right hfresh)
  have hsame : (s.driver.manager.calls it').fid = (s.driver.manager.calls it).fid :=
    congrArg Prod.snd hsite
  obtain rfl := honly it' (hsame ▸ h.ignored_mem it' hit') hsite
  exact hnot hit'

/-- If the next analysis does not settle what waits, nor does the one after it. -/
theorem Settling.not_settles {ignored : List CallRef} (h : Settling s t ignored)
    (hs : ¬s.Settles) : ¬t.Settles := by
  unfold Settles at hs
  push Not at hs
  obtain ⟨fid, it, hit, hlacks, hkept⟩ := hs
  have hfresh : (ignored.map (site s.driver.manager)).Nodup ∧
      ∀ i ∈ ignored, site s.driver.manager i ∉ s.funcSeen := by
    have hnodup := h.nodup
    rw [h.seen, List.nodup_append', List.nodup_reverse] at hnodup
    exact ⟨hnodup.1, fun i hi hin =>
      hnodup.2.2 (List.mem_reverse.mpr (List.mem_map_of_mem hi)) hin⟩
  -- an execution of the function is not ignored
  obtain ⟨w, hw, hnot⟩ : ∃ w ∈ s.driver.manager.execDataMap fid, w ∉ ignored := by
    by_contra hall
    push Not at hall
    have hignored := hall it hit
    apply hkept
    refine ⟨?_, hfresh.2 it hignored, fun it' hit' hsite => ?_⟩
    · by_contra hon
      rw [h.off (Bool.eq_false_iff.mpr hon)] at hignored
      exact absurd hignored List.not_mem_nil
    · rw [h.fid_eq fid it hit] at hit'
      exact List.inj_on_of_nodup_map hfresh.1 (hall it' hit') hignored hsite
  have hwaits := (h.mem_iff fid w).mpr ⟨hw, hnot, hlacks⟩
  intro ht
  rcases ht fid w hwaits with hgood | ⟨hon, hunseen, -⟩
  · exact hlacks ((h.usable_iff fid).mp hgood)
  · rw [h.site_eq] at hunseen
    exact hunseen (h.passed hon fid w hwaits)

/-- A frame without input that reports data: the analysis of a frozen model, or nothing that
matters. -/
theorem runFrame_frozen (hfreq : params.globalModelSyncFreq ≤ 0)
    (hrun : Runs (StepOf exec) Lists (start params model) s)
    {input : AnalysisInput params.algo.Param} (hnone : input.parsed = none)
    (hlists : s.Lists (.runFrame input)) (h : s.runFrame input = .ok (t, true)) :
    (∃ ignored, Settling s t ignored) ∨
      t.driver.manager = s.driver.manager ∧ t.outlier = s.outlier ∧ t.funcSeen = s.funcSeen ∧
        t.given = s.given := by
  obtain ⟨hfids, -, hcase⟩ := runFrame_none_cases hnone hlists h
  rcases hcase with
    ⟨hno, -⟩ | ⟨-, v, ⟨-, hanalyse⟩ | ⟨-, rfl⟩, hmanager, hgiven, -, houtlier, hseen⟩
  · cases hno
  · obtain ⟨ignored, hv⟩ := settling_analyse hfreq hrun hfids hanalyse
    refine Or.inl ⟨ignored, ?_⟩
    constructor
    · rw [houtlier]
      exact hv.usable_iff
    · rw [hmanager]
      exact hv.site_eq
    · exact hv.off
    · rw [hseen]
      exact hv.seen
    · rw [hseen]
      exact hv.nodup
    · exact hv.ignored_mem
    · exact hv.fid_eq
    · rw [hmanager]
      exact hv.mem_iff
    · rw [hmanager, hseen]
      exact hv.passed
  · exact Or.inr ⟨hmanager, houtlier, hseen, hgiven⟩

/-- What settles depends on the executions, the copy of the model and the functions seen. -/
theorem settles_congr (hmanager : t.driver.manager = s.driver.manager)
    (houtlier : t.outlier = s.outlier) (hseen : t.funcSeen = s.funcSeen) :
    t.Settles ↔ s.Settles := by
  unfold Settles LeavesOut
  rw [hmanager, houtlier, hseen]

/-- If the next analysis settles what waits, the frames without input report data until it. -/
theorem Idles.settles (hfreq : params.globalModelSyncFreq ≤ 0)
    (hrun : Runs (StepOf exec) Lists (start params model) s) (hs : s.Settles)
    (h : Idles s n t) :
    t.Settles ∧ t.given = s.given ∨ ∀ fid, t.driver.manager.execDataMap fid = [] := by
  induction h with
  | refl => exact Or.inl ⟨hs, rfl⟩
  | @step n t u input hbefore hnone hlists hframe ih =>
    rcases ih with ⟨ht, hgiven⟩ | hempty
    · rcases runFrame_frozen hfreq (hbefore.runs hrun) hnone hlists hframe with
        ⟨ignored, hu⟩ | ⟨hmanager, houtlier, hseen, hsame⟩
      · exact Or.inr (hu.empty ht)
      · exact Or.inl ⟨(settles_congr hmanager houtlier hseen).mpr ht, hsame.trans hgiven⟩
    · have hdata := (runFrame_none_cases hnone hlists hframe).2.1
      obtain ⟨fid, -, hpos⟩ := List.any_eq_true.mp hdata.symm
      rw [hempty fid] at hpos
      exact absurd (of_decide_eq_true hpos) (lt_irrefl 0)

/-- If the next analysis does not settle what waits, no later one does. -/
theorem Idles.not_settles (hfreq : params.globalModelSyncFreq ≤ 0)
    (hrun : Runs (StepOf exec) Lists (start params model) s) (hs : ¬s.Settles)
    (h : Idles s n t) : ¬t.Settles := by
  induction h with
  | refl => exact hs
  | @step n t u input hbefore hnone hlists hframe ih =>
    rcases runFrame_frozen hfreq (hbefore.runs hrun) hnone hlists hframe with
      ⟨ignored, hu⟩ | ⟨hmanager, houtlier, hseen, -⟩
    · exact hu.not_settles ih
    · exact (settles_congr hmanager houtlier hseen).not.mpr ih

/-- With a frozen model the loop ends within the steps that are analysed once. -/
theorem Idles.le_of_settles (hfreq : params.globalModelSyncFreq ≤ 0)
    (hrun : Runs (StepOf exec) Lists (start params model) s) (hs : s.Settles) (h : Idles s n t) :
    n ≤ (params.driver.analysisStepFreq : ℕ) := by
  cases h with
  | refl => exact Nat.zero_le _
  | @step n u _ input hbefore hnone hlists hframe =>
    by_contra hlong
    have hn : (params.driver.analysisStepFreq : ℕ) ≤ n := by omega
    have hmore : s.given.length + 1 ≤ u.given.length := by
      rw [given_length hrun, given_length (hbefore.runs hrun), hbefore.step_eq]
      apply (Driver.analysesBefore_add_le _ _ 1).trans
      rw [one_mul]
      exact Nat.count_monotone _ (Nat.add_le_add_left hn _)
    rcases hbefore.settles hfreq hrun hs with ⟨-, hgiven⟩ | hempty
    · rw [hgiven] at hmore
      exact absurd hmore (Nat.not_succ_le_self _)
    · have hdata := (runFrame_none_cases hnone hlists hframe).2.1
      obtain ⟨fid, -, hpos⟩ := List.any_eq_true.mp hdata.symm
      rw [hempty fid] at hpos
      exact absurd (of_decide_eq_true hpos) (lt_irrefl 0)

/-- When a frame reports no data, every completed execution has a label. -/
theorem labeled_of_noData (hrun : Runs (StepOf exec) Lists (start params model) s)
    {input : AnalysisInput params.algo.Param} (hnone : input.parsed = none)
    (hlists : s.Lists (.runFrame input)) (h : s.runFrame input = .ok (t, false)) {it : CallRef}
    (hit : s.driver.manager.Closed it) : (s.driver.manager.calls it).label ≠ 0 := by
  obtain ⟨skipped, haccounted⟩ := (modelled hrun).accounted
  have hdata := (runFrame_none_cases hnone hlists h).2.1
  rcases haccounted.accounted it hit with ⟨hwaits, -⟩ | ⟨g, hg, e, he, rfl, hne⟩ | hskipped
  · have hpos := List.any_eq_false.mp hdata.symm _ (Driver.mem_functions ⟨hit, rfl⟩)
    exact absurd (decide_eq_true (List.length_pos_of_mem hwaits)) hpos
  · rw [(haccounted.labeled g hg e he hne).1]
    exact hne
  · rw [(haccounted.skipped_labeled it hskipped).2.1]
    exact one_ne_zero

/-- A model by standard deviations that is frozen, and first calls are left out. -/
def frozenStdDev : AnalysisParams :=
  { everyCall (.sstd 6) false with
    driver := { Driver.everyStep with usePS := false, anomWinSize := 10 }
    globalModelSyncFreq := 0 }

/-- The thread of the calls. -/
def onlyThread : Thread := { pid := 0, rid := 0, tid := 0 }

/-- A frame with two calls of a function on one thread. -/
def twoCallsFrame : AnalysisInput SstdParam :=
  { parsed := (Driver.callsOnThreads 0 [(0, 100, 150), (0, 200, 250)]).parsed
    fids := [5], threads := [onlyThread], reply := SstdParam.new }

/-- A frame after the end of the input. -/
def endFrame : AnalysisInput SstdParam :=
  { parsed := none, fids := [5], threads := [onlyThread], reply := SstdParam.new }

/-- The second call of a function waits, of which the frozen model has fewer than two values. -/
structure Stuck (s : AnalysisDriver frozenStdDev.algo.Param) : Prop where
  functions : s.driver.manager.functions = [5]
  execData : s.driver.manager.execDataMap 5 = [1]
  fid : (s.driver.manager.calls 1).fid = 5
  label : (s.driver.manager.calls 1).label = 0
  seen : site s.driver.manager 1 ∈ s.funcSeen
  window : (s.driver.manager.callList onlyThread).length ≤ 10
  freq : s.outlier.globalModelSyncFreq = 0
  lacks : (ADOutlierSSTD.statsAt s.outlier.param 5).count < 2

omit [LibM] in
/-- The call is the only element of its data set. -/
theorem Stuck.getDataSet {s : AnalysisDriver frozenStdDev.algo.Param} (h : Stuck s) :
    ∃ value cache, (frozenStdDev.setupInterface s.funcSeen s.driver.manager [5]).getDataSet 0 =
      .ok ([Elem.new value 0], { frozenStdDev.setupInterface s.funcSeen s.driver.manager [5] with
        dsetCache := cache }) := by
  have hignores : frozenStdDev.ignoresFirst = true := rfl
  have hseen := h.seen
  unfold site at hseen
  rw [h.fid] at hseen
  rw [AnalysisParams.setupInterface_eq]
  unfold ADExecDataInterface.getDataSet
  simp only [AList.lookup_empty, List.getElem?_cons_zero, h.execData, List.zipIdx_cons,
    List.zipIdx_nil, List.foldl_cons, List.foldl_nil, addElem, h.label, hignores, hseen,
    List.not_mem_nil, decide_false, if_true, if_false, not_true, and_false, List.nil_append]
  exact ⟨_, _, rfl⟩

/-- The algorithm runs over the call, and does not label it. -/
theorem Stuck.run_returns {s : AnalysisDriver frozenStdDev.algo.Param} (h : Stuck s) :
    ∃ outlier data, s.outlier.run frozenStdDev.algo.setAlgorithm.toADAlgorithm
        (ADDataInterface.new (frozenStdDev.setupInterface s.funcSeen s.driver.manager [5]))
        SstdParam.new = .ok (outlier, data) ∧
      data.source.manager = s.driver.manager.modifyCall 1 (fun d => d.setOutlierScore (-1)) ∧
      data.source.localFuncExecSeen = s.funcSeen ∧ outlier.globalModelSyncFreq = 0 ∧
      (ADOutlierSSTD.statsAt outlier.param 5).count < 2 := by
  obtain ⟨value, cache, hget⟩ := h.getDataSet
  have hsetup : (frozenStdDev.setupInterface s.funcSeen s.driver.manager [5]).dsetFidMap = [5] ∧
      (frozenStdDev.setupInterface s.funcSeen s.driver.manager [5]).manager = s.driver.manager ∧
      (frozenStdDev.setupInterface s.funcSeen s.driver.manager [5]).localFuncExecSeen =
        s.funcSeen := by
    rw [AnalysisParams.setupInterface_eq]
    exact ⟨rfl, rfl, rfl⟩
  generalize frozenStdDev.setupInterface s.funcSeen s.driver.manager [5] = iface at *
  obtain ⟨hmap, hmanager, hseen⟩ := hsetup
  have hnew : ADDataInterface.new iface =
      { source := iface, dsetAnom := [DataSetAnomalies.new] } := by
    unfold ADDataInterface.new
    change ADDataInterface.mk iface (List.replicate iface.dsetFidMap.length _) = _
    rw [hmap]
    rfl
  have hidx : ({ iface with dsetCache := cache }).getDataSetModelIndex 0 = .ok 5 := by
    unfold ADExecDataInterface.getDataSetModelIndex
    rw [hmap]
    rfl
  obtain ⟨param, hgather⟩ : ∃ param, (List.range (ADDataInterface.new iface).nDataSets).foldlM
      (gather frozenStdDev.algo.setAlgorithm.toADAlgorithm)
        { dataVals := [], param := frozenStdDev.algo.setAlgorithm.runParam
          data := ADDataInterface.new iface } =
      .ok { dataVals := [[Elem.new value 0]], param := param
            data := { source := { iface with dsetCache := cache }
                      dsetAnom := [DataSetAnomalies.new] } } := by
    rw [hnew]
    change ∃ param, gather _ _ 0 >>= _ = _
    unfold gather ADDataInterface.getDataSet
    change ∃ param, ((iface.getDataSet 0 >>= _) >>= _) >>= _ = _
    rw [hget]
    change ∃ param, (({ iface with dsetCache := cache }).getDataSetModelIndex 0 >>= _) >>= _ = _
    rw [hidx]
    exact ⟨_, rfl⟩
  obtain ⟨localParam, hlocal⟩ := SstdParam.update_returns s.outlier.localParam param
  have hsync := @updateGlobalModel_frozen _ frozenStdDev.algo.setAlgorithm.toADAlgorithm
    { s.outlier with localParam := localParam } SstdParam.new h.freq.le
  have hlabel : frozenStdDev.algo.setAlgorithm.labelData s.outlier.param [Elem.new value 0] 5 =
      .ok { param := ⟨s.outlier.param.runstats.insert 5 (ADOutlierSSTD.statsAt s.outlier.param 5)⟩
            data := [Elem.new value 0], threshold := none } := by
    have hdata : ¬[Elem.new value 0].length = 0 := Nat.one_ne_zero
    change (ADOutlierSSTD.mk 6).labelData s.outlier.param [Elem.new value 0] 5 = _
    unfold ADOutlierSSTD.labelData
    rw [if_neg hdata]
    exact if_pos h.lacks
  have hrecord : ({ iface with dsetCache := cache }).recordDataSetLabelsInternal
      [Elem.new value 0] 0 = .ok { iface with
        manager := s.driver.manager.modifyCall 1 fun d => d.setOutlierScore (-1)
        dsetCache := cache } := by
    unfold recordDataSetLabelsInternal
    rw [hmap]
    change ([Elem.new value 0].foldlM (recordElem (iface.manager.execDataMap 5))
      iface.manager >>= _) = _
    rw [hmanager, h.execData]
    rfl
  obtain ⟨t, ht, hsource⟩ := @labelDataSet_returns _ frozenStdDev.algo.setAlgorithm.toADAlgorithm
    ADExecDataInterface _
    ({ s.outlier with localParam := localParam, syncCallCount := s.outlier.syncCallCount + 1 },
      { source := { iface with dsetCache := cache }, dsetAnom := [DataSetAnomalies.new] })
    ([Elem.new value 0], 0) _ _ _ hidx hlabel hrecord
  obtain ⟨modelIdx, labeled, hidx', hlabel', -, hafter⟩ := labelDataSet_cases ht
  obtain rfl := Except.ok.inj (hidx.symm.trans hidx')
  obtain rfl := Except.ok.inj (hlabel.symm.trans hlabel')
  refine ⟨t.1, t.2, ?_, by rw [hsource], by rw [hsource]; exact hseen, ?_, ?_⟩
  · unfold run
    rw [hgather]
    change (SstdParam.update s.outlier.localParam param >>= _) = _
    rw [hlocal]
    change (updateGlobalModel _ _ _ >>= _) = _
    rw [hsync]
    change (labelDataSet _ _ _ >>= _) = _
    rw [ht]
    rfl
  · rw [hafter]
    exact h.freq
  · rw [hafter]
    unfold ADOutlierSSTD.statsAt
    dsimp only
    rw [AList.lookup_insert]
    exact h.lacks

omit [LibM] in
/-- Recording a score leaves what else is known of the calls. -/
theorem calls_setOutlierScore (m : ADEvent) (it : CallRef) (score : ℚ) (k : CallRef) :
    let d := (m.modifyCall it fun d => d.setOutlierScore score).calls k
    d.fid = (m.calls k).fid ∧ d.thread = (m.calls k).thread ∧ d.label = (m.calls k).label := by
  unfold ADEvent.modifyCall
  by_cases hk : k = it
  · rw [hk]
    dsimp only
    rw [Function.update_self]
    exact ⟨rfl, rfl, rfl⟩
  · dsimp only
    rw [Function.update_of_ne hk]
    exact ⟨rfl, rfl, rfl⟩

/-- A frame after the end of the input analyses the call again. -/
theorem Stuck.next {s : AnalysisDriver frozenStdDev.algo.Param} (h : Stuck s) :
    ∃ t, s.Lists (.runFrame endFrame) ∧ s.runFrame endFrame = .ok (t, true) ∧ Stuck t := by
  have hread : s.driver.readStep { parsed := none, labels := [], threads := [onlyThread] } =
      .ok (s.driver, true) := by
    change Except.ok (s.driver, s.driver.manager.functions.any fun fid =>
      decide (0 < (s.driver.manager.execDataMap fid).length)) = _
    simp only [h.functions, List.any_cons, h.execData]
    rfl
  obtain ⟨outlier, data, hrun, hmanager, hseen, hfreq, hlacks⟩ := h.run_returns
  have hwindow : ∀ thr ∈ [onlyThread], (data.source.manager.callList thr).length ≤ 10 := by
    intro thr hthr
    rw [List.mem_singleton.mp hthr, hmanager]
    exact h.window
  obtain ⟨report, hpurge⟩ := ADEvent.purgeCallList_window hwindow
  obtain ⟨v, hv, hvmanager, rfl, hvseen⟩ : ∃ v, s.analyse endFrame = .ok v ∧
      v.driver.manager = data.source.manager.clearUnlabeled ∧ v.outlier = outlier ∧
      v.funcSeen = s.funcSeen := by
    unfold analyse
    change ∃ v, (run frozenStdDev.algo.setAlgorithm.toADAlgorithm s.outlier
      (ADDataInterface.new (frozenStdDev.setupInterface s.funcSeen s.driver.manager [5]))
      SstdParam.new >>= _) = _ ∧ _
    rw [hrun]
    change ∃ v, ((data.source.manager.purgeCallList [onlyThread] 10 >>= _) >>= _) = _ ∧ _
    rw [hpurge]
    exact ⟨_, rfl, rfl, rfl, hseen⟩
  have hdo : Driver.doAnalysisOnStep frozenStdDev.driver s.driver.step = true :=
    decide_eq_true (Nat.mod_one _)
  refine ⟨{ v with driver := { v.driver with step := v.driver.step + 1 } }, ?_, ?_, ?_⟩
  · unfold Lists
    dsimp only [endFrame]
    rw [hread]
    unfold ListsFunctions
    dsimp only
    rw [h.functions]
    exact ⟨List.nodup_singleton 5, fun fid hfid _ => hfid⟩
  · unfold runFrame
    dsimp only [endFrame]
    rw [hread]
    change (if Driver.doAnalysisOnStep frozenStdDev.driver s.driver.step = true then
      s.analyse endFrame >>= _ else _) = _
    rw [if_pos hdo, hv]
    rfl
  · rw [hmanager] at hvmanager
    have hcall := calls_setOutlierScore s.driver.manager 1 (-1)
    set scored := s.driver.manager.modifyCall 1 fun d => d.setOutlierScore (-1)
    constructor
    · change v.driver.manager.functions = [5]
      rw [hvmanager]
      change ((List.range s.driver.manager.nextRef).map fun it => (scored.calls it).fid).dedup = [5]
      rw [funext fun it => (hcall it).1]
      exact h.functions
    · change v.driver.manager.execDataMap 5 = [1]
      rw [hvmanager]
      change ((s.driver.manager.execDataMap 5).filter fun it => (scored.calls it).label = 0) = [1]
      rw [h.execData, List.filter_eq_self]
      intro it hit
      rw [List.mem_singleton.mp hit]
      exact decide_eq_true ((hcall 1).2.2.trans h.label)
    · change (v.driver.manager.calls 1).fid = 5
      rw [hvmanager]
      exact (hcall 1).1.trans h.fid
    · change (v.driver.manager.calls 1).label = 0
      rw [hvmanager]
      exact (hcall 1).2.2.trans h.label
    · change site v.driver.manager 1 ∈ v.funcSeen
      rw [hvmanager, hvseen]
      change ((scored.calls 1).thread, (scored.calls 1).fid) ∈ s.funcSeen
      rw [(hcall 1).1, (hcall 1).2.1]
      exact h.seen
    · change (v.driver.manager.callList onlyThread).length ≤ 10
      rw [hvmanager]
      exact h.window
    · exact hfreq
    · exact hlacks

/-- Any number of frames report data. -/
theorem Stuck.idles {s : AnalysisDriver frozenStdDev.algo.Param} (h : Stuck s) (n : ℕ) :
    ∃ t, Idles s n t := by
  have hstuck : ∃ t, Idles s n t ∧ Stuck t := by
    induction n with
    | zero => exact ⟨s, .refl, h⟩
    | succ n ih =>
      obtain ⟨t, hidles, ht⟩ := ih
      obtain ⟨u, hlists, hframe, hu⟩ := ht.next
      exact ⟨u, hidles.step rfl hlists hframe, hu⟩
  exact hstuck.imp fun _ ht => ht.1

/-- The next analysis neither labels the call nor leaves it out. -/
theorem Stuck.not_settles {s : AnalysisDriver frozenStdDev.algo.Param} (h : Stuck s) :
    ¬s.Settles := by
  intro hs
  have hmem : (1 : CallRef) ∈ s.driver.manager.execDataMap 5 := by
    rw [h.execData]
    exact List.mem_singleton_self 1
  rcases hs 5 1 hmem with hgood | ⟨-, hunseen, -⟩
  · exact hgood h.lacks
  · exact hunseen h.seen

omit [LibM] in
/-- A run reaches such a state. -/
theorem exists_stuck : letI := LibM.interpolated
    ∃ s : AnalysisDriver frozenStdDev.algo.Param,
      Runs (StepOf exec) Lists (start frozenStdDev SstdParam.new) s ∧ Stuck s := by
  let _ := LibM.interpolated
  have hrun : ∃ s ∈ runAll (@exec _ frozenStdDev) Lists (start frozenStdDev SstdParam.new)
      [.runFrame twoCallsFrame], s.driver.manager.functions = [5] ∧
        s.driver.manager.execDataMap 5 = [1] ∧ (s.driver.manager.calls 1).fid = 5 ∧
        (s.driver.manager.calls 1).label = 0 ∧ site s.driver.manager 1 ∈ s.funcSeen ∧
        (s.driver.manager.callList onlyThread).length ≤ 10 ∧ s.outlier.globalModelSyncFreq = 0 ∧
        (ADOutlierSSTD.statsAt s.outlier.param 5).count < 2 := by
    decide +kernel
  obtain ⟨s, hs, hfunctions, hexec, hfid, hlabel, hseen, hwindow, hfreq, hlacks⟩ := hrun
  exact ⟨s, runs_of_runAll _ hs, hfunctions, hexec, hfid, hlabel, hseen, hwindow, hfreq, hlacks⟩

end AnalysisDriver

end Chimbuko
