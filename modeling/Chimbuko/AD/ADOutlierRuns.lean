import Chimbuko.AD.ADExecDataInterfaceRuns

/-!
# An analysis of the exec-data map

The algorithms run over the exec-data map. The values of all unlabeled executions that are not
ignored go into the local model, function by function. After that model was synchronised or not,
each of these executions gets what the rank's copy of the global model gives its value, and this
copy gives all values the same at the end as before the first one.
-/

namespace Chimbuko

open ADExecDataInterface TransitionSystem

namespace ADOutlier

variable {P J : Type} {A : ReportingAlgorithm P J} {assess : P → ℕ → ℚ → Assessment}
  {params : P → ℕ → J}

/-- The statistics of a run over data sets, which are given with their model indices. -/
def addDataSets (A : ADAlgorithm P) (dataSets : List (ℕ × List ℚ)) : Except String P :=
  dataSets.foldlM (fun param x => A.addValues param x.1 x.2) A.runParam

/-- The values of the data set of a function. -/
def valuesOf (iface : ADExecDataInterface) (fid : ℕ) : ℕ × List ℚ :=
  (fid, (iface.dataSetOf fid).map Elem.value)

/-- The unlabeled executions of some functions. -/
def presentedCalls (manager : ADEvent) (fids : List ℕ) : List CallRef :=
  fids.flatMap fun fid => (unlabeled manager fid).map Prod.fst

/-- Ignoring executions of other functions leaves the unlabeled ones as they are. -/
private theorem unlabeled_ignoring {before after : ADExecDataInterface} {ignored : List CallRef}
    (h : Ignoring before after ignored) {fid : ℕ}
    (hother : ∀ it ∈ ignored, it ∉ before.manager.execDataMap fid) :
    unlabeled after.manager fid = unlabeled before.manager fid := by
  unfold unlabeled
  rw [h.execDataMap]
  apply List.filter_congr
  intro entry hentry
  have hmem := List.fst_mem_of_mem_zipIdx hentry
  have hlabel := h.label_eq entry.1
  have hnot : entry.1 ∉ ignored := fun hit => hother _ hit hmem
  simp only [hlabel, hnot, not_false_eq_true, and_true]

/-- What was gathered from the first functions. -/
private structure GatheredFrom (A : ADAlgorithm P) (iface : ADExecDataInterface) (n : ℕ)
    (g : Gathered P ADExecDataInterface) (ignored : List CallRef) : Prop where
  ignoring : Ignoring iface g.data.source ignored
  mem : ∀ it ∈ ignored, ∃ fid ∈ iface.dsetFidMap.take n, it ∈ iface.manager.execDataMap fid
  firstCalls : iface.funcIgnore = [] → FirstCalls iface g.data.source ignored
    (presentedCalls g.data.source.manager (iface.dsetFidMap.take n))
  cache : ∀ k, n ≤ k → g.data.source.dsetCache.lookup k = none
  cached : ∀ k fid, k < n → iface.dsetFidMap[k]? = some fid →
    (g.data.source.dsetCache.lookup k).getD [] = g.data.source.dataSetOf fid
  dataVals : g.dataVals = (iface.dsetFidMap.take n).map g.data.source.dataSetOf
  param : addDataSets A ((iface.dsetFidMap.take n).map (valuesOf g.data.source)) = .ok g.param

/-- Gathering the next data set adds its elements. -/
private theorem GatheredFrom.gather {iface : ADExecDataInterface}
    (hvalid : ExecsValid iface.manager) (hnodup : iface.dsetFidMap.Nodup) {n : ℕ}
    {g g' : Gathered P ADExecDataInterface} {ignored : List CallRef}
    (hg : GatheredFrom A.toADAlgorithm iface n g ignored)
    (h : ADOutlier.gather A.toADAlgorithm g n = .ok g') :
    ∃ ignored', GatheredFrom A.toADAlgorithm iface (n + 1) g' ignored' := by
  obtain ⟨⟨elems, data⟩, hget, h⟩ := bind_eq_ok h
  obtain ⟨⟨elems', source⟩, hsource, hget⟩ := bind_eq_ok hget
  cases hget
  obtain ⟨modelIdx, hmodel, h⟩ := bind_eq_ok h
  obtain ⟨param, hparam, h⟩ := bind_eq_ok h
  cases h
  have hignoring := hg.ignoring
  have hcache := hg.cache n le_rfl
  change g.data.source.getDataSet n = _ at hsource
  change source.getDataSetModelIndex n = _ at hmodel
  cases hfid : iface.dsetFidMap[n]? with
  | none =>
    unfold ADExecDataInterface.getDataSet at hsource
    rw [hcache, hignoring.dsetFidMap, hfid] at hsource
    cases hsource
  | some fid =>
    have hfid' : g.data.source.dsetFidMap[n]? = some fid := by rw [hignoring.dsetFidMap, hfid]
    obtain ⟨ignored', hignoring', hin', hcache', hcached, rfl, hcalls⟩ :=
      getDataSet_spec (hignoring.execsValid hvalid) hfid' hcache hsource
    have hidx : modelIdx = fid := by
      unfold ADExecDataInterface.getDataSetModelIndex at hmodel
      rw [hignoring'.dsetFidMap, hfid'] at hmodel
      cases hmodel
      rfl
    have htake : iface.dsetFidMap.take (n + 1) = iface.dsetFidMap.take n ++ [fid] := by
      rw [List.take_add_one, hfid]
      rfl
    have hfresh : ∀ fid' ∈ iface.dsetFidMap.take n, fid' ≠ fid := by
      intro fid' hmem heq
      have hsub := hnodup.sublist (List.take_sublist (n + 1) _)
      rw [htake, List.nodup_append] at hsub
      exact hsub.2.2 fid' hmem fid List.mem_cons_self heq
    have hlabels : ∀ fid' ∈ iface.dsetFidMap.take n,
        unlabeled source.manager fid' = unlabeled g.data.source.manager fid' := by
      intro fid' hmem
      apply unlabeled_ignoring hignoring'
      intro it hit hother
      have hvalid' := hignoring.execsValid hvalid
      have heq := (hvalid'.fid_eq fid' it hother).symm.trans (hvalid'.fid_eq fid it (hin' it hit))
      exact hfresh fid' hmem heq
    have hsame : ∀ fid' ∈ iface.dsetFidMap.take n,
        source.dataSetOf fid' = g.data.source.dataSetOf fid' := by
      intro fid' hmem
      unfold dataSetOf
      rw [hignoring'.elemOf_eq, hlabels fid' hmem]
    refine ⟨ignored ++ ignored', hignoring.trans hignoring', ?_, fun hfunc => ?_, ?_, ?_, ?_, ?_⟩
    · intro it hit
      rw [htake]
      rcases List.mem_append.mp hit with hold | hnew
      · obtain ⟨fid', hmem, hexec⟩ := hg.mem it hold
        exact ⟨fid', List.mem_append_left _ hmem, hexec⟩
      · refine ⟨fid, List.mem_append_right _ List.mem_cons_self, ?_⟩
        have hexec := hin' it hnew
        rwa [hignoring.execDataMap] at hexec
    · have hfirst := hg.firstCalls hfunc
      have hpassed : presentedCalls source.manager (iface.dsetFidMap.take (n + 1)) =
          presentedCalls g.data.source.manager (iface.dsetFidMap.take n) ++
            (unlabeled source.manager fid).map Prod.fst := by
        unfold presentedCalls
        rw [htake, List.flatMap_append, List.flatMap_singleton]
        congr 1
        exact List.flatMap_congr fun fid' hmem => by rw [hlabels fid' hmem]
      change FirstCalls iface source _ (presentedCalls source.manager _)
      rw [hpassed]
      exact hfirst.trans hignoring.site_eq (hcalls (hfirst.funcIgnore.trans hfunc))
    · intro k hk
      have hne : k ≠ n := Nat.ne_of_gt hk
      exact (hcache' k hne).trans (hg.cache k (Nat.le_of_succ_le hk))
    · intro k fid' hk hfid''
      by_cases hkn : k = n
      · rw [hkn, hfid] at hfid''
        rw [hkn, ← Option.some.inj hfid'']
        exact hcached
      · have hlt : k < n := lt_of_le_of_ne (Nat.le_of_lt_succ hk) hkn
        have hmem : fid' ∈ iface.dsetFidMap.take n := by
          apply List.mem_of_getElem? (i := k)
          rw [List.getElem?_take_of_lt hlt]
          exact hfid''
        change (source.dsetCache.lookup k).getD [] = _
        rw [hcache' k hkn, hg.cached k fid' hlt hfid'']
        exact (hsame fid' hmem).symm
    · have hvals : g.dataVals = (iface.dsetFidMap.take n).map source.dataSetOf := by
        rw [hg.dataVals]
        exact List.map_congr_left fun fid' hmem => (hsame fid' hmem).symm
      rw [htake, List.map_append, hvals]
      rfl
    · have hvalues : (iface.dsetFidMap.take n).map (valuesOf source) =
          (iface.dsetFidMap.take n).map (valuesOf g.data.source) := by
        apply List.map_congr_left
        intro fid' hmem
        unfold valuesOf
        rw [hsame fid' hmem]
      have hbefore := hg.param
      rw [hidx] at hparam
      rw [htake, List.map_append]
      unfold addDataSets at hbefore ⊢
      rw [List.foldlM_append, hvalues, hbefore]
      change (A.addValues g.param fid ((source.dataSetOf fid).map Elem.value) >>= pure) = .ok param
      change A.addValues g.param fid ((source.dataSetOf fid).map Elem.value) = .ok param at hparam
      rw [hparam]
      rfl

/-- Gathering the data sets of all functions. -/
private theorem gatheredFrom_of_foldlM {iface : ADExecDataInterface}
    (hvalid : ExecsValid iface.manager) (hnodup : iface.dsetFidMap.Nodup)
    (hcache : iface.dsetCache = ∅) {n : ℕ} {g : Gathered P ADExecDataInterface}
    (h : (List.range n).foldlM (ADOutlier.gather A.toADAlgorithm)
      { dataVals := [], param := A.runParam, data := ADDataInterface.new iface } = .ok g) :
    ∃ ignored, GatheredFrom A.toADAlgorithm iface n g ignored := by
  induction n generalizing g with
  | zero =>
    cases h
    refine ⟨[], .refl iface, fun _ h => absurd h List.not_mem_nil, fun _ => .refl iface, ?_, ?_,
      rfl, rfl⟩
    · intro k _
      change iface.dsetCache.lookup k = none
      rw [hcache]
      exact AList.lookup_empty k
    · intro k _ hk
      exact absurd hk (Nat.not_lt_zero k)
  | succ n ih =>
    rw [List.range_succ, List.foldlM_append] at h
    obtain ⟨g', hfirst, h⟩ := bind_eq_ok h
    obtain ⟨g'', hlast, h⟩ := bind_eq_ok h
    cases h
    obtain ⟨ignored, hg⟩ := ih hfirst
    exact hg.gather hvalid hnodup hlast

/-- The interface when the labels of some functions were recorded. -/
def recorded (assess : P → ℕ → ℚ → Assessment) (iface : ADExecDataInterface) (param : P)
    (done : List ℕ) : ADExecDataInterface :=
  { iface with
    manager := assessCalls (fun fid d => assess param fid (iface.getStatisticValue d)) done
      iface.manager }

/-- Labeling a data set records what its elements get. -/
private theorem labelDataSet_recorded (hA : A.AssessesBy assess params)
    {iface : ADExecDataInterface} (hvalid : ExecsValid iface.manager) {param : P} {done : List ℕ}
    {k fid : ℕ} (hfid : iface.dsetFidMap[k]? = some fid) (hdone : fid ∉ done)
    {s t : ADOutlier P × ADDataInterface ADExecDataInterface}
    (hassess : assess s.1.param = assess param)
    (hsource : s.2.source = recorded assess iface param done)
    (h : ADOutlier.labelDataSet A.toADAlgorithm s (iface.dataSetOf fid, k) = .ok t) :
    (∃ labeled, A.labelData s.1.param (iface.dataSetOf fid) fid = .ok labeled ∧
        t.1.param = labeled.param) ∧
      assess t.1.param = assess param ∧
      t.1 = { s.1 with param := t.1.param, thresholds := t.1.thresholds } ∧
      t.2.source = recorded assess iface param (done ++ [fid]) := by
  obtain ⟨modelIdx, labeled, hmodel, hlabeled, hrecord, ht⟩ := labelDataSet_cases h
  obtain ⟨source, hinternal, hdata⟩ := bind_eq_ok hrecord
  have hidx : modelIdx = fid := by
    change s.2.source.getDataSetModelIndex k = _ at hmodel
    unfold ADExecDataInterface.getDataSetModelIndex at hmodel
    have hmap : (recorded assess iface param done).dsetFidMap = iface.dsetFidMap := rfl
    rw [hsource, hmap, hfid] at hmodel
    cases hmodel
    rfl
  rw [hidx] at hlabeled
  have helems : iface.dataSetOf fid = ((unlabeled iface.manager fid).map fun entry =>
      (iface.getStatisticValue (iface.manager.calls entry.1), entry.2)).map
        fun x => Elem.new x.1 x.2 := by
    unfold dataSetOf
    rw [List.map_map]
    rfl
  have hlabels : labeled.data = (unlabeled iface.manager fid).map fun entry =>
      assessElem (assess param fid)
        (iface.getStatisticValue (iface.manager.calls entry.1), entry.2) := by
    have hdata := hlabeled
    rw [helems] at hdata
    rw [hA.data hdata, List.map_map, hassess]
    rfl
  change s.2.source.recordDataSetLabelsInternal labeled.data k = _ at hinternal
  rw [hlabels, recordDataSetLabelsInternal_spec hvalid hfid hdone hsource] at hinternal
  cases hinternal
  refine ⟨⟨labeled, hlabeled, by rw [ht]⟩, ?_, ?_, ?_⟩
  · rw [ht]
    exact (hA.assess_eq hlabeled).trans hassess
  · rw [ht]
  · rw [← Except.ok.inj hdata]
    rfl

/-- All data sets of some functions are labeled, by models that have what labeling keeps, and so
has the model that is left. -/
def LabelsAll (A : ADAlgorithm P) (param after : P) (iface : ADExecDataInterface)
    (fids : List ℕ) : Prop :=
  ∀ Q : P → Prop, Q param →
    (∀ p data idx r, Q p → A.labelData p data idx = .ok r → Q r.param) →
    Q after ∧ ∀ fid ∈ fids, ∃ p r, Q p ∧ A.labelData p (iface.dataSetOf fid) fid = .ok r

/-- Labeling the data sets from some position on. -/
private theorem labelDataSets_recorded (hA : A.AssessesBy assess params)
    {iface : ADExecDataInterface} (hvalid : ExecsValid iface.manager)
    (hnodup : iface.dsetFidMap.Nodup) {param : P} (fids : List ℕ) {k : ℕ}
    (hfids : iface.dsetFidMap.drop k = fids)
    {s t : ADOutlier P × ADDataInterface ADExecDataInterface}
    (hassess : assess s.1.param = assess param)
    (hsource : s.2.source = recorded assess iface param (iface.dsetFidMap.take k))
    (h : ((fids.map iface.dataSetOf).zipIdx k).foldlM
      (ADOutlier.labelDataSet A.toADAlgorithm) s = .ok t) :
    LabelsAll A.toADAlgorithm s.1.param t.1.param iface fids ∧
      assess t.1.param = assess param ∧
      t.1 = { s.1 with param := t.1.param, thresholds := t.1.thresholds } ∧
      t.2.source = recorded assess iface param iface.dsetFidMap := by
  induction fids generalizing k s with
  | nil =>
    cases h
    rw [List.take_of_length_le (List.drop_eq_nil_iff.mp hfids)] at hsource
    exact ⟨fun _ hQ _ => ⟨hQ, fun _ h => absurd h List.not_mem_nil⟩, hassess, rfl, hsource⟩
  | cons fid rest ih =>
    rw [List.map_cons, List.zipIdx_cons, List.foldlM_cons] at h
    obtain ⟨next, hfirst, hrest⟩ := bind_eq_ok h
    have hfid : iface.dsetFidMap[k]? = some fid := by
      rw [← List.head?_drop, hfids]
      rfl
    have htake : iface.dsetFidMap.take (k + 1) = iface.dsetFidMap.take k ++ [fid] := by
      rw [List.take_add_one, hfid]
      rfl
    have hdone : fid ∉ iface.dsetFidMap.take k := by
      have hsub := hnodup.sublist (List.take_sublist (k + 1) _)
      rw [htake, List.nodup_append] at hsub
      intro hmem
      exact hsub.2.2 fid hmem fid List.mem_cons_self rfl
    obtain ⟨⟨labeled, hlabeled, hparam⟩, hassess', hframe, hsource'⟩ :=
      labelDataSet_recorded hA hvalid hfid hdone hassess hsource hfirst
    rw [← htake] at hsource'
    have hdrop : iface.dsetFidMap.drop (k + 1) = rest := by
      rw [← List.drop_drop, hfids]
      rfl
    obtain ⟨hlabels, hassess'', hframe', hsource''⟩ := ih hdrop hassess' hsource' hrest
    refine ⟨?_, hassess'', ?_, hsource''⟩
    · intro Q hQ hkeep
      rw [hparam] at hlabels
      obtain ⟨hafter, hlater⟩ := hlabels Q (hkeep _ _ _ _ hQ hlabeled) hkeep
      refine ⟨hafter, fun fid' hfid' => ?_⟩
      rcases List.mem_cons.mp hfid' with rfl | hmem
      · exact ⟨_, labeled, hQ, hlabeled⟩
      · exact hlater fid' hmem
    · rw [hframe', hframe]

/-- What an analysis does: some executions are ignored, the values of those that are presented go
into the local model, which is synchronised or not, and then they are labeled. -/
structure Analysed (A : ADAlgorithm P) (assess : P → ℕ → ℚ → Assessment)
    (iface presented done : ADExecDataInterface) (ignored : List CallRef) (reply : P)
    (before synced after : ADOutlier P) : Prop where
  ignoring : Ignoring iface presented ignored
  ignored_mem : ∀ it ∈ ignored, ∃ fid ∈ iface.dsetFidMap, it ∈ iface.manager.execDataMap fid
  firstCalls : iface.funcIgnore = [] → FirstCalls iface presented ignored
    (presentedCalls presented.manager iface.dsetFidMap)
  updated : ∃ param localParam,
    addDataSets A (iface.dsetFidMap.map (valuesOf presented)) = .ok param ∧
    A.update before.localParam param = .ok localParam ∧
    { before with localParam := localParam }.updateGlobalModel A reply = .ok synced
  cached : ∀ k fid, iface.dsetFidMap[k]? = some fid →
    (presented.dsetCache.lookup k).getD [] = presented.dataSetOf fid
  recorded : done = recorded assess presented synced.param iface.dsetFidMap
  labels : LabelsAll A synced.param after.param presented iface.dsetFidMap
  assess_eq : assess after.param = assess synced.param
  kept : after = { synced with param := after.param, thresholds := after.thresholds }

/-- A run of the algorithm is an analysis. -/
theorem analysed_of_run (hA : A.AssessesBy assess params) {iface : ADExecDataInterface}
    (hvalid : ExecsValid iface.manager) (hnodup : iface.dsetFidMap.Nodup)
    (hcache : iface.dsetCache = ∅) {reply : P} {self self' : ADOutlier P}
    {data : ADDataInterface ADExecDataInterface}
    (h : self.run A.toADAlgorithm (ADDataInterface.new iface) reply = .ok (self', data)) :
    ∃ presented ignored synced,
      Analysed A.toADAlgorithm assess iface presented data.source ignored reply self synced
        self' := by
  obtain ⟨g, localParam, synced, hgather, hlocal, hsynced, hlabel⟩ := run_cases h
  have hlength : (ADDataInterface.new iface).nDataSets = iface.dsetFidMap.length :=
    List.length_replicate
  rw [hlength] at hgather
  obtain ⟨ignored, hg⟩ := gatheredFrom_of_foldlM hvalid hnodup hcache hgather
  have hignoring := hg.ignoring
  have hin := hg.mem
  have hfirst := hg.firstCalls
  have hvals := hg.dataVals
  have hparam := hg.param
  rw [List.take_length] at hvals hparam hin hfirst
  rw [hvals, ← hignoring.dsetFidMap] at hlabel
  have hstart : g.data.source = recorded assess g.data.source synced.param
      (g.data.source.dsetFidMap.take 0) := by
    unfold recorded
    rw [List.take_zero, assessCalls_nil]
  have hnodup' : g.data.source.dsetFidMap.Nodup := by rwa [hignoring.dsetFidMap]
  obtain ⟨hlabels, hassess, hframe, hsource⟩ := labelDataSets_recorded hA
    (hignoring.execsValid hvalid) hnodup' _ (k := 0) rfl (s := (synced, g.data)) rfl hstart hlabel
  rw [hignoring.dsetFidMap] at hsource hlabels
  have hcached : ∀ k fid, iface.dsetFidMap[k]? = some fid →
      (g.data.source.dsetCache.lookup k).getD [] = g.data.source.dataSetOf fid :=
    fun k fid hfid => hg.cached k fid (List.getElem?_eq_some_iff.mp hfid).1 hfid
  exact ⟨g.data.source, ignored, synced, hignoring, hin, hfirst,
    ⟨g.param, localParam, hparam, hlocal, hsynced⟩, hcached, hsource, hlabels, hassess, hframe⟩

/-- The executions presented are those of the functions that have no label. -/
theorem mem_presentedCalls {manager : ADEvent} {fids : List ℕ} {it : CallRef} :
    it ∈ presentedCalls manager fids ↔
      ∃ fid ∈ fids, it ∈ manager.execDataMap fid ∧ (manager.calls it).label = 0 := by
  unfold presentedCalls
  rw [List.mem_flatMap]
  simp only [mem_unlabeled]

/-- The executions that are presented are distinct. -/
theorem nodup_presentedCalls {manager : ADEvent} (hvalid : ExecsValid manager) {fids : List ℕ}
    (hnodup : fids.Nodup) : (presentedCalls manager fids).Nodup := by
  unfold presentedCalls
  rw [List.nodup_flatMap]
  constructor
  · intro fid _
    have hall : ((manager.execDataMap fid).zipIdx.map Prod.fst).Nodup := by
      rw [List.zipIdx_map_fst]
      exact hvalid.nodup fid
    exact hall.sublist (List.filter_sublist.map _)
  · apply hnodup.imp
    intro fid fid' hne it hit hit'
    have hmem := (mem_unlabeled.mp hit).1
    have hmem' := (mem_unlabeled.mp hit').1
    exact hne ((hvalid.fid_eq fid it hmem).symm.trans (hvalid.fid_eq fid' it hmem'))

/-- An analysis ignores an execution, gives it what its value gets, or leaves it as it is. -/
theorem Analysed.call_cases {A : ADAlgorithm P} {assess : P → ℕ → ℚ → Assessment}
    {iface presented done : ADExecDataInterface} {ignored : List CallRef} {reply : P}
    {before synced after : ADOutlier P}
    (h : Analysed A assess iface presented done ignored reply before synced after)
    (hvalid : ExecsValid iface.manager) (it : CallRef) :
    it ∈ ignored ∧ it ∉ presentedCalls presented.manager iface.dsetFidMap ∧
        done.manager.calls it = (iface.manager.calls it).setLabel 1 ∨
      it ∉ ignored ∧
        (it ∈ presentedCalls presented.manager iface.dsetFidMap ∧
            done.manager.calls it = assessed (assess synced.param (iface.manager.calls it).fid
              (iface.getStatisticValue (iface.manager.calls it))) (iface.manager.calls it) ∨
          it ∉ presentedCalls presented.manager iface.dsetFidMap ∧
            done.manager.calls it = iface.manager.calls it) := by
  have hstatistic : presented.getStatisticValue = iface.getStatisticValue := by
    unfold getStatisticValue
    rw [h.ignoring.statistic]
  have hmem : it ∈ presentedCalls presented.manager iface.dsetFidMap ↔
      (presented.manager.calls it).label = 0 ∧
        (presented.manager.calls it).fid ∈ iface.dsetFidMap ∧
        it ∈ presented.manager.execDataMap (presented.manager.calls it).fid := by
    rw [mem_presentedCalls]
    constructor
    · rintro ⟨fid, hfid, hexec, hlabel⟩
      have heq := (h.ignoring.execsValid hvalid).fid_eq fid it hexec
      rw [heq]
      exact ⟨hlabel, hfid, hexec⟩
    · rintro ⟨hlabel, hfid, hexec⟩
      exact ⟨_, hfid, hexec, hlabel⟩
  have hcall : done.manager.calls it =
      if it ∈ presentedCalls presented.manager iface.dsetFidMap then
        assessed (assess synced.param (presented.manager.calls it).fid
          (presented.getStatisticValue (presented.manager.calls it))) (presented.manager.calls it)
      else presented.manager.calls it := by
    rw [h.recorded]
    simp only [hmem]
    rfl
  rw [hcall]
  have hpresented : presented.manager.calls it =
      if it ∈ ignored then (iface.manager.calls it).setLabel 1 else iface.manager.calls it := by
    rw [h.ignoring.manager]
    rfl
  by_cases hit : it ∈ ignored
  · have hnot : it ∉ presentedCalls presented.manager iface.dsetFidMap := by
      rw [mem_presentedCalls]
      rintro ⟨fid, -, -, hlabel⟩
      exact ((h.ignoring.label_eq it).mp hlabel).2 hit
    rw [if_neg hnot, hpresented, if_pos hit]
    exact Or.inl ⟨hit, hnot, rfl⟩
  · rw [if_neg hit] at hpresented
    by_cases hin : it ∈ presentedCalls presented.manager iface.dsetFidMap
    · rw [if_pos hin, hpresented, hstatistic]
      exact Or.inr ⟨hit, Or.inl ⟨hin, rfl⟩⟩
    · rw [if_neg hin, hpresented]
      exact Or.inr ⟨hit, Or.inr ⟨hin, rfl⟩⟩

end ADOutlier

end Chimbuko
