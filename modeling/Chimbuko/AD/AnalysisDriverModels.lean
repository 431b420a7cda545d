import Chimbuko.AD.AnalysisDriverRuns
import Chimbuko.Core.ADOutlierHolds
import Chimbuko.Library.Batching

/-!
# The models of a run

The values that the analyses take go into the local model, and with it into the models that are
sent or merged. Each model holds the values of the analyses since the previous one, so every value
that was taken is in exactly one of them or still in the local model. A value that was taken twice,
because the execution was not labeled the first time, is there twice.
-/

namespace Chimbuko

open ADExecDataInterface ADOutlier Batching Retaking TransitionSystem

/-- The values of a function among executions that were taken. -/
def valuesAt (given : List GivenExec) (fid : ℕ) : List ℚ :=
  (given.filter fun e => e.fid = fid).map GivenExec.value

/-- No executions have no values. -/
@[simp] theorem valuesAt_nil (fid : ℕ) : valuesAt [] fid = [] := rfl

/-- The values of executions and others are those of all of them. -/
@[simp] theorem valuesAt_append (given given' : List GivenExec) (fid : ℕ) :
    valuesAt (given ++ given') fid = valuesAt given fid ++ valuesAt given' fid := by
  unfold valuesAt
  rw [List.filter_append, List.map_append]

/-- The executions of each function are taken together. -/
theorem valuesAt_flatMap {fids : List ℕ} (hnodup : fids.Nodup) (taken : ℕ → List GivenExec)
    (hfid : ∀ fid, ∀ e ∈ taken fid, e.fid = fid) (idx : ℕ) :
    valuesAt (fids.flatMap taken) idx =
      if idx ∈ fids then (taken idx).map GivenExec.value else [] := by
  induction fids with
  | nil => rfl
  | cons fid rest ih =>
    obtain ⟨hfresh, hrest⟩ := List.nodup_cons.mp hnodup
    rw [List.flatMap_cons, valuesAt_append, ih hrest]
    unfold valuesAt
    by_cases hidx : idx = fid
    · have hall : (taken idx).filter (fun e => e.fid = idx) = taken idx :=
        List.filter_eq_self.mpr fun e he => decide_eq_true (hfid idx e he)
      rw [← hidx] at hfresh ⊢
      rw [hall, if_neg hfresh, if_pos List.mem_cons_self, List.append_nil]
    · have hnone : (taken fid).filter (fun e => e.fid = idx) = [] := by
        apply List.filter_eq_nil_iff.mpr
        intro e he heq
        exact hidx ((of_decide_eq_true heq).symm.trans (hfid fid e he))
      rw [hnone, List.map_nil, List.nil_append]
      have hiff : idx ∈ fid :: rest ↔ idx ∈ rest := by
        rw [List.mem_cons, or_iff_right hidx]
      simp only [hiff]

/-- The statistics of a run hold the values of its data sets. -/
theorem ADAlgorithm.Keeps.addDataSets {P : Type} {A : ADAlgorithm P}
    {Holds : P → (ℕ → List ℚ) → Prop} {Ready : P → Prop} (hA : A.Keeps Holds Ready)
    {fids : List ℕ} (hnodup : fids.Nodup) (values : ℕ → List ℚ) {param : P}
    (h : ADOutlier.addDataSets A (fids.map fun fid => (fid, values fid)) = .ok param) :
    Holds param (fun idx => if idx ∈ fids then values idx else []) ∧ Ready param := by
  have hfrom : ∀ {p pushed}, Holds p pushed → Ready p → (∀ fid ∈ fids, pushed fid = []) →
      (fids.map fun fid => (fid, values fid)).foldlM
        (fun param x => A.addValues param x.1 x.2) p = .ok param →
      Holds param (fun idx => if idx ∈ fids then values idx else pushed idx) ∧ Ready param := by
    clear h
    intro p pushed hp hready hempty h
    induction fids generalizing p pushed with
    | nil =>
      cases h
      exact ⟨hp, hready⟩
    | cons fid rest ih =>
      obtain ⟨hfresh, hrest⟩ := List.nodup_cons.mp hnodup
      rw [List.map_cons, List.foldlM_cons] at h
      obtain ⟨q, hq, h⟩ := bind_eq_ok h
      obtain ⟨hq, hready'⟩ := hA.addValues hp hready (hempty fid List.mem_cons_self) hq
      have hafter := ih hrest hq hready' (fun fid' hmem => ?_) h
      · convert hafter using 2
        funext idx
        by_cases hidx : idx = fid
        · rw [hidx, if_pos List.mem_cons_self, if_neg hfresh, Function.update_self]
        · have hiff : idx ∈ fid :: rest ↔ idx ∈ rest := by
            rw [List.mem_cons, or_iff_right hidx]
          rw [Function.update_of_ne hidx]
          simp only [hiff]
      · have hne : fid' ≠ fid := fun heq => hfresh (heq ▸ hmem)
        rw [Function.update_of_ne hne]
        exact hempty fid' (List.mem_cons_of_mem _ hmem)
  exact hfrom hA.runParam.1 hA.runParam.2 (fun _ _ => rfl) h

/-- The executions that an analysis took have the values of the data sets. -/
theorem valuesAt_givenOf {P : Type} {A : ADAlgorithm P} {assess : P → ℕ → ℚ → Assessment}
    {iface presented done : ADExecDataInterface} {ignored : List CallRef} {reply : P}
    {before synced after : ADOutlier P}
    (h : Analysed A assess iface presented done ignored reply before synced after)
    (hnodup : iface.dsetFidMap.Nodup) (idx : ℕ) :
    valuesAt (givenOf done) idx =
      if idx ∈ iface.dsetFidMap then (presented.dataSetOf idx).map Elem.value else [] := by
  rw [givenOf_eq h, valuesAt_flatMap hnodup]
  · unfold dataSetOf
    simp only [List.map_map]
    rfl
  · intro fid e he
    obtain ⟨entry, -, rfl⟩ := List.mem_map.mp he
    rfl

namespace ADOutlier

/-- Synchronising counts the calls. -/
theorem updateGlobalModel_calls {P : Type} {A : ADAlgorithm P} {self self' : ADOutlier P}
    {reply : P} (h : self.updateGlobalModel A reply = .ok self') :
    self'.useParameterServer = self.useParameterServer ∧
      self'.globalModelSyncFreq = self.globalModelSyncFreq ∧ self'.rank = self.rank ∧
      self'.syncCallCount = self.syncCallCount + 1 := by
  unfold updateGlobalModel at h
  by_cases hsyncs : self.Syncs
  · rw [if_pos hsyncs] at h
    obtain ⟨synced, hsynced, h⟩ := bind_eq_ok h
    cases h
    unfold syncParam at hsynced
    by_cases hserver : self.useParameterServer = true
    · rw [if_pos hserver] at hsynced
      cases hsynced
      exact ⟨rfl, rfl, rfl, rfl⟩
    · rw [if_neg hserver] at hsynced
      obtain ⟨merged, -, hsynced⟩ := bind_eq_ok hsynced
      cases hsynced
      exact ⟨rfl, rfl, rfl, rfl⟩
  · rw [if_neg hsyncs] at h
    cases h
    exact ⟨rfl, rfl, rfl, rfl⟩

/-- The model that is left after labeling is good enough for the same functions. -/
theorem Analysed.usable_iff {P J : Type} {A : ReportingAlgorithm P J}
    {Holds : P → (ℕ → List ℚ) → Prop} {assess : P → ℕ → ℚ → Assessment} {Usable : P → ℕ → Prop}
    {enough : ℕ} (hdecides : A.Decides Holds assess Usable enough)
    {iface presented done : ADExecDataInterface} {ignored : List CallRef} {reply : P}
    {before synced after : ADOutlier P}
    (h : Analysed A.toADAlgorithm assess iface presented done ignored reply before synced after)
    (fid : ℕ) : Usable after.param fid ↔ Usable synced.param fid :=
  (h.labels (fun p => ∀ k, Usable p k ↔ Usable synced.param k) (fun _ => Iff.rfl)
    fun _ _ _ _ hp hlabel k => (hdecides.labelData hlabel k).trans (hp k)).1 fid

/-- The label of an execution that an analysis takes is what the model gives its value. -/
theorem Analysed.label_eq {P : Type} {A : ADAlgorithm P} {assess : P → ℕ → ℚ → Assessment}
    {iface presented done : ADExecDataInterface} {ignored : List CallRef} {reply : P}
    {before synced after : ADOutlier P}
    (h : Analysed A assess iface presented done ignored reply before synced after)
    (hvalid : ExecsValid iface.manager) {e : GivenExec} (he : e ∈ givenOf done) :
    e.label = (labelCode (assess synced.param e.fid e.value).1).getD 0 := by
  rw [givenOf_eq h] at he
  obtain ⟨fid, hfid, he⟩ := List.mem_flatMap.mp he
  obtain ⟨entry, hentry, rfl⟩ := List.mem_map.mp he
  have hmem : entry.1 ∈ presentedCalls presented.manager iface.dsetFidMap :=
    List.mem_flatMap.mpr ⟨fid, hfid, List.mem_map_of_mem hentry⟩
  obtain ⟨hexec, hzero⟩ := mem_unlabeled.mp (List.mem_map_of_mem hentry)
  rw [h.ignoring.execDataMap] at hexec
  rw [h.ignoring.label_eq] at hzero
  have hfunc := hvalid.fid_eq fid entry.1 hexec
  have hcall : done.manager.calls entry.1 = assessed (assess synced.param fid
      (iface.getStatisticValue (iface.manager.calls entry.1))) (iface.manager.calls entry.1) := by
    rcases h.call_cases hvalid entry.1 with ⟨hin, -⟩ | ⟨-, ⟨-, heq⟩ | ⟨hnot, -⟩⟩
    · exact absurd hin hzero.2
    · rwa [hfunc] at heq
    · exact absurd hmem hnot
  change (done.manager.calls entry.1).label =
    (labelCode (assess synced.param fid (presented.elemOf entry).value).1).getD 0
  have hvalue : (presented.elemOf entry).value =
      iface.getStatisticValue (iface.manager.calls entry.1) := by
    rw [h.ignoring.elemOf_eq]
    rfl
  rw [hcall, hvalue]
  unfold assessed
  cases labelCode (assess synced.param fid
    (iface.getStatisticValue (iface.manager.calls entry.1))).1 with
  | none => exact hzero.1
  | some label => rfl

/-- An analysis labels the executions that it takes of those functions for which the model is good
enough. -/
theorem Analysed.label_iff {P J : Type} {A : ReportingAlgorithm P J}
    {Holds : P → (ℕ → List ℚ) → Prop} {assess : P → ℕ → ℚ → Assessment} {Usable : P → ℕ → Prop}
    {enough : ℕ} {params : P → ℕ → J} (hassesses : A.AssessesBy assess params)
    (hdecides : A.Decides Holds assess Usable enough)
    {iface presented done : ADExecDataInterface} {ignored : List CallRef} {reply : P}
    {before synced after : ADOutlier P}
    (h : Analysed A.toADAlgorithm assess iface presented done ignored reply before synced after)
    (hvalid : ExecsValid iface.manager) {e : GivenExec} (he : e ∈ givenOf done) :
    e.label ≠ 0 ↔ Usable after.param e.fid := by
  have hcode : ∀ type : EventType, (labelCode type).getD 0 ≠ 0 ↔ type ≠ .unassigned := by
    intro type
    cases type <;> decide
  rw [h.usable_iff hdecides, h.label_eq hvalid he, hcode]
  rw [givenOf_eq h] at he
  obtain ⟨fid, hfid, he⟩ := List.mem_flatMap.mp he
  obtain ⟨entry, hentry, rfl⟩ := List.mem_map.mp he
  change (assess synced.param fid (presented.elemOf entry).value).1 ≠ _ ↔ Usable synced.param fid
  constructor
  · intro hassigned
    by_contra hnot
    rw [hdecides.undecided hnot] at hassigned
    exact hassigned rfl
  · intro husable
    obtain ⟨p, r, ⟨hp, hsame⟩, hrun⟩ := (h.labels
      (fun p => Usable p fid ∧ assess p = assess synced.param) ⟨husable, rfl⟩
      fun p data idx r hp hlabeled => ⟨(hdecides.labelData hlabeled fid).mpr hp.1,
        (hassesses.assess_eq hlabeled).trans hp.2⟩).2 fid hfid
    have helems : presented.dataSetOf fid = ((unlabeled presented.manager fid).map fun entry =>
        ((presented.elemOf entry).value, entry.2)).map fun x => Elem.new x.1 x.2 := by
      unfold dataSetOf
      rw [List.map_map]
      rfl
    rw [helems] at hrun
    have hdecided := hdecides.decided hp hrun _ (List.mem_map_of_mem hentry)
    rwa [hsame] at hdecided

end ADOutlier

namespace AnalysisParams

/-- Whether the models are synchronised on some call, where calls are counted from zero. -/
def SyncsOn (params : AnalysisParams) (call : ℕ) : Prop :=
  0 < params.globalModelSyncFreq ∧
    (call = 0 ∨ ((call + params.driver.rank : ℕ) : ℤ) % params.globalModelSyncFreq = 0)

instance (params : AnalysisParams) (call : ℕ) : Decidable (params.SyncsOn call) :=
  inferInstanceAs (Decidable (_ ∧ _))

/-- One of so many consecutive calls synchronises. -/
theorem exists_syncsOn {params : AnalysisParams} (hfreq : 0 < params.globalModelSyncFreq)
    (call : ℕ) : ∃ j < params.globalModelSyncFreq.toNat, params.SyncsOn (call + j) := by
  set freq := params.globalModelSyncFreq
  set total : ℤ := ((call + params.driver.rank : ℕ) : ℤ)
  have hnonneg : 0 ≤ (-total) % freq := Int.emod_nonneg _ hfreq.ne'
  have hlt : (-total) % freq < freq := Int.emod_lt_of_pos _ hfreq
  refine ⟨((-total) % freq).toNat, ?_, hfreq, Or.inr ?_⟩
  · omega
  · have hcast : ((call + ((-total) % freq).toNat + params.driver.rank : ℕ) : ℤ) =
        total + (-total) % freq := by
      push_cast
      rw [Int.toNat_of_nonneg hnonneg]
      change (call : ℤ) + _ + _ = ((call + params.driver.rank : ℕ) : ℤ) + _
      push_cast
      ring
    rw [hcast, Int.add_emod_emod, add_neg_cancel, Int.zero_emod]

end AnalysisParams

variable [LibM] {params : AnalysisParams}

/-- What the models hold, in some sense that the algorithm keeps: each model that was sent or merged
the values of its batch, the local model those that wait, and without a server the copy of the
global model those of all batches beside those of the model that was installed. -/
structure EntriesHold (Holds : params.algo.Param → (ℕ → List ℚ) → Prop)
    (model : params.algo.Param) (outlier : ADOutlier params.algo.Param)
    (batches : List (List (List GivenExec))) (rest : List (List GivenExec)) : Prop where
  sent : List.Forall₂ (fun p batch => Holds p (valuesAt batch.flatten)) outlier.sent batches
  waiting : Holds outlier.localParam (valuesAt rest.flatten)
  merged : params.driver.usePS = false → ∀ pushed, Holds model pushed →
    Holds outlier.param fun idx => pushed idx ++ valuesAt batches.flatten.flatten idx

/-- Which values the models hold, and which analyses they come from. -/
structure ModelsHold (params : AnalysisParams) (model : params.algo.Param)
    (outlier : ADOutlier params.algo.Param) (given : List (List GivenExec))
    (batches : List (List (List GivenExec))) (rest : List (List GivenExec)) : Prop where
  server : outlier.useParameterServer = params.driver.usePS
  freq : outlier.globalModelSyncFreq = params.globalModelSyncFreq
  rank : outlier.rank = params.driver.rank
  calls : outlier.syncCallCount = given.length
  batched : Batched params.SyncsOn given batches rest
  entries : ∀ {Holds : params.algo.Param → (ℕ → List ℚ) → Prop},
    params.algo.setAlgorithm.toADAlgorithm.Keeps Holds params.algo.Ready →
      EntriesHold Holds model outlier batches rest

variable {model : params.algo.Param}

/-- At the start the installed model is all there is. -/
theorem modelsHold_start (model : params.algo.Param) :
    ModelsHold params model (AnalysisDriver.start params model).outlier [] [] [] := by
  refine ⟨rfl, rfl, rfl, rfl, .start, fun hkeeps => ⟨.nil, hkeeps.new, fun _ pushed hmodel => ?_⟩⟩
  have hnil : (fun idx => pushed idx ++ valuesAt [] idx) = pushed :=
    funext fun _ => List.append_nil _
  have hassign := hkeeps.assign_new hmodel
  rw [← hnil] at hassign
  exact hassign

/-- The next call synchronises on the schedule. -/
theorem ModelsHold.syncs_iff {outlier : ADOutlier params.algo.Param} {given batches rest}
    (h : ModelsHold params model outlier given batches rest) :
    outlier.Syncs ↔ params.SyncsOn given.length := by
  unfold Syncs AnalysisParams.SyncsOn
  rw [h.freq, h.rank, h.calls]

/-- An analysis puts the values that it takes into the local model, which waits or goes out. -/
theorem ModelsHold.analysed {before synced after : ADOutlier _}
    {given batches rest} (h : ModelsHold params model before given batches rest)
    {iface presented done : ADExecDataInterface} {ignored : List CallRef}
    {reply : params.algo.Param}
    (hanalysed : Analysed params.algo.setAlgorithm.toADAlgorithm params.algo.assess iface presented
      done ignored reply before synced after)
    (hnodup : iface.dsetFidMap.Nodup) :
    ∃ batches' rest', ModelsHold params model after (given ++ [givenOf done]) batches' rest' := by
  obtain ⟨param, localParam, hparam, hlocal, hsync⟩ := hanalysed.updated
  have hvalues : (fun idx => if idx ∈ iface.dsetFidMap then
      (presented.dataSetOf idx).map Elem.value else []) = valuesAt (givenOf done) :=
    funext fun idx => (valuesAt_givenOf hanalysed hnodup idx).symm
  have hrest : (fun idx => valuesAt rest.flatten idx ++ valuesAt (givenOf done) idx) =
      valuesAt (rest ++ [givenOf done]).flatten := by
    funext idx
    rw [List.flatten_append, List.flatten_singleton, valuesAt_append]
  -- the local model holds what waited and what the analysis took
  have hmade : ∀ {Holds}, params.algo.setAlgorithm.toADAlgorithm.Keeps Holds params.algo.Ready →
      Holds localParam (valuesAt (rest ++ [givenOf done]).flatten) ∧
        params.algo.Ready localParam := by
    intro Holds hkeeps
    obtain ⟨hadded, hready⟩ := hkeeps.addDataSets hnodup
      (fun fid => (presented.dataSetOf fid).map Elem.value) hparam
    rw [hvalues] at hadded
    have hlocalHolds := hkeeps.update (h.entries hkeeps).waiting hadded hready hlocal
    rwa [hrest] at hlocalHolds
  obtain ⟨hserver, hfreq, hrank, hcalls⟩ := updateGlobalModel_calls hsync
  obtain ⟨-, hcases⟩ := updateGlobalModel_cases hsync
  have hkept := hanalysed.kept
  -- labeling leaves what the model holds
  have hlabels : ∀ {Holds}, params.algo.setAlgorithm.toADAlgorithm.Keeps Holds params.algo.Ready →
      ∀ {pushed}, Holds synced.param pushed → Holds after.param pushed :=
    fun {Holds} hkeeps {pushed} hpushed => (hanalysed.labels (fun p => Holds p pushed) hpushed
      fun p data idx r hp hlabel => hkeeps.labelData hp hlabel).1
  have hsyncs : { before with localParam := localParam }.Syncs ↔ params.SyncsOn given.length :=
    h.syncs_iff
  have hlength : after.syncCallCount = (given ++ [givenOf done]).length := by
    rw [hkept, List.length_append, List.length_singleton, ← h.calls]
    exact hcalls
  have hserver' : after.useParameterServer = params.driver.usePS := by
    rw [hkept]
    exact hserver.trans h.server
  have hfreq' : after.globalModelSyncFreq = params.globalModelSyncFreq := by
    rw [hkept]
    exact hfreq.trans h.freq
  have hrank' : after.rank = params.driver.rank := by
    rw [hkept]
    exact hrank.trans h.rank
  have hsent' : after.sent = synced.sent := by rw [hkept]
  have hlocal' : after.localParam = synced.localParam := by rw [hkept]
  rcases hcases with ⟨hnot, hparam', hlocalParam, hsent⟩ |
    ⟨hdue, hlocalParam, hsent, hmerge⟩
  · refine ⟨batches, rest ++ [givenOf done], hserver', hfreq', hrank', hlength,
      .wait _ h.batched (fun hdue => hnot (hsyncs.mpr hdue)), fun {Holds} hkeeps =>
        ⟨?_, ?_, fun hps pushed hmodel => ?_⟩⟩
    · rw [hsent', hsent]
      exact (h.entries hkeeps).sent
    · rw [hlocal', hlocalParam]
      exact (hmade hkeeps).1
    · apply hlabels hkeeps
      rw [hparam']
      exact (h.entries hkeeps).merged hps pushed hmodel
  · have hgone : (fun idx => valuesAt (batches ++ [rest ++ [givenOf done]]).flatten.flatten idx) =
        fun idx => valuesAt batches.flatten.flatten idx ++
          valuesAt (rest ++ [givenOf done]).flatten idx := by
      funext idx
      rw [List.flatten_append, List.flatten_append, valuesAt_append, List.flatten_singleton]
    have hupdated : params.driver.usePS = false → params.algo.setAlgorithm.toADAlgorithm.update
        before.param localParam = .ok synced.param := by
      intro hps
      rcases hmerge with ⟨hon, -⟩ | ⟨-, hupdate⟩
      · change before.useParameterServer = true at hon
        rw [h.server, hps] at hon
        cases hon
      · exact hupdate
    refine ⟨batches ++ [rest ++ [givenOf done]], [], hserver', hfreq', hrank', hlength,
      .goOut _ h.batched (hsyncs.mp hdue), fun {Holds} hkeeps =>
        ⟨?_, ?_, fun hps pushed hmodel => ?_⟩⟩
    · rw [hsent', hsent]
      exact List.rel_append (h.entries hkeeps).sent (.cons (hmade hkeeps).1 .nil)
    · rw [hlocal', hlocalParam]
      exact (hkeeps.clear (hmade hkeeps).2).1
    · apply hlabels hkeeps
      have hboth := (hkeeps.update ((h.entries hkeeps).merged hps pushed hmodel) (hmade hkeeps).1
        (hmade hkeeps).2 (hupdated hps)).1
      simpa only [congrFun hgone, List.append_assoc] using hboth

/-- When an execution that an analysis takes is labeled, if there is no server: once the installed
model and the analyses that have gone out have enough values of its function. -/
def LabeledWhenEnough (params : AnalysisParams) (pushed : ℕ → List ℚ)
    (given : List (List GivenExec)) : Prop :=
  ∀ k g, given[k]? = some g → ∀ e ∈ g, e.label ≠ 0 ↔
    params.algo.enough ≤ (pushed e.fid).length +
      (valuesAt (given.take (outBy params.SyncsOn (k + 1))).flatten e.fid).length

omit [LibM] in
/-- One more analysis that labels what it has enough values for. -/
theorem LabeledWhenEnough.concat {pushed : ℕ → List ℚ} {given : List (List GivenExec)}
    (h : LabeledWhenEnough params pushed given) {g : List GivenExec}
    (hg : ∀ e ∈ g, e.label ≠ 0 ↔ params.algo.enough ≤ (pushed e.fid).length +
      (valuesAt ((given ++ [g]).take (outBy params.SyncsOn (given.length + 1))).flatten
        e.fid).length) :
    LabeledWhenEnough params pushed (given ++ [g]) := by
  intro k g' hg' e he
  rcases Nat.lt_trichotomy k given.length with hlt | heq | hgt
  · rw [List.getElem?_append_left hlt] at hg'
    rw [List.take_append_of_le_length ((outBy_le (k + 1)).trans hlt)]
    exact h k g' hg' e he
  · rw [heq] at hg' ⊢
    rw [List.getElem?_concat_length] at hg'
    rw [← Option.some.inj hg'] at he
    exact hg e he
  · rw [List.getElem?_eq_none] at hg'
    · cases hg'
    · rw [List.length_append, List.length_singleton]
      exact hgt

/-- The executions taken so far, and the values that the models hold. -/
structure Modelled (params : AnalysisParams) (model : params.algo.Param)
    (s : AnalysisDriver params.algo.Param) : Prop where
  accounted : ∃ skipped, Accounted params s.driver.manager s.funcSeen s.given skipped
  models : ∃ batches rest, ModelsHold params model s.outlier s.given batches rest
  labeled : params.driver.usePS = false → ∀ {Holds : params.algo.Param → (ℕ → List ℚ) → Prop},
    params.algo.setAlgorithm.toADAlgorithm.Keeps Holds params.algo.Ready →
    params.algo.setAlgorithm.Decides Holds params.algo.assess params.algo.Usable
      params.algo.enough → ∀ pushed, Holds model pushed → LabeledWhenEnough params pushed s.given

/-- At the start nothing was taken. -/
theorem modelled_start (model : params.algo.Param) :
    Modelled params model (AnalysisDriver.start params model) := by
  refine ⟨⟨[], accounted_new params⟩, ⟨[], [], modelsHold_start model⟩, ?_⟩
  intro _ Holds _ _ pushed _ k g hg
  cases hg

omit [LibM] in
/-- The values of a function that were taken are as many as the executions that they are of exactly
if every analysis but the last one labeled all executions of the function that it took. -/
theorem Accounted.length_eq_card_iff {m : ADEvent} {funcSeen : List (Thread × ℕ)}
    {given : List (List GivenExec)} {skipped : List CallRef}
    (h : Accounted params m funcSeen given skipped) (fid : ℕ) :
    (valuesAt given.flatten fid).length =
        ((given.flatten.filter fun e => e.fid = fid).map GivenExec.call).toFinset.card ↔
      ∀ g ∈ given.dropLast, ∀ e ∈ g, e.fid = fid → e.label ≠ 0 := by
  -- an execution is of one function, so it is the same for the executions of one function
  have hretaken := h.retaken.filter (p := fun e => e.fid = fid)
    fun r hr e he hfid r' hr' e' he' hcall => by
      rw [← (h.taken r' hr' e' he').2.1, hcall, (h.taken r hr e he).2.1]
      exact hfid
  have hlength : (valuesAt given.flatten fid).length =
      ((given.flatten.filter fun e => e.fid = fid).map GivenExec.call).length := by
    unfold valuesAt
    rw [List.length_map, List.length_map]
  have hcard := Multiset.toFinset_card_eq_card_iff_nodup
    (m := (((given.flatten.filter fun e => e.fid = fid).map GivenExec.call :
      List CallRef) : Multiset CallRef))
  rw [Multiset.coe_card, Multiset.coe_nodup] at hcard
  rw [hlength, eq_comm]
  apply hcard.trans
  rw [List.filter_flatten, hretaken.nodup_iff, ← List.map_dropLast]
  constructor
  · intro hall g hg e he hfid
    exact hall _ (List.mem_map_of_mem hg) e (List.mem_filter.mpr ⟨he, decide_eq_true hfid⟩)
  · intro hall r hr e he
    obtain ⟨g, hg, rfl⟩ := List.mem_map.mp hr
    obtain ⟨hmem, hfid⟩ := List.mem_filter.mp he
    exact hall g hg e hmem (of_decide_eq_true hfid)

namespace AnalysisDriver

/-- An analysis puts the values that it takes into the models. -/
theorem Modelled.analyse {s t : AnalysisDriver params.algo.Param}
    {input : AnalysisInput params.algo.Param} (h : Modelled params model s)
    (hlists : ListsFunctions input.fids s.driver.manager) (hanalyse : s.analyse input = .ok t) :
    Modelled params model t := by
  obtain ⟨skipped, haccounted⟩ := h.accounted
  obtain ⟨batches, rest, hmodels⟩ := h.models
  obtain ⟨presented, done, ignored, synced, hanalysed, -, -, hgiven, -⟩ :=
    analyse_analysed haccounted.executions hlists hanalyse
  have hsetup := params.setupInterface_eq s.funcSeen s.driver.manager input.fids
  generalize params.setupInterface s.funcSeen s.driver.manager input.fids = iface at *
  have hmanager : iface.manager = s.driver.manager := by rw [hsetup]
  have hfids : iface.dsetFidMap = input.fids := by rw [hsetup]
  have hnodup : iface.dsetFidMap.Nodup := by
    rw [hfids]
    exact hlists.1
  obtain ⟨batches', rest', hmodels'⟩ := hmodels.analysed hanalysed hnodup
  rw [← hgiven] at hmodels'
  refine ⟨accounted_analyse haccounted hlists hanalyse, ⟨batches', rest', hmodels'⟩,
    fun hps {Holds} hkeeps hdecides pushed hmodel => ?_⟩
  rw [hgiven]
  apply (h.labeled hps hkeeps hdecides pushed hmodel).concat
  intro e he
  have hvalid : ExecsValid iface.manager := by
    rw [hmanager]
    exact haccounted.executions.execsValid
  rw [hanalysed.label_iff params.algo.assessesBy hdecides hvalid he,
    hdecides.usable_iff ((hmodels'.entries hkeeps).merged hps pushed hmodel), List.length_append,
    hmodels'.batched.flatten_eq, hgiven, List.length_append, List.length_singleton]

/-- One action keeps the models in step with the executions. -/
theorem Modelled.exec {s t : AnalysisDriver params.algo.Param}
    {a : AnalysisAction params.algo.Param} (h : Modelled params model s) (hlists : s.Lists a)
    (hexec : s.exec a = .ok t) : Modelled params model t := by
  obtain ⟨skipped, haccounted⟩ := h.accounted
  have haccounted' := accounted_exec haccounted hlists hexec
  cases a with
  | endRun =>
    cases hexec
    exact ⟨haccounted', h.models, h.labeled⟩
  | runFrame input =>
    obtain ⟨⟨t', haveData⟩, hframe, hexec⟩ := bind_eq_ok hexec
    cases hexec
    obtain ⟨driver, hread, hcase⟩ := runFrame_cases hframe
    have hread' := (Driver.readStep_cases hread).1
    unfold Lists at hlists
    dsimp only at hlists
    rw [hread] at hlists
    rcases hcase with ⟨-, rfl⟩ | ⟨-, u, ⟨-, hanalyse⟩ | ⟨-, rfl⟩, rfl⟩
    · exact ⟨haccounted', h.models, h.labeled⟩
    · have hbefore : Modelled params model { s with driver := driver } :=
        ⟨⟨skipped, haccounted.completes hread'⟩, h.models, h.labeled⟩
      have hafter := Modelled.analyse hbefore hlists hanalyse
      exact ⟨haccounted', hafter.models, hafter.labeled⟩
    · exact ⟨haccounted', h.models, h.labeled⟩

/-- In every run the models hold what was taken. -/
theorem modelled {s : AnalysisDriver params.algo.Param}
    (hrun : Runs (StepOf exec) Lists (start params model) s) : Modelled params model s :=
  hrun.invariant (Modelled params model) (modelled_start model)
    fun _ _ _ h hlists hexec => Modelled.exec h hlists hexec

/-- In every run the values that the analyses took are in the models that were merged into the copy
or sent, or in the local model: the batches, each of the analyses since the one before, are those
of the synchronisation schedule, and each of these models is made of the values of its batch, which
it summarizes. Without a server the rank's copy of the global model is made of those of all batches
beside those of the model that was installed, if that one was made of values; if it only has the
extremes of some values then so has the copy. If models are synchronised at all, the local model is
never behind by as many analyses as lie between two synchronisations. -/
theorem models_hold_taken (hproper : params.algo.Proper) {s : AnalysisDriver params.algo.Param}
    (hrun : Runs (StepOf exec) Lists (start params model) s) :
    ∃ batches rest, Batched params.SyncsOn s.given batches rest ∧
      List.Forall₂ (fun p batch => params.algo.Summarizes p (valuesAt batch.flatten))
        s.outlier.sent batches ∧
      params.algo.Summarizes s.outlier.localParam (valuesAt rest.flatten) ∧
      (params.driver.usePS = false →
        (∀ pushed, params.algo.MadeOf model pushed → params.algo.Summarizes s.outlier.param
          fun idx => pushed idx ++ valuesAt batches.flatten.flatten idx) ∧
        (∀ pushed, params.algo.Holds model pushed → params.algo.Holds s.outlier.param
          fun idx => pushed idx ++ valuesAt batches.flatten.flatten idx)) ∧
      (0 < params.globalModelSyncFreq → rest.length < params.globalModelSyncFreq.toNat) := by
  obtain ⟨batches, rest, h⟩ := (modelled hrun).models
  have hmade := h.entries (params.algo.keeps_madeOf hproper)
  have hsent := hmade.sent.imp fun _ _ hmadeOf => hmadeOf.summarizes
  exact ⟨batches, rest, h.batched, hsent, hmade.waiting.summarizes,
    fun hps => ⟨fun pushed hpushed => (hmade.merged hps pushed hpushed).summarizes,
      (h.entries (params.algo.keeps hproper)).merged hps⟩,
    fun hfreq => h.batched.length_lt (AnalysisParams.exists_syncsOn hfreq)⟩

omit [LibM] in
/-- Of three analyses the first one is synchronised, and the values of the others wait in a
histogram that is made of them. -/
theorem models_hold_taken_threeCalls : letI := LibM.interpolated
    let params := { everyCall (.copod (95 / 100)) true with globalModelSyncFreq := 3 }
    ∃ (s : AnalysisDriver CopodParam) (batches : List (List (List GivenExec)))
      (rest : List (List GivenExec)),
      s.given.map (fun g => g.map GivenExec.call) = [[0], [1], [2]] ∧
      s.outlier.sent.length = 1 ∧ Batched params.SyncsOn s.given batches rest ∧
      params.algo.Summarizes s.outlier.localParam (valuesAt rest.flatten) := by
  let _ := LibM.interpolated
  let params := { everyCall (.copod (95 / 100)) true with globalModelSyncFreq := 3 }
  have hrun : ∃ s ∈ runAll (@exec _ params) Lists (start params CopodParam.new)
      (oneCallPerStep CopodParam.new 3),
      s.given.map (fun g => g.map GivenExec.call) = [[0], [1], [2]] ∧
        s.outlier.sent.length = 1 := by
    decide +kernel
  obtain ⟨s, hs, hgiven, hsent⟩ := hrun
  have hproper : params.algo.Proper := trivial
  have hruns : Runs (StepOf (@exec _ params)) Lists (start params CopodParam.new) s :=
    runs_of_runAll _ hs
  obtain ⟨batches, rest, hbatched, -, hlocal, -⟩ := models_hold_taken hproper hruns
  exact ⟨s, batches, rest, hgiven, hsent, hbatched, hlocal⟩

/-- In every run the values of a function that went into the models are as many as the executions
that they are of, exactly if every analysis but the last one labeled all executions of the function
that it took. -/
theorem counted_once_iff {s : AnalysisDriver params.algo.Param}
    (hrun : Runs (StepOf exec) Lists (start params model) s) (fid : ℕ) :
    (valuesAt s.given.flatten fid).length =
        ((s.given.flatten.filter fun e => e.fid = fid).map GivenExec.call).toFinset.card ↔
      ∀ g ∈ s.given.dropLast, ∀ e ∈ g, e.fid = fid → e.label ≠ 0 := by
  obtain ⟨skipped, h⟩ := (modelled hrun).accounted
  exact h.length_eq_card_iff fid

omit [LibM] in
/-- The first call is not labeled by the first analysis, so there are more values than calls. -/
theorem counted_once_iff_threeCalls : letI := LibM.interpolated
    ∃ s : AnalysisDriver SstdParam,
      s.given.map (fun g => g.map GivenExec.call) = [[0], [0, 1], [2]] ∧
      (valuesAt s.given.flatten 5).length ≠
        ((s.given.flatten.filter fun e => e.fid = 5).map GivenExec.call).toFinset.card := by
  let _ := LibM.interpolated
  let params := everyCall (.sstd 6) true
  have hrun : ∃ s ∈ runAll (@exec _ params) Lists (start params SstdParam.new)
      (oneCallPerStep SstdParam.new 3),
      s.given.map (fun g => g.map GivenExec.call) = [[0], [0, 1], [2]] ∧
        ∃ g ∈ s.given.dropLast, ∃ e ∈ g, e.fid = 5 ∧ e.label = 0 := by
    decide +kernel
  obtain ⟨s, hs, hgiven, g, hg, e, he, hfid, hlabel⟩ := hrun
  have hruns : Runs (StepOf (@exec _ params)) Lists (start params SstdParam.new) s :=
    runs_of_runAll _ hs
  refine ⟨s, hgiven, fun heq => ?_⟩
  exact (counted_once_iff hruns 5).mp heq g hg e he hfid hlabel

/-- In every run without a server an analysis labels exactly those executions that it takes of
whose function there are enough values in the model that was installed and the analyses that went
out until then. -/
theorem labeled_iff_enough (hproper : params.algo.Proper) (hps : params.driver.usePS = false)
    {pushed : ℕ → List ℚ} (hmodel : params.algo.Holds model pushed)
    {s : AnalysisDriver params.algo.Param}
    (hrun : Runs (StepOf exec) Lists (start params model) s) :
    LabeledWhenEnough params pushed s.given :=
  (modelled hrun).labeled hps (params.algo.keeps hproper) params.algo.decides pushed hmodel

omit [LibM] in
/-- The second call is labeled by its first analysis, and the first call by its second one. -/
theorem labeled_iff_enough_threeCalls : letI := LibM.interpolated
    ∃ s : AnalysisDriver SstdParam,
      s.given.map (fun g => g.map GivenExec.label) = [[0], [1, 1], [1]] ∧
      LabeledWhenEnough (everyCall (.sstd 6) true) (fun _ => []) s.given := by
  let _ := LibM.interpolated
  let params := everyCall (.sstd 6) true
  have hrun : ∃ s ∈ runAll (@exec _ params) Lists (start params SstdParam.new)
      (oneCallPerStep SstdParam.new 3),
      s.given.map (fun g => g.map GivenExec.label) = [[0], [1, 1], [1]] := by
    decide +kernel
  obtain ⟨s, hs, hlabels⟩ := hrun
  have hproper : params.algo.Proper := trivial
  have hruns : Runs (StepOf (@exec _ params)) Lists (start params SstdParam.new) s :=
    runs_of_runAll _ hs
  have hmodel : ADOutlierSSTD.Holds SstdParam.new fun _ => [] :=
    holdsAt_empty ADOutlierSSTD.collects_default
  exact ⟨s, hlabels, labeled_iff_enough hproper rfl hmodel hruns⟩

end AnalysisDriver

end Chimbuko
