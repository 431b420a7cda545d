import Chimbuko.AD.ADExecDataInterface
import Chimbuko.Core.ADOutlierCOPOD
import Chimbuko.Core.ADOutlierHBOSLabels
import Chimbuko.Library.Ratchet

/-!
# The global threshold over a run

With the global threshold in use, the threshold that labeling uses is kept in the rank's copy of the
global model, and merging models keeps the larger threshold. So the thresholds of a model index
only rise, unless a reply of the parameter server takes the place of an entry whose threshold is
larger. The server is sent local models only, whose thresholds were never raised.
-/

namespace Chimbuko

open KeyedMap Ratchet TransitionSystem

namespace ADOutlier

section Calls

variable {P I : Type} (A : ADAlgorithm P) [DataSource I]

/-- If the call asks the parameter server then no threshold of the rank's copy is larger than the
one that takes its place. -/
def KeepsThresholds (level : P → ℕ → ℚ) (self : ADOutlier P) (call : RunCall P I) : Prop :=
  self.useParameterServer = true → self.Syncs →
    ∀ idx, level self.param idx ≤ level (A.assign self.param call.reply) idx

/-- An algorithm keeps in its models the thresholds that it uses, all at least `floor`. -/
structure KeepsUsed (level : P → ℕ → ℚ) (floor : ℚ) : Prop where
  new : ∀ idx, floor ≤ level A.new idx
  update : ∀ {p q r}, A.update p q = .ok r → ∀ idx, level p idx ≤ level r idx
  labelData : ∀ {p data idx r}, (∀ k, floor ≤ level p k) → A.labelData p data idx = .ok r →
    r.threshold = none ∧ level r.param = level p ∨
    ∃ t, r.threshold = some t ∧ level p idx ≤ t ∧
      level r.param = Function.update (level p) idx t

variable {A} {level : P → ℕ → ℚ} {floor : ℚ}

/-- The thresholds used so far rise up to those that are kept. -/
def Kept (level : P → ℕ → ℚ) (floor : ℚ) (self : ADOutlier P) : Prop :=
  (∀ idx, floor ≤ level self.param idx) ∧ UpTo (level self.param) self.thresholds

/-- If the thresholds that are kept rise, then they still are those used last. -/
theorem Kept.raise {self : ADOutlier P} (h : Kept level floor self) (param : P)
    (hle : ∀ idx, level self.param idx ≤ level param idx) {self' : ADOutlier P}
    (hparam : self'.param = param) (hthresholds : self'.thresholds = self.thresholds) :
    Kept level floor self' := by
  unfold Kept
  rw [hparam, hthresholds]
  exact ⟨fun idx => (h.1 idx).trans (hle idx), h.2.raise hle⟩

/-- Labeling a data set keeps the threshold that it uses. -/
theorem Kept.labelDataSet (hA : KeepsUsed A level floor) {s t : ADOutlier P × ADDataInterface I}
    {dset : List Elem × ℕ} (hs : Kept level floor s.1)
    (h : ADOutlier.labelDataSet A s dset = .ok t) : Kept level floor t.1 := by
  obtain ⟨modelIdx, labeled, -, hlabeled, -, ht⟩ := labelDataSet_cases h
  cases hA.labelData hs.1 hlabeled with
  | inl hnone =>
    apply hs.raise labeled.param
    · intro idx
      rw [hnone.2]
    · rw [ht]
    · rw [ht, hnone.1]
      exact List.append_nil _
  | inr hsome =>
    obtain ⟨used, hused, hle, hlevel⟩ := hsome
    have hlog := hs.2.record hle
    unfold Kept
    rw [ht]
    simp only [hused, hlevel]
    refine ⟨fun idx => ?_, hlog⟩
    by_cases hidx : idx = modelIdx
    · rw [hidx, Function.update_self]
      exact (hs.1 modelIdx).trans hle
    · rw [Function.update_of_ne hidx]
      exact hs.1 idx

/-- A call keeps the thresholds that it uses, unless the reply of the parameter server holds a
smaller one. -/
theorem Kept.exec (hA : KeepsUsed A level floor) {self self' : ADOutlier P} {call : RunCall P I}
    (hself : Kept level floor self) (hkeeps : KeepsThresholds A level self call)
    (h : self.exec A call = .ok self') : Kept level floor self' := by
  obtain ⟨data, hrun⟩ := exec_ok h
  obtain ⟨g, localParam, synced, -, -, hsync, hlabel⟩ := run_cases hrun
  have hsynced : Kept level floor synced := by
    obtain ⟨hthresholds, hcases⟩ := updateGlobalModel_cases hsync
    rcases hcases with ⟨-, hparam, -, -⟩ | ⟨hsyncs, -, -, ⟨hserver, hparam⟩ | ⟨-, hmerged⟩⟩
    · exact hself.raise _ (fun _ => le_rfl) hparam hthresholds
    · exact hself.raise _ (hkeeps hserver hsyncs) hparam hthresholds
    · exact hself.raise _ (hA.update hmerged) rfl hthresholds
  exact foldlM_invariant (P := fun s => Kept level floor s.1)
    (fun _ _ _ hs ht => hs.labelDataSet hA ht) _ hsynced hlabel

/-- The thresholds used in a run rise if every reply keeps them. -/
theorem rising_of_runs (hA : KeepsUsed A level floor) {rank : ℕ} {useParameterServer : Bool}
    {freq : ℤ} {self : ADOutlier P}
    (hrun : Runs (StepOf (exec A (I := I))) (KeepsThresholds A level)
      (start A rank useParameterServer freq) self) : Rising self.thresholds := by
  have hkept : Kept level floor self := by
    apply hrun.invariant (Kept level floor)
    · exact ⟨hA.new, UpTo.nil _⟩
    · intro s call t hs hkeeps hstep
      exact hs.exec hA hkeeps hstep
  exact hkept.2.rising

end Calls

end ADOutlier

/-- Merging the entries of a map into another one keeps a quantity from falling if it does so for
every single entry. -/
private theorem upsertAll_le {V : Type} (level : V → ℚ)
    {f : Option V → V → Except String V} {new : V}
    (hf : ∀ old w v, f old w = .ok v → level (old.getD new) ≤ level v)
    {base m result : ModelMap V} (h : upsertAll f base m = .ok result) (idx : ℕ) :
    level ((base.lookup idx).getD new) ≤ level ((result.lookup idx).getD new) := by
  have heach : upsertEach (fun _ => f) base m = .ok result := h
  cases hw : m.lookup idx with
  | none => rw [lookup_upsertEach_of_none heach hw]
  | some w =>
    obtain ⟨v, hv, hlookup⟩ := lookup_upsertEach heach hw
    rw [hlookup]
    exact hf _ w v hv

section Thresholds

variable [LibM]

/-- The threshold that is kept for a model index. -/
def HbosParam.thresholdAt (self : HbosParam) (idx : ℕ) : ℚ :=
  (self.fparamAt idx).internalGlobalThreshold

/-- The threshold that is kept for a model index. -/
def CopodParam.thresholdAt (self : CopodParam) (idx : ℕ) : ℚ :=
  (self.fparamAt idx).internalGlobalThreshold

/-- Setting an entry sets its threshold. -/
theorem HbosParam.thresholdAt_setFparam (p : HbosParam) (idx : ℕ) (q : HbosFuncParam) :
    (p.setFparam idx q).thresholdAt =
      Function.update p.thresholdAt idx q.internalGlobalThreshold := by
  funext k
  unfold HbosParam.thresholdAt
  by_cases hk : k = idx
  · rw [hk, HbosParam.fparamAt_setFparam, Function.update_self]
  · rw [HbosParam.fparamAt_setFparam_ne p hk, Function.update_of_ne hk]

/-- Setting an entry sets its threshold. -/
theorem CopodParam.thresholdAt_setFparam (p : CopodParam) (idx : ℕ) (q : CopodFuncParam) :
    (p.setFparam idx q).thresholdAt =
      Function.update p.thresholdAt idx q.internalGlobalThreshold := by
  funext k
  unfold CopodParam.thresholdAt
  by_cases hk : k = idx
  · rw [hk, CopodParam.fparamAt_setFparam, Function.update_self]
  · rw [CopodParam.fparamAt_setFparam_ne p hk, Function.update_of_ne hk]

/-- An update does not lower a threshold. -/
theorem HbosParam.thresholdAt_update {p q r : HbosParam} (h : p.update q = .ok r) (idx : ℕ) :
    p.thresholdAt idx ≤ r.thresholdAt idx := by
  unfold HbosParam.update HbosParam.updateInternal at h
  cases hstats : upsertAll (mergeAt q.maxbins) p.hbosstats q.hbosstats with
  | error e =>
    rw [hstats] at h
    cases h
  | ok stats =>
    rw [hstats] at h
    cases h
    apply upsertAll_le HbosFuncParam.internalGlobalThreshold _ hstats
    intro old w v hv
    unfold mergeAt HbosFuncParam.merge at hv
    cases hhist : Histogram.mergeHistograms (old.getD HbosFuncParam.new).histogram w.histogram
        (binWidthFixedNbin q.maxbins) with
    | error e =>
      rw [hhist] at hv
      cases hv
    | ok hist =>
      rw [hhist] at hv
      cases hv
      exact le_max_left _ _

/-- An update does not lower a threshold. -/
theorem CopodParam.thresholdAt_update {p q r : CopodParam} (h : p.update q = .ok r) (idx : ℕ) :
    p.thresholdAt idx ≤ r.thresholdAt idx := by
  unfold CopodParam.update at h
  cases hstats : upsertAll mergeAt p.copodstats q.copodstats with
  | error e =>
    rw [hstats] at h
    cases h
  | ok stats =>
    rw [hstats] at h
    cases h
    apply upsertAll_le CopodFuncParam.internalGlobalThreshold _ hstats
    intro old w v hv
    unfold mergeAt CopodFuncParam.merge at hv
    cases hhist : Histogram.mergeHistograms (old.getD CopodFuncParam.new).histogram w.histogram
        binWidthScott with
    | error e =>
      rw [hhist] at hv
      cases hv
    | ok hist =>
      rw [hhist] at hv
      cases hv
      exact le_max_left _ _

/-- The larger one of the thresholds is used and kept. -/
theorem ADOutlierHBOS.keepsUsed {alg : ADOutlierHBOS} (hglobal : alg.useGlobalThreshold = true) :
    ADOutlier.KeepsUsed alg.algorithm HbosParam.thresholdAt
      HbosFuncParam.new.internalGlobalThreshold where
  new _ := le_rfl
  update h idx := HbosParam.thresholdAt_update h idx
  labelData := by
    intro param data idx r _ h
    rcases labelData_cases h with ⟨-, rfl⟩ | ⟨-, -, rfl⟩ | ⟨-, -, -, hused, hparam⟩
    · exact Or.inl ⟨rfl, rfl⟩
    · apply Or.inl
      rw [HbosParam.thresholdAt_setFparam]
      exact ⟨rfl, Function.update_eq_self _ _⟩
    · refine Or.inr ⟨_, hused, ?_, ?_⟩
      · rw [usedThreshold_eq, if_pos hglobal]
        exact le_max_right _ _
      · rw [hparam, HbosParam.thresholdAt_setFparam, if_pos hglobal]

/-- A threshold that is at least the default one is larger than the bound below which a threshold
is replaced by any other. -/
theorem ADOutlierCOPOD.keepsUsed {alg : ADOutlierCOPOD}
    (hdefault : 0 < CopodFuncParam.new.internalGlobalThreshold)
    (hglobal : alg.useGlobalThreshold = true) :
    ADOutlier.KeepsUsed alg.algorithm CopodParam.thresholdAt
      CopodFuncParam.new.internalGlobalThreshold where
  new _ := le_rfl
  update h idx := CopodParam.thresholdAt_update h idx
  labelData := by
    intro param data idx r hfloor h
    have hchosen : ∀ l g, CopodFuncParam.new.internalGlobalThreshold ≤ g →
        alg.chooseThreshold l g = (max l g, max l g) := by
      intro l g hg
      have hbound : -1 * LibM.log2 (100001 / 100000) < g := by
        have hpos : (0 : ℚ) < LibM.log2 (100001 / 100000) := hdefault
        have hle : LibM.log2 (100001 / 100000) ≤ g := hg
        linarith
      unfold chooseThreshold
      rw [if_pos hglobal]
      by_cases hlt : l < g
      · rw [if_pos ⟨hlt, hbound⟩, max_eq_right hlt.le]
      · rw [if_neg fun hboth => hlt hboth.1, max_eq_left (le_of_not_gt hlt)]
    rcases labelData_cases h with ⟨-, rfl⟩ | ⟨-, -, rfl⟩ | ⟨-, -, l, -, -, hused, hparam⟩
    · exact Or.inl ⟨rfl, rfl⟩
    · apply Or.inl
      rw [CopodParam.thresholdAt_setFparam]
      exact ⟨rfl, Function.update_eq_self _ _⟩
    · have hidx := hchosen l (param.fparamAt idx).internalGlobalThreshold (hfloor idx)
      rw [hidx] at hused hparam
      refine Or.inr ⟨_, hused, le_max_right _ _, ?_⟩
      rw [hparam, CopodParam.thresholdAt_setFparam]

namespace ADOutlier

variable {I : Type} [DataSource I]

/-- With the global threshold in use, the thresholds that labeling uses for a model index rise in
every run in which each reply of the parameter server keeps the thresholds. -/
theorem thresholds_rise (hdefault : (0 : ℚ) < LibM.log2 (100001 / 100000)) (rank : ℕ)
    (useParameterServer : Bool) (freq : ℤ) :
    (∀ (alg : ADOutlierHBOS) (self : ADOutlier HbosParam), alg.useGlobalThreshold = true →
      Runs (StepOf (exec (I := I) alg.algorithm))
        (KeepsThresholds alg.algorithm HbosParam.thresholdAt)
        (start alg.algorithm rank useParameterServer freq) self → Rising self.thresholds) ∧
    ∀ (alg : ADOutlierCOPOD) (self : ADOutlier CopodParam), alg.useGlobalThreshold = true →
      Runs (StepOf (exec (I := I) alg.algorithm))
        (KeepsThresholds alg.algorithm CopodParam.thresholdAt)
        (start alg.algorithm rank useParameterServer freq) self → Rising self.thresholds := by
  constructor
  · intro alg self hglobal hrun
    exact rising_of_runs (ADOutlierHBOS.keepsUsed hglobal) hrun
  · intro alg self hglobal hrun
    exact rising_of_runs (ADOutlierCOPOD.keepsUsed hdefault hglobal) hrun

end ADOutlier

end Thresholds

namespace ADOutlier

open Histogram

/-- Two calls one after another. -/
private theorem exec_twice {P I β : Type} [DataSource I] {A : ADAlgorithm P} {self : ADOutlier P}
    {first second : RunCall P I} {f : ADOutlier P → ADOutlier P → β} {b : β}
    (h : (do
      let s ← self.exec A first
      let t ← s.exec A second
      pure (f s t)) = Except.ok b) :
    ∃ s t, self.exec A first = .ok s ∧ s.exec A second = .ok t ∧ f s t = b := by
  cases hs : self.exec A first with
  | error e =>
    rw [hs] at h
    cases h
  | ok s =>
    cases ht : s.exec A second with
    | error e =>
      simp only [bind, Except.bind, hs, ht] at h
      cases h
    | ok t =>
      simp only [bind, Except.bind, hs, ht] at h
      cases h
      exact ⟨s, t, rfl, ht, rfl⟩

/-- Completed executions of function 5 with some exclusive runtimes. -/
private def executions (runtimes : List ℤ) : ADDataInterface ADExecDataInterface :=
  let ended : ExecData :=
    ExecData.ofEvent { data := [], type := .FUNC, idx := 0, id := EventID.root }
  let manager := { ADEvent.new with
    execDataMap := fun fid => if fid = 5 then List.range runtimes.length else []
    calls := fun it => { ended with fid := 5, exclusive := runtimes.getD it 0 }
    nextRef := runtimes.length }
  ADDataInterface.new (ADExecDataInterface.new manager [5] .exclusiveRuntime)

/-- A model with some values one and two of function 5 in two bins. -/
private def onesAndTwos [LibM] (counts : List ℕ) : HbosParam :=
  (HbosParam.new.setMaxBins 2).setFparam 5
    { HbosFuncParam.new with
      histogram := { adjustedBins 1 2 (fixedNbinWidth 2 1 2) with counts := counts } }

/-- The algorithm with two bins. -/
private def twoBinsHBOS : ADOutlierHBOS := ADOutlierHBOS.new (99 / 100) true 2

/-- Without a parameter server the second of two calls does not use a smaller threshold. -/
theorem thresholds_rise_merging :
    letI := LibM.interpolated
    ∃ s t : ADOutlier HbosParam,
      (start twoBinsHBOS.algorithm 0 false 1).exec twoBinsHBOS.algorithm
        ⟨executions [1, 1, 1, 2], HbosParam.new⟩ = .ok s ∧
      s.exec twoBinsHBOS.algorithm ⟨executions [1, 2, 2], HbosParam.new⟩ = .ok t ∧
      t.thresholds.length = 2 ∧ Rising t.thresholds := by
  let _ := LibM.interpolated
  have hcalls : (do
      let s ← (start twoBinsHBOS.algorithm 0 false 1).exec twoBinsHBOS.algorithm
        ⟨executions [1, 1, 1, 2], HbosParam.new⟩
      let t ← s.exec twoBinsHBOS.algorithm ⟨executions [1, 2, 2], HbosParam.new⟩
      pure (s.useParameterServer, t.thresholds.length)) = Except.ok (false, 2) := by
    decide +kernel
  obtain ⟨s, t, hs, ht, hvalues⟩ := exec_twice hcalls
  refine ⟨s, t, hs, ht, congrArg Prod.snd hvalues, ?_⟩
  have hserver : s.useParameterServer = false := congrArg Prod.fst hvalues
  have hrise := thresholds_rise (I := ADExecDataInterface) (by decide +kernel) 0 false 1
  apply hrise.1 twoBinsHBOS t rfl
  refine Runs.tail (Runs.tail Runs.refl ?_ hs) ?_ ht
  · intro hstart
    cases hstart
  · intro hs'
    rw [hserver] at hs'
    cases hs'

/-- A rank sends the values of its first call, and the parameter server returns their model, in
which no threshold was raised. After the second call, which uses a larger threshold than the
default one, too, the reply makes the rank use a smaller threshold. -/
theorem not_thresholds_rise :
    letI := LibM.interpolated
    HbosParam.new.updateAndReturn (onesAndTwos [3, 1]) =
        .ok (onesAndTwos [3, 1], onesAndTwos [3, 1]) ∧
      (onesAndTwos [3, 1]).updateAndReturn (onesAndTwos [1, 2]) =
        .ok (onesAndTwos [4, 3], onesAndTwos [4, 3]) ∧
      ∃ s t : ADOutlier HbosParam,
        (start twoBinsHBOS.algorithm 0 true 1).exec twoBinsHBOS.algorithm
          ⟨executions [1, 1, 1, 2], onesAndTwos [3, 1]⟩ = .ok s ∧
        s.exec twoBinsHBOS.algorithm ⟨executions [1, 2, 2], onesAndTwos [4, 3]⟩ = .ok t ∧
        t.sent = [onesAndTwos [3, 1], onesAndTwos [1, 2]] ∧ ¬Rising t.thresholds := by
  let _ := LibM.interpolated
  have hcalls : (do
      let s ← (start twoBinsHBOS.algorithm 0 true 1).exec twoBinsHBOS.algorithm
        ⟨executions [1, 1, 1, 2], onesAndTwos [3, 1]⟩
      let t ← s.exec twoBinsHBOS.algorithm ⟨executions [1, 2, 2], onesAndTwos [4, 3]⟩
      pure (t.sent, decide (Rising t.thresholds))) =
        Except.ok ([onesAndTwos [3, 1], onesAndTwos [1, 2]], false) := by
    decide +kernel
  obtain ⟨s, t, hs, ht, hvalues⟩ := exec_twice hcalls
  refine ⟨by decide +kernel, by decide +kernel, s, t, hs, ht, congrArg Prod.fst hvalues, ?_⟩
  exact of_decide_eq_false (congrArg Prod.snd hvalues)

end ADOutlier

end Chimbuko
