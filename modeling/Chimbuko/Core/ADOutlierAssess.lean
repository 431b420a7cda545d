import Chimbuko.Core.ADOutlierCOPOD
import Chimbuko.Core.ADOutlierHBOSLabels
import Chimbuko.Core.ADOutlierSSTD

/-!
# Assessing values one by one

Labeling a data set assesses each value on its own, by what the model holds for the function: it
gets a label and a score, or neither as long as the model is not usable. All that labeling changes
in the model is the entry of its function, which is made if it is missing and keeps the threshold
that was used. With the entry changed, values are assessed as before.
-/

namespace Chimbuko

open TransitionSystem

/-- The label and the score that a value gets. -/
abbrev Assessment := EventType × ℚ

/-- What an element has before it is labeled. -/
def Assessment.none : Assessment := (.unassigned, -1)

/-- An element with what its value got. -/
def assessElem (assess : ℚ → Assessment) (x : ℚ × ℕ) : Elem :=
  { value := x.1, index := x.2, label := (assess x.1).1, score := (assess x.1).2 }

/-- An algorithm that tells what its model holds for a function. -/
structure ReportingAlgorithm (P J : Type) extends ADAlgorithm P where
  getAlgorithmParams : P → ℕ → Except String J

/-- An algorithm assesses values one by one, and labeling leaves the assessments as they are.
Afterwards the model has an entry for the function, which further labeling leaves as it is. -/
structure ReportingAlgorithm.AssessesBy {P J : Type} (A : ReportingAlgorithm P J)
    (assess : P → ℕ → ℚ → Assessment) (params : P → ℕ → J) : Prop where
  data : ∀ {p idx r} {xs : List (ℚ × ℕ)},
    A.labelData p (xs.map fun x => Elem.new x.1 x.2) idx = .ok r →
      r.data = xs.map (assessElem (assess p idx))
  assess_eq : ∀ {p data idx r}, A.labelData p data idx = .ok r → assess r.param = assess p
  params_eq : ∀ {p data idx r}, A.labelData p data idx = .ok r → params r.param = params p
  reports : ∀ {p data idx r}, A.labelData p data idx = .ok r → data ≠ [] →
    A.getAlgorithmParams r.param idx = .ok (params p idx)

namespace ADOutlierSSTD

variable [LibM] (self : ADOutlierSSTD)

/-- The statistics of a function. -/
def getAlgorithmParams (param : SstdParam) (idx : ℕ) : Except String RunStats :=
  match param.runstats.lookup idx with
  | some stats => .ok stats
  | none => .error "Invalid model index in SstdParam::get_algorithm_params"

/-- The algorithm, with what it tells about its model. -/
def reporting : ReportingAlgorithm SstdParam RunStats :=
  { self.algorithm with getAlgorithmParams := getAlgorithmParams }

/-- The statistics of a function, which are those of no values if there are none. -/
def statsAt (param : SstdParam) (idx : ℕ) : RunStats := (param.runstats.lookup idx).getD default

/-- What a value gets. -/
def assess (param : SstdParam) (idx : ℕ) (value : ℚ) : Assessment :=
  if (statsAt param idx).count < 2 then Assessment.none
  else
    let e := self.labelElem (statsAt param idx) (Elem.new value 0)
    (e.label, e.score)

omit [LibM] in
/-- Making an entry for a function leaves the statistics as they are. -/
theorem statsAt_insert (param : SstdParam) (idx : ℕ) :
    statsAt ⟨param.runstats.insert idx (statsAt param idx)⟩ = statsAt param := by
  funext k
  unfold statsAt
  by_cases hk : k = idx
  · rw [hk, AList.lookup_insert]
    rfl
  · rw [AList.lookup_insert_ne hk]

/-- The algorithm assesses values by the statistics of their function. -/
theorem assessesBy : self.reporting.AssessesBy self.assess statsAt := by
  have hparam : ∀ {p data idx r}, self.labelData p data idx = .ok r →
      r = { param := p, data := data, threshold := none } ∧ data = [] ∨
      r.param = ⟨p.runstats.insert idx (statsAt p idx)⟩ ∧
        r.data = if (statsAt p idx).count < 2 then data
          else data.map (self.labelElem (statsAt p idx)) := by
    intro p data idx r h
    unfold labelData at h
    split at h
    · rename_i hdata
      cases h
      exact Or.inl ⟨rfl, List.eq_nil_of_length_eq_zero hdata⟩
    · apply Or.inr
      extract_lets stats param at h
      split at h
      · rename_i hcount
        cases h
        exact ⟨rfl, (if_pos hcount).symm⟩
      · rename_i hcount
        cases h
        exact ⟨rfl, (if_neg hcount).symm⟩
  have hstats : ∀ {p data idx r}, self.labelData p data idx = .ok r →
      statsAt r.param = statsAt p := by
    intro p data idx r h
    rcases hparam h with ⟨rfl, -⟩ | ⟨hp, -⟩
    · rfl
    · rw [hp, statsAt_insert]
  constructor
  · intro p idx r xs h
    rcases hparam h with ⟨rfl, hnil⟩ | ⟨-, hdata⟩
    · rw [List.map_eq_nil_iff.mp hnil]
      rfl
    · rw [hdata]
      unfold assess
      split
      · rfl
      · rw [List.map_map]
        rfl
  · intro p data idx r h
    funext k v
    unfold assess
    rw [hstats h]
  · intro p data idx r h
    exact hstats h
  · intro p data idx r h hne
    rcases hparam h with ⟨-, hnil⟩ | ⟨hp, -⟩
    · exact absurd hnil hne
    · change getAlgorithmParams r.param idx = _
      unfold getAlgorithmParams
      rw [hp, AList.lookup_insert]

end ADOutlierSSTD

/-- A histogram with counts has bins. -/
theorem Histogram.nbin_ne_zero {hist : Histogram} (h : 0 < hist.totalCount) : hist.nbin ≠ 0 := by
  intro hbins
  have hnil : hist.counts = [] := List.length_eq_zero_iff.mp hbins
  unfold totalCount at h
  rw [hnil] at h
  exact lt_irrefl 0 h

namespace ADOutlierHBOS

variable [LibM] (self : ADOutlierHBOS)

open Histogram (nbin_ne_zero)

/-- The entry of a function. -/
def getAlgorithmParams (param : HbosParam) (idx : ℕ) : Except String HbosFuncParam :=
  match param.hbosstats.lookup idx with
  | some fparam => .ok fparam
  | none => .error "Invalid model index in HbosParam::get_algorithm_params"

/-- The algorithm, with what it tells about its model. -/
def reporting : ReportingAlgorithm HbosParam HbosFuncParam :=
  { self.algorithm with getAlgorithmParams := getAlgorithmParams }

/-- What a value gets from the histogram and threshold of its function. -/
def assessWith (fparam : HbosFuncParam) (value : ℚ) : Assessment :=
  if fparam.histogram.nbin = 0 then Assessment.none
  else
    match self.labelElem fparam.histogram (self.usedThreshold fparam) (Elem.new value 0) with
    | .ok e => (e.label, e.score)
    | .error _ => Assessment.none

/-- The entry of a function after labeling. -/
def keepUsed (fparam : HbosFuncParam) : HbosFuncParam :=
  if fparam.histogram.nbin = 0 then fparam
  else
    { fparam with internalGlobalThreshold :=
        if self.useGlobalThreshold then self.usedThreshold fparam
        else fparam.internalGlobalThreshold }

/-- The entry keeps its histogram. -/
@[simp] theorem histogram_keepUsed (fparam : HbosFuncParam) :
    (self.keepUsed fparam).histogram = fparam.histogram := by
  unfold keepUsed
  split <;> rfl

/-- The threshold that was kept is the one to use from then on. -/
theorem usedThreshold_keepUsed (fparam : HbosFuncParam) :
    self.usedThreshold (self.keepUsed fparam) = self.usedThreshold fparam := by
  unfold keepUsed
  split
  · rfl
  · unfold usedThreshold chooseThreshold
    cases self.useGlobalThreshold with
    | false => rfl
    | true =>
      simp only [if_true]
      by_cases hlt : self.localThreshold fparam.histogram < fparam.internalGlobalThreshold
      · simp only [if_pos hlt]
      · simp only [if_neg hlt, lt_irrefl, if_false]

/-- Keeping the threshold again changes nothing. -/
theorem keepUsed_keepUsed (fparam : HbosFuncParam) :
    self.keepUsed (self.keepUsed fparam) = self.keepUsed fparam := by
  have hkept : ∀ {fparam : HbosFuncParam}, fparam.histogram.nbin ≠ 0 → self.keepUsed fparam =
      { fparam with internalGlobalThreshold :=
          if self.useGlobalThreshold then self.usedThreshold fparam
          else fparam.internalGlobalThreshold } := fun hbins => if_neg hbins
  by_cases hbins : fparam.histogram.nbin = 0
  · have hkeep : self.keepUsed fparam = fparam := if_pos hbins
    rw [hkeep, hkeep]
  · have hbins' : (self.keepUsed fparam).histogram.nbin ≠ 0 := by rwa [histogram_keepUsed]
    rw [hkept hbins', usedThreshold_keepUsed, hkept hbins]
    cases self.useGlobalThreshold <;> rfl

/-- An entry that kept its threshold assesses values as before. -/
theorem assessWith_keepUsed (fparam : HbosFuncParam) :
    self.assessWith (self.keepUsed fparam) = self.assessWith fparam := by
  funext value
  unfold assessWith
  rw [histogram_keepUsed, usedThreshold_keepUsed]

/-- Labeling changes the entry of the function only. -/
theorem labelData_param {param : HbosParam} {data : List Elem} {idx : ℕ} {r : Labeled HbosParam}
    (h : self.labelData param data idx = .ok r) :
    data = [] ∧ r.param = param ∨
      r.param = param.setFparam idx (self.keepUsed (param.fparamAt idx)) := by
  rcases labelData_cases h with ⟨hnil, rfl⟩ | ⟨-, hbins, rfl⟩ | ⟨-, hcounts, -, -, hparam⟩
  · exact Or.inl ⟨hnil, rfl⟩
  · apply Or.inr
    unfold keepUsed
    rw [if_pos hbins]
  · apply Or.inr
    unfold keepUsed
    rw [hparam, if_neg (nbin_ne_zero hcounts)]

/-- Labeling an element gives it what its value gets. -/
theorem labelElem_eq {fparam : HbosFuncParam} (hbins : fparam.histogram.nbin ≠ 0) (e e' : Elem)
    (h : self.labelElem fparam.histogram (self.usedThreshold fparam) e = .ok e') :
    e' = { e with
      label := (self.assessWith fparam e.value).1, score := (self.assessWith fparam e.value).2 } := by
  unfold assessWith
  rw [if_neg hbins]
  unfold labelElem at h ⊢
  cases hscore : self.adScore fparam.histogram e.value with
  | error message =>
    rw [hscore] at h
    cases h
  | ok score =>
    rw [hscore] at h
    cases h
    simp only [Elem.new, hscore, bind, Except.bind]
    rfl

/-- The algorithm assesses values by the entry of their function. -/
theorem assessesBy : self.reporting.AssessesBy
    (fun param idx => self.assessWith (param.fparamAt idx))
    fun param idx => self.keepUsed (param.fparamAt idx) := by
  have hkept : ∀ {γ : Type} (f : HbosFuncParam → γ), (∀ fparam, f (self.keepUsed fparam) = f fparam) →
      ∀ {p data idx r}, self.labelData p data idx = .ok r →
        (fun k => f (r.param.fparamAt k)) = fun k => f (p.fparamAt k) := by
    intro γ f hf p data idx r h
    funext k
    rcases labelData_param self h with ⟨-, hp⟩ | hp
    · rw [hp]
    · rw [hp]
      by_cases hk : k = idx
      · rw [hk, HbosParam.fparamAt_setFparam, hf]
      · rw [HbosParam.fparamAt_setFparam_ne _ hk]
  constructor
  · intro p idx r xs h
    rcases labelData_cases h with ⟨hnil, rfl⟩ | ⟨-, hbins, rfl⟩ | ⟨-, hcounts, hdata, -, -⟩
    · rw [List.map_eq_nil_iff.mp hnil]
      rfl
    · apply List.map_congr_left
      intro x _
      unfold assessElem assessWith
      rw [if_pos hbins]
      rfl
    · rw [eq_map_of_mapM hdata (self.labelElem_eq (nbin_ne_zero hcounts)), List.map_map]
      rfl
  · intro p data idx r h
    exact hkept self.assessWith self.assessWith_keepUsed h
  · intro p data idx r h
    exact hkept self.keepUsed self.keepUsed_keepUsed h
  · intro p data idx r h hne
    rcases labelData_param self h with ⟨hnil, -⟩ | hp
    · exact absurd hnil hne
    · change getAlgorithmParams r.param idx = _
      unfold getAlgorithmParams HbosParam.setFparam at *
      rw [hp, AList.lookup_insert]

end ADOutlierHBOS

namespace ADOutlierCOPOD

variable [LibM] (self : ADOutlierCOPOD)

open Histogram (nbin_ne_zero)

/-- The entry of a function. -/
def getAlgorithmParams (param : CopodParam) (idx : ℕ) : Except String CopodFuncParam :=
  match param.copodstats.lookup idx with
  | some fparam => .ok fparam
  | none => .error "Invalid model index in CopodParam::get_algorithm_params"

/-- The algorithm, with what it tells about its model. -/
def reporting : ReportingAlgorithm CopodParam CopodFuncParam :=
  { self.algorithm with getAlgorithmParams := getAlgorithmParams }

/-- The threshold to use with an entry, and the one to keep. -/
def chosenThreshold (fparam : CopodFuncParam) : Except String (ℚ × ℚ) := do
  let lThreshold ← self.localThreshold fparam.histogram
  pure (self.chooseThreshold lThreshold fparam.internalGlobalThreshold)

/-- What a value gets from the histogram and threshold of its function. -/
def assessWith (fparam : CopodFuncParam) (value : ℚ) : Assessment :=
  if fparam.histogram.nbin = 0 then Assessment.none
  else
    match (do
      let chosen ← self.chosenThreshold fparam
      self.labelElem fparam.histogram chosen.1 (Elem.new value 0)) with
    | .ok e => (e.label, e.score)
    | .error _ => Assessment.none

/-- The entry of a function after labeling. -/
def keepUsed (fparam : CopodFuncParam) : CopodFuncParam :=
  if fparam.histogram.nbin = 0 then fparam
  else
    match self.chosenThreshold fparam with
    | .ok chosen => { fparam with internalGlobalThreshold := chosen.2 }
    | .error _ => fparam

/-- The threshold that was kept is the one to use from then on. -/
theorem chooseThreshold_kept (lThreshold gThreshold : ℚ) :
    self.chooseThreshold lThreshold (self.chooseThreshold lThreshold gThreshold).2 =
      self.chooseThreshold lThreshold gThreshold := by
  unfold chooseThreshold
  cases self.useGlobalThreshold with
  | false => rfl
  | true =>
    simp only [if_true]
    by_cases hlt : lThreshold < gThreshold ∧ -1 * LibM.log2 (100001 / 100000) < gThreshold
    · simp only [if_pos hlt]
    · simp only [if_neg hlt, lt_irrefl, false_and, if_false]

/-- An entry keeps its threshold, or the one that was chosen with it. -/
theorem keepUsed_cases (fparam : CopodFuncParam) :
    self.keepUsed fparam = fparam ∨ ∃ chosen, fparam.histogram.nbin ≠ 0 ∧
      self.chosenThreshold fparam = .ok chosen ∧
      self.keepUsed fparam = { fparam with internalGlobalThreshold := chosen.2 } := by
  unfold keepUsed
  by_cases hbins : fparam.histogram.nbin = 0
  · exact Or.inl (if_pos hbins)
  · rw [if_neg hbins]
    cases self.chosenThreshold fparam with
    | error message => exact Or.inl rfl
    | ok chosen => exact Or.inr ⟨chosen, hbins, rfl, rfl⟩

/-- With the threshold that was chosen, the same ones are chosen again. -/
theorem chosenThreshold_kept {fparam : CopodFuncParam} {chosen : ℚ × ℚ}
    (h : self.chosenThreshold fparam = .ok chosen) :
    self.chosenThreshold { fparam with internalGlobalThreshold := chosen.2 } = .ok chosen := by
  obtain ⟨lThreshold, hlocal, hchosen⟩ := bind_eq_ok h
  cases hchosen
  unfold chosenThreshold
  rw [hlocal]
  exact congrArg Except.ok (self.chooseThreshold_kept lThreshold _)

/-- Keeping the threshold again changes nothing. -/
theorem keepUsed_keepUsed (fparam : CopodFuncParam) :
    self.keepUsed (self.keepUsed fparam) = self.keepUsed fparam := by
  rcases self.keepUsed_cases fparam with hkeep | ⟨chosen, hbins, hchosen, hkeep⟩
  · rw [hkeep, hkeep]
  · rw [hkeep]
    unfold keepUsed
    rw [self.chosenThreshold_kept hchosen]
    exact if_neg hbins

/-- An entry that kept its threshold assesses values as before. -/
theorem assessWith_keepUsed (fparam : CopodFuncParam) :
    self.assessWith (self.keepUsed fparam) = self.assessWith fparam := by
  rcases self.keepUsed_cases fparam with hkeep | ⟨chosen, -, hchosen, hkeep⟩
  · rw [hkeep]
  · funext value
    rw [hkeep]
    unfold assessWith
    rw [self.chosenThreshold_kept hchosen, hchosen]

/-- Labeling changes the entry of the function only. -/
theorem labelData_param {param : CopodParam} {data : List Elem} {idx : ℕ} {r : Labeled CopodParam}
    (h : self.labelData param data idx = .ok r) :
    data = [] ∧ r.param = param ∨
      r.param = param.setFparam idx (self.keepUsed (param.fparamAt idx)) := by
  rcases labelData_cases h with ⟨hnil, rfl⟩ | ⟨-, hbins, rfl⟩ |
    ⟨-, hcounts, lThreshold, hlocal, -, -, hparam⟩
  · exact Or.inl ⟨hnil, rfl⟩
  · apply Or.inr
    unfold keepUsed
    rw [if_pos hbins]
  · apply Or.inr
    unfold keepUsed chosenThreshold
    rw [hparam, if_neg (nbin_ne_zero hcounts), hlocal]
    rfl

/-- Labeling an element gives it what its value gets. -/
theorem labelElem_eq {fparam : CopodFuncParam} (hbins : fparam.histogram.nbin ≠ 0)
    {chosen : ℚ × ℚ} (hchosen : self.chosenThreshold fparam = .ok chosen) (e e' : Elem)
    (h : self.labelElem fparam.histogram chosen.1 e = .ok e') :
    e' = { e with
      label := (self.assessWith fparam e.value).1, score := (self.assessWith fparam e.value).2 } := by
  unfold assessWith
  rw [if_neg hbins, hchosen]
  unfold labelElem at h ⊢
  cases hscore : self.copodScore fparam.histogram e.value with
  | error message =>
    rw [hscore] at h
    cases h
  | ok score =>
    rw [hscore] at h
    cases h
    simp only [Elem.new, hscore, bind, Except.bind]
    rfl

/-- The algorithm assesses values by the entry of their function. -/
theorem assessesBy : self.reporting.AssessesBy
    (fun param idx => self.assessWith (param.fparamAt idx))
    fun param idx => self.keepUsed (param.fparamAt idx) := by
  have hkept : ∀ {γ : Type} (f : CopodFuncParam → γ),
      (∀ fparam, f (self.keepUsed fparam) = f fparam) →
      ∀ {p data idx r}, self.labelData p data idx = .ok r →
        (fun k => f (r.param.fparamAt k)) = fun k => f (p.fparamAt k) := by
    intro γ f hf p data idx r h
    funext k
    rcases labelData_param self h with ⟨-, hp⟩ | hp
    · rw [hp]
    · rw [hp]
      by_cases hk : k = idx
      · rw [hk, CopodParam.fparamAt_setFparam, hf]
      · rw [CopodParam.fparamAt_setFparam_ne _ hk]
  constructor
  · intro p idx r xs h
    rcases labelData_cases h with ⟨hnil, rfl⟩ | ⟨-, hbins, rfl⟩ |
      ⟨-, hcounts, lThreshold, hlocal, hdata, -, -⟩
    · rw [List.map_eq_nil_iff.mp hnil]
      rfl
    · apply List.map_congr_left
      intro x _
      unfold assessElem assessWith
      rw [if_pos hbins]
      rfl
    · have hchosen : self.chosenThreshold (p.fparamAt idx) = .ok (self.chooseThreshold lThreshold
          (p.fparamAt idx).internalGlobalThreshold) := by
        unfold chosenThreshold
        rw [hlocal]
        rfl
      rw [eq_map_of_mapM hdata (self.labelElem_eq (nbin_ne_zero hcounts) hchosen), List.map_map]
      rfl
  · intro p data idx r h
    exact hkept self.assessWith self.assessWith_keepUsed h
  · intro p data idx r h
    exact hkept self.keepUsed self.keepUsed_keepUsed h
  · intro p data idx r h hne
    rcases labelData_param self h with ⟨hnil, -⟩ | hp
    · exact absurd hnil hne
    · change getAlgorithmParams r.param idx = _
      unfold getAlgorithmParams CopodParam.setFparam at *
      rw [hp, AList.lookup_insert]

end ADOutlierCOPOD

/-- Which algorithm to use, with its parameters. -/
inductive AlgoParams
  | sstd (sigma : ℚ)
  | hbos (thres : ℚ) (globThres : Bool) (maxBins : ℤ)
  | copod (thres : ℚ)

namespace AlgoParams

/-- The models of an algorithm. -/
def Param : AlgoParams → Type
  | sstd _ => SstdParam
  | hbos .. => HbosParam
  | copod _ => CopodParam

/-- What a model holds for a function. -/
def Json : AlgoParams → Type
  | sstd _ => RunStats
  | hbos .. => HbosFuncParam
  | copod _ => CopodFuncParam

variable [LibM]

/-- The algorithm with the given parameters. -/
def setAlgorithm : (params : AlgoParams) → ReportingAlgorithm params.Param params.Json
  | sstd sigma => (ADOutlierSSTD.mk sigma).reporting
  | hbos thres globThres maxBins => (ADOutlierHBOS.new thres globThres maxBins).reporting
  | copod thres => (ADOutlierCOPOD.new thres true).reporting

/-- What a value gets. -/
def assess : (params : AlgoParams) → params.Param → ℕ → ℚ → Assessment
  | sstd sigma => (ADOutlierSSTD.mk sigma).assess
  | hbos thres globThres maxBins => fun param idx =>
    (ADOutlierHBOS.new thres globThres maxBins).assessWith (HbosParam.fparamAt param idx)
  | copod thres => fun param idx =>
    (ADOutlierCOPOD.new thres true).assessWith (CopodParam.fparamAt param idx)

/-- The entry of a function after labeling. -/
def entryAfter : (params : AlgoParams) → params.Param → ℕ → params.Json
  | sstd _ => ADOutlierSSTD.statsAt
  | hbos thres globThres maxBins => fun param idx =>
    (ADOutlierHBOS.new thres globThres maxBins).keepUsed (HbosParam.fparamAt param idx)
  | copod thres => fun param idx =>
    (ADOutlierCOPOD.new thres true).keepUsed (CopodParam.fparamAt param idx)

/-- Every algorithm assesses values one by one. -/
theorem assessesBy (params : AlgoParams) :
    params.setAlgorithm.AssessesBy params.assess params.entryAfter := by
  cases params with
  | sstd sigma => exact (ADOutlierSSTD.mk sigma).assessesBy
  | hbos thres globThres maxBins => exact (ADOutlierHBOS.new thres globThres maxBins).assessesBy
  | copod thres => exact (ADOutlierCOPOD.new thres true).assessesBy

end AlgoParams

end Chimbuko
