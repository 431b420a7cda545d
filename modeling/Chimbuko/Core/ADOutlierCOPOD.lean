import Chimbuko.Core.ADOutlier
import Chimbuko.Param.CopodParam
import Chimbuko.Util.HistogramCDF

/-!
# The copula based algorithm

`ADOutlierCOPOD`: the score of a value grows as the share of values on either side of it falls,
corrected for the skewness of the histogram. The threshold lies at a fraction of the range of scores
of the bins' midpoints, and can be kept in the model so that it is only replaced by a larger one.
A data set is left unlabeled as long as its model has no bins.
-/

namespace Chimbuko

/-- The parameters of the algorithm. -/
structure ADOutlierCOPOD where
  /-- Keeps the argument of the logarithm from being zero. -/
  alpha : ℚ
  /-- The threshold as a fraction of the range of scores. -/
  threshold : ℚ
  useGlobalThreshold : Bool

namespace ADOutlierCOPOD

/-- The algorithm with its default constant. -/
def new (threshold : ℚ) (useGlobalThreshold : Bool) : ADOutlierCOPOD :=
  { alpha := 7888 / 10 ^ 34, threshold := threshold, useGlobalThreshold := useGlobalThreshold }

/-- The sign of a number, and zero for what is not a number. -/
def sign : Option ℚ → ℚ
  | none => 0
  | some x => if x < 0 then -1 else if 0 < x then 1 else 0

/-- The share of values up to some value. That of the smallest value is zero by construction of
the bins, so it is shifted by one value from there on. -/
def tailedProb (hist : Histogram) (value : ℚ) : Except String ℚ := do
  let prob ← hist.empiricalCDF value
  pure (if hist.getMin ≤ value then Min.min 1 (prob + 1 / hist.totalCount) else prob)

variable [LibM] (self : ADOutlierCOPOD)

/-- The larger one of the average of both tails' scores and the skewness corrected score. -/
def copodScore (hist : Histogram) (value : ℚ) : Except String ℚ := do
  let left ← tailedProb hist value
  let right ← tailedProb hist.negate (-value)
  let leftTailedScore := -LibM.log2 (left + self.alpha)
  let rightTailedScore := -LibM.log2 (right + self.alpha)
  let pSign := sign (hist.skewness.map fun s => s - 1)
  let nSign := sign (hist.skewness.map fun s => s + 1)
  let avgLrScore := (leftTailedScore + rightTailedScore) / 2
  let correctedScore := leftTailedScore * -1 * pSign + rightTailedScore * nSign
  pure (Max.max avgLrScore correctedScore)

/-- The smallest and the largest score of the bins' midpoints. -/
def scoreRange (hist : Histogram) : Except String (ℚ × ℚ) := do
  let minScore := -1 * LibM.log2 (0 + self.alpha)
  let maxScore := LibM.log2 (1 + self.alpha) - minScore
  (List.range hist.nbin).foldlM (fun range b => do
    let score ← self.copodScore hist (hist.binValue b)
    pure (Min.min score range.1, Max.max score range.2)) (minScore, maxScore)

/-- The threshold as a score. -/
def localThreshold (hist : Histogram) : Except String ℚ := do
  let range ← self.scoreRange hist
  pure (if range.2 < 0 then -1 * self.threshold * (range.2 - range.1)
    else range.1 + self.threshold * (range.2 - range.1))

/-- The threshold to use and the one to keep, given the local one and the one that was kept. -/
def chooseThreshold (lThreshold gThreshold : ℚ) : ℚ × ℚ :=
  if self.useGlobalThreshold then
    if lThreshold < gThreshold ∧ -1 * LibM.log2 (100001 / 100000) < gThreshold then
      (gThreshold, gThreshold)
    else (lThreshold, lThreshold)
  else (lThreshold, gThreshold)

/-- Score an element, and compare it with the threshold. -/
def labelElem (hist : Histogram) (threshold : ℚ) (e : Elem) : Except String Elem := do
  let score ← self.copodScore hist e.value
  pure { e with score := score, label := if threshold ≤ score then .outlier else .normal }

/-- Label a data set, unless its model has no bins. Without any counts there are no shares. -/
def labelData (param : CopodParam) (data : List Elem) (modelIdx : ℕ) :
    Except String (Labeled CopodParam) :=
  if data.length = 0 then pure { param := param, data := data, threshold := none }
  else
    let fparam := param.fparamAt modelIdx
    let hist := fparam.histogram
    if hist.nbin = 0 then
      pure { param := param.setFparam modelIdx fparam, data := data, threshold := none }
    else if hist.totalCount = 0 then throw "undefined: division by zero"
    else do
      let lThreshold ← self.localThreshold hist
      let chosen := self.chooseThreshold lThreshold fparam.internalGlobalThreshold
      let fparam := { fparam with internalGlobalThreshold := chosen.2 }
      let data ← data.mapM (self.labelElem hist chosen.1)
      pure { param := param.setFparam modelIdx fparam, data := data, threshold := some chosen.1 }

/-- What labeling a data set does: nothing without data, it creates the entry of a model without
bins, and else it labels every element and keeps the threshold if that is enabled. -/
theorem labelData_cases {self : ADOutlierCOPOD} {param : CopodParam} {data : List Elem} {idx : ℕ}
    {r : Labeled CopodParam} (h : self.labelData param data idx = .ok r) :
    (data = [] ∧ r = ⟨param, data, none⟩) ∨
      (data ≠ [] ∧ (param.fparamAt idx).histogram.nbin = 0 ∧
        r = ⟨param.setFparam idx (param.fparamAt idx), data, none⟩) ∨
      (data ≠ [] ∧ 0 < (param.fparamAt idx).histogram.totalCount ∧ ∃ lThreshold,
        self.localThreshold (param.fparamAt idx).histogram = .ok lThreshold ∧
        data.mapM (self.labelElem (param.fparamAt idx).histogram (self.chooseThreshold lThreshold
          (param.fparamAt idx).internalGlobalThreshold).1) = .ok r.data ∧
        r.threshold = some (self.chooseThreshold lThreshold
          (param.fparamAt idx).internalGlobalThreshold).1 ∧
        r.param = param.setFparam idx { param.fparamAt idx with
          internalGlobalThreshold := (self.chooseThreshold lThreshold
            (param.fparamAt idx).internalGlobalThreshold).2 }) := by
  unfold labelData at h
  split at h
  · rename_i hdata
    cases h
    exact Or.inl ⟨List.eq_nil_of_length_eq_zero hdata, rfl⟩
  rename_i hdata
  have hne : data ≠ [] := by
    intro hnil
    rw [hnil] at hdata
    exact hdata rfl
  apply Or.inr
  extract_lets fparam hist at h
  split at h
  · rename_i hbins
    cases h
    exact Or.inl ⟨hne, hbins, rfl⟩
  split at h
  · cases h
  rename_i hcounts
  refine Or.inr ⟨hne, Nat.pos_of_ne_zero hcounts, ?_⟩
  cases hlocal : self.localThreshold hist with
  | error e =>
    rw [hlocal] at h
    cases h
  | ok lThreshold =>
    simp only [bind, Except.bind, hlocal] at h
    cases hmap : data.mapM (self.labelElem hist
        (self.chooseThreshold lThreshold fparam.internalGlobalThreshold).1) with
    | error e =>
      rw [hmap] at h
      cases h
    | ok data' =>
      rw [hmap] at h
      cases h
      exact ⟨lThreshold, rfl, hmap, rfl, rfl⟩

/-- Put the histogram of some values into the entry of a model index, which is also created without
values. -/
def addValues (param : CopodParam) (modelIdx : ℕ) (values : List ℚ) :
    Except String CopodParam := do
  let fparam := param.fparamAt modelIdx
  let hist ← if 0 < values.length then Histogram.createHistogram values binWidthScott
    else pure fparam.histogram
  pure (param.setFparam modelIdx { fparam with histogram := hist })

/-- What the algorithm does in a run. -/
def algorithm : ADAlgorithm CopodParam where
  new := CopodParam.new
  clear := CopodParam.clear
  update := CopodParam.update
  assign := CopodParam.assign
  runParam := CopodParam.new
  addValues := addValues
  labelData := self.labelData

end ADOutlierCOPOD

end Chimbuko
