import Chimbuko.Core.ADOutlier
import Chimbuko.Param.HbosParam
import Chimbuko.Util.RunStats

/-!
# The histogram based algorithm

`ADOutlierHBOS`: the score of a value falls with the share of all values that its bin holds. The
threshold lies at a fraction of the range of scores of the populated bins, and can be kept in the
model so that it is only replaced by a more stringent one. A data set is left unlabeled as long as
its model has no bins.
-/

namespace Chimbuko

/-- The parameters of the algorithm. -/
structure ADOutlierHBOS where
  /-- Keeps the argument of the logarithm from being zero. -/
  alpha : ℚ
  /-- The threshold as a fraction of the range of scores. -/
  threshold : ℚ
  useGlobalThreshold : Bool
  maxbins : ℤ

namespace ADOutlierHBOS

/-- The algorithm with its default constant. -/
def new (threshold : ℚ) (useGlobalThreshold : Bool) (maxbins : ℤ) : ADOutlierHBOS :=
  { alpha := 7888 / 10 ^ 34, threshold := threshold
    useGlobalThreshold := useGlobalThreshold, maxbins := maxbins }

/-- The share of all values that a bin with some count holds. -/
def binProb (hist : Histogram) (count : ℕ) : ℚ := count / hist.totalCount

variable [LibM] (self : ADOutlierHBOS)

/-- The score of a probability. -/
def scoreOf (prob : ℚ) : ℚ := -1 * LibM.log2 (prob + self.alpha)

/-- The score of a value outside the histogram. -/
def maxPossibleScore : ℚ := self.scoreOf 0

/-- The scores of the bins. -/
def outScores (hist : Histogram) : List ℚ :=
  hist.counts.map fun count => self.scoreOf (binProb hist count)

/-- The smallest and the largest score of the bins that are not empty. -/
def scoreRange (hist : Histogram) : ℚ × ℚ :=
  let populated := hist.counts.filter fun count => 0 < binProb hist count
  let range := Histogram.dataRange (populated.map fun count => self.scoreOf (binProb hist count))
  (range.1.untopD doubleMax, range.2.unbotD (-doubleMax))

/-- The threshold as a score. -/
def localThreshold (hist : Histogram) : ℚ :=
  let (minScore, maxScore) := self.scoreRange hist
  minScore + self.threshold * (maxScore - minScore)

/-- The threshold to use and the one to keep, given the local one and the one that was kept. -/
def chooseThreshold (lThreshold gThreshold : ℚ) : ℚ × ℚ :=
  if self.useGlobalThreshold then
    if lThreshold < gThreshold then (gThreshold, gThreshold) else (lThreshold, lThreshold)
  else (lThreshold, gThreshold)

/-- The score of a value. Within 5% of the bin width from an edge it counts as inside. -/
def adScore (hist : Histogram) (value : ℚ) : Except String ℚ := do
  let binInd ← hist.getBin value (1 / 20)
  if binInd = Histogram.leftOfHistogram ∨ binInd = Histogram.rightOfHistogram then
    pure self.maxPossibleScore
  else pure ((self.outScores hist).getD binInd.toNat 0)

/-- Score an element, and compare it with the threshold. -/
def labelElem (hist : Histogram) (threshold : ℚ) (e : Elem) : Except String Elem := do
  let score ← self.adScore hist e.value
  pure { e with score := score, label := if threshold ≤ score then .outlier else .normal }

/-- Label a data set, unless its model has no bins. Bins without any counts have no scores. -/
def labelData (param : HbosParam) (data : List Elem) (modelIdx : ℕ) :
    Except String (Labeled HbosParam) :=
  if data.length = 0 then pure { param := param, data := data, threshold := none }
  else
    let fparam := param.fparamAt modelIdx
    let hist := fparam.histogram
    if hist.nbin = 0 then
      pure { param := param.setFparam modelIdx fparam, data := data, threshold := none }
    else if hist.totalCount = 0 then throw "undefined: division by zero"
    else do
      let chosen :=
        self.chooseThreshold (self.localThreshold hist) fparam.internalGlobalThreshold
      let fparam := { fparam with internalGlobalThreshold := chosen.2 }
      let data ← data.mapM (self.labelElem hist chosen.1)
      pure { param := param.setFparam modelIdx fparam, data := data, threshold := some chosen.1 }

/-- What the algorithm does in a run. The local threshold starts at zero, to be overridden by the
merge. -/
def algorithm : ADAlgorithm HbosParam where
  new := HbosParam.new
  clear := HbosParam.clear
  update := HbosParam.update
  assign := HbosParam.assign
  runParam := HbosParam.new.setMaxBins self.maxbins
  addValues param modelIdx values := param.generateHistogram modelIdx values 0
  labelData := self.labelData

end ADOutlierHBOS

end Chimbuko
