import Chimbuko.Core.ADOutlier
import Chimbuko.Param.SstdParam
import Chimbuko.Util.Histogram

/-!
# The standard deviation algorithm

`ADOutlierSSTD`: a value is an outlier if it lies more than a number of standard deviations from
the mean. A data set is left unlabeled as long as its model has fewer than two values.
-/

namespace Chimbuko

namespace RunStats

/-- The mean of the values. -/
def mean (s : RunStats) : ℚ := s.eta

/-- The variance of the values. -/
def variance (s : RunStats) (ddof : ℚ) : ℚ :=
  if s.count - ddof ≤ 0 then 0 else s.rho / (s.count - ddof)

variable [LibM]

/-- The standard deviation of the values. -/
def stddev (s : RunStats) (ddof : ℚ) : ℚ := LibM.sqrt |s.variance ddof|

end RunStats

/-- The number of standard deviations that makes an outlier. -/
structure ADOutlierSSTD where
  sigma : ℚ

namespace ADOutlierSSTD

/-- `m_runstats[idx].push` for every value; an entry is created without values, too. -/
def addValues (param : SstdParam) (modelIdx : ℕ) (values : List ℚ) : Except String SstdParam :=
  pure ⟨param.runstats.insert modelIdx
    (values.foldl RunStats.push ((param.runstats.lookup modelIdx).getD default))⟩

variable [LibM]

/-- The distance from the mean in units of the standard deviation. -/
def computeScore (value : ℚ) (stats : RunStats) : ℚ :=
  let stdDev := if stats.stddev 1 = 0 then 1 / 10000000000 else stats.stddev 1
  |value - stats.mean| / stdDev

/-- Label an element by its distance from the mean. -/
def labelElem (self : ADOutlierSSTD) (stats : RunStats) (e : Elem) : Elem :=
  let thrHi := stats.mean + self.sigma * stats.stddev 1
  let thrLo := stats.mean - self.sigma * stats.stddev 1
  { e with
    label := if e.value < thrLo ∨ thrHi < e.value then .outlier else .normal
    score := computeScore e.value stats }

/-- Label a data set, unless its model has fewer than two values. -/
def labelData (self : ADOutlierSSTD) (param : SstdParam) (data : List Elem) (modelIdx : ℕ) :
    Except String (Labeled SstdParam) :=
  if data.length = 0 then pure { param := param, data := data, threshold := none }
  else
    let fparam := (param.runstats.lookup modelIdx).getD default
    let param : SstdParam := ⟨param.runstats.insert modelIdx fparam⟩
    if fparam.count < 2 then pure { param := param, data := data, threshold := none }
    else pure { param := param, data := data.map (self.labelElem fparam), threshold := none }

/-- What the algorithm does in a run. -/
def algorithm (self : ADOutlierSSTD) : ADAlgorithm SstdParam where
  new := SstdParam.new
  clear := SstdParam.clear
  update := SstdParam.update
  assign := SstdParam.assign
  runParam := SstdParam.new
  addValues := addValues
  labelData := self.labelData

end ADOutlierSSTD

end Chimbuko
