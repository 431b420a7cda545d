import Chimbuko.Param.ParamInterface
import Chimbuko.Util.HistogramMerge

/-!
# The model of the copula based algorithm

`core/param/copod_param`: a histogram and a threshold for each model index. Histograms are made and
merged with Scott's rule.
-/

namespace Chimbuko

open KeyedMap

/-- The histogram and the threshold of one function. -/
structure CopodFuncParam where
  histogram : Histogram
  internalGlobalThreshold : ℚ
deriving DecidableEq

namespace CopodFuncParam

variable [LibM]

/-- An entry without values. -/
def new : CopodFuncParam :=
  { histogram := Histogram.empty, internalGlobalThreshold := LibM.log2 (100001 / 100000) }

/-- Merge the histograms and choose the larger threshold. -/
def merge (self other : CopodFuncParam) : Except String CopodFuncParam := do
  let histogram ← Histogram.mergeHistograms self.histogram other.histogram binWidthScott
  pure { histogram := histogram
         internalGlobalThreshold :=
           Max.max self.internalGlobalThreshold other.internalGlobalThreshold }

end CopodFuncParam

/-- Function parameters for each model index. -/
structure CopodParam where
  copodstats : ModelMap CopodFuncParam

namespace CopodParam

/-- A model without functions. -/
def new : CopodParam := { copodstats := ∅ }

/-- Forget all functions. -/
def clear (_ : CopodParam) : CopodParam := { copodstats := ∅ }

/-- Take over the entries of another instance. -/
def assign (self other : CopodParam) : CopodParam :=
  { copodstats := other.copodstats ∪ self.copodstats }

variable [LibM]

/-- `m_copodstats[idx].merge(from)`; indexing a map creates a missing entry by default. -/
def mergeAt (old : Option CopodFuncParam) (other : CopodFuncParam) :
    Except String CopodFuncParam :=
  (old.getD CopodFuncParam.new).merge other

/-- Merge the entries of another instance. -/
def update (self other : CopodParam) : Except String CopodParam := do
  let copodstats ← upsertAll mergeAt self.copodstats other.copodstats
  pure { copodstats := copodstats }

/-- `m_copodstats[idx]`: the entry of a model index, which is a fresh one if there is none. -/
def fparamAt (self : CopodParam) (idx : ℕ) : CopodFuncParam :=
  (self.copodstats.lookup idx).getD CopodFuncParam.new

/-- Set the entry of a model index. -/
def setFparam (self : CopodParam) (idx : ℕ) (fparam : CopodFuncParam) : CopodParam :=
  { copodstats := self.copodstats.insert idx fparam }

/-- The entry that was set. -/
@[simp] theorem fparamAt_setFparam (self : CopodParam) (idx : ℕ) (p : CopodFuncParam) :
    (self.setFparam idx p).fparamAt idx = p := by
  rw [fparamAt, setFparam, AList.lookup_insert]
  rfl

/-- The other entries stay as they are. -/
theorem fparamAt_setFparam_ne (self : CopodParam) {idx k : ℕ} (h : k ≠ idx)
    (p : CopodFuncParam) : (self.setFparam idx p).fparamAt k = self.fparamAt k := by
  rw [fparamAt, setFparam, AList.lookup_insert_ne h]
  rfl

end CopodParam

end Chimbuko
