import Mathlib.Algebra.Order.Floor.Ring
import Mathlib.Data.Rat.Floor
import Mathlib.Algebra.BigOperators.Group.List.Basic
import Mathlib.Algebra.Order.WithTop.Untop0

/-!
# Fixed bin width histograms

`core/util/Histogram` over the rationals: lower bin edges are exclusive, upper edges inclusive,
and the last upper edge is the largest value seen. A cleared histogram holds the largest and the
lowest double as its extremes; over the rationals these are a top and a bottom element.
Square roots and powers come from the mathematics library and are parameters.
-/

namespace Chimbuko

/-- The functions taken from the mathematics library. -/
class LibM where
  sqrt : ℚ → ℚ
  pow : ℚ → ℚ → ℚ
  log2 : ℚ → ℚ

/-- Bin counts, first edge, bin width, and the smallest and largest values ever seen. -/
structure Histogram where
  counts : List ℕ
  start : ℚ
  binWidth : ℚ
  min : WithTop ℚ
  max : WithBot ℚ
deriving DecidableEq

namespace Histogram

/-- A cleared histogram. -/
def empty : Histogram := { counts := [], start := 0, binWidth := 0, min := ⊤, max := ⊥ }

instance : Inhabited Histogram := ⟨empty⟩

/-- The number of bins. -/
def nbin (h : Histogram) : ℕ := h.counts.length

/-- The smallest value. -/
def getMin (h : Histogram) : ℚ := h.min.untopD 0

/-- The largest value. -/
def getMax (h : Histogram) : ℚ := h.max.unbotD 0

/-- The number of values in all bins. -/
def totalCount (h : Histogram) : ℕ := h.counts.sum

/-- The number of values in a bin. -/
def binCount (h : Histogram) (bin : ℕ) : ℕ := h.counts.getD bin 0

/-- The lower edge of a bin. -/
def binEdgeLower (h : Histogram) (bin : ℕ) : ℚ := h.start + bin * h.binWidth

/-- The last upper edge is the largest value seen. -/
def binEdgeUpper (h : Histogram) (bin : ℕ) : ℚ :=
  if bin + 1 = h.nbin then h.getMax else h.start + (bin + 1) * h.binWidth

/-- The edges of a bin, where the last one ends at the largest value. -/
def binEdges (h : Histogram) (bin : ℕ) : ℚ × ℚ :=
  let l := h.start + bin * h.binWidth
  let u := if bin + 1 = h.nbin then h.getMax else l + h.binWidth
  (l, u)

/-- The value that represents a bin is its midpoint. -/
def binValue (h : Histogram) (bin : ℕ) : ℚ := h.start + (bin + 1 / 2) * h.binWidth

/-- The first edge lies this fraction of a bin width below the smallest value. -/
def getLowerBoundShiftMul : ℚ := 1 / 1000000

/-- The bin of a value on the left of the histogram. -/
def leftOfHistogram : ℤ := -1

/-- The bin of a value on the right of the histogram. -/
def rightOfHistogram : ℤ := -2

/-- The bin holding a value, or where the value lies outside the histogram. -/
def getBin (h : Histogram) (v tol : ℚ) : Except String ℤ :=
  if h.nbin = 0 then throw "Histogram is empty"
  else if v ≤ h.start - tol * h.binWidth then pure leftOfHistogram
  else if v ≤ h.start then pure 0
  else if h.getMax + tol * h.binWidth < v then pure rightOfHistogram
  else if h.getMax ≤ v then pure (h.nbin - 1)
  else
    let bb := (v - h.start) / h.binWidth
    let bin := ⌊bb⌋
    let bu_prev := h.start + bin * h.binWidth
    let bin := if v ≤ bu_prev then bin - 1 else bin
    if bin < 0 ∨ (h.nbin : ℤ) ≤ bin then throw "Logic bomb: bin index outside of histogram"
    else pure bin

/-- Count one value in its bin; values outside the histogram are an error. -/
def countValue (h : Histogram) (message : String) (v : ℚ) : Except String Histogram := do
  let b ← h.getBin v 0
  if b = leftOfHistogram ∨ b = rightOfHistogram then throw message
  else pure { h with counts := h.counts.modify b.toNat (· + 1) }

end Histogram

/-- A rule for the bin width of a new histogram, from data or for the merger of two histograms,
given the smallest and the largest value. -/
structure BinWidthSpecifier where
  binWidth : List ℚ → ℚ → ℚ → Except String ℚ
  binWidthMerge : Histogram → Histogram → ℚ → ℚ → Except String ℚ

namespace Histogram

section Scott

variable [LibM]

/-- Scott's rule for data. -/
def scottBinWidth (vals : List ℚ) : ℚ :=
  let mean : ℚ := vals.sum / vals.length
  let var : ℚ := (vals.map fun v => (v - mean) ^ 2).sum / vals.length
  let std := LibM.sqrt var
  7 / 2 * std / LibM.pow vals.length (1 / 3)

/-- Number, sum and sum of squares of the values that the bins represent. -/
def binSums (h : Histogram) : ℕ × ℚ × ℚ :=
  (List.range h.nbin).foldl (fun acc i =>
    let count := h.binCount i
    let v := h.binValue i
    (acc.1 + count, acc.2.1 + count * v, acc.2.2 + count * v * v)) (0, 0, 0)

/-- Scott's rule for the merger of two histograms. -/
def scottBinWidthMerge (global loc : Histogram) : Except String ℚ :=
  let size := global.binSums.1 + loc.binSums.1
  if size = 0 then throw "Sum of bin counts over both histograms is zero!"
  else
    let avgx := (global.binSums.2.1 + loc.binSums.2.1) / size
    let avgx2 := (global.binSums.2.2 + loc.binSums.2.2) / size
    let var := avgx2 - avgx * avgx
    let var := if var < 0 then 0 else var
    let std := LibM.sqrt var
    pure (7 / 2 * std / LibM.pow size (1 / 3))

end Scott

end Histogram

open Histogram (getLowerBoundShiftMul)

/-- A constant bin width. -/
def binWidthFixed (width : ℚ) : BinWidthSpecifier where
  binWidth _ _ _ := pure width
  binWidthMerge _ _ _ _ := pure width

/-- Scott's rule. -/
def binWidthScott [LibM] : BinWidthSpecifier where
  binWidth runtimes _ _ := pure (Histogram.scottBinWidth runtimes)
  binWidthMerge a b _ _ := Histogram.scottBinWidthMerge a b

/-- The bin width that gives a fixed number of bins. -/
def fixedNbinWidth (nbin : ℤ) (min max : ℚ) : ℚ :=
  (max - min) / (nbin - getLowerBoundShiftMul - 1 / 1000)

/-- The bin width for a fixed number of bins. -/
def binWidthFixedNbin (nbin : ℤ) : BinWidthSpecifier where
  binWidth _ min max :=
    if max = min then throw "Maximum and minimum value are the same!"
    else pure (fixedNbinWidth nbin min max)
  binWidthMerge _ _ min max := pure (fixedNbinWidth nbin min max)

/-- The conversion of a floating point number of bins to an `int`. The language leaves a number out
of range undefined; the usual machine instruction yields the lowest `int`. -/
def castInt (nbin : ℤ) : ℤ := if -2 ^ 31 ≤ nbin ∧ nbin < 2 ^ 31 then nbin else -2 ^ 31

/-- A number of bins in the range of an `int` is kept. -/
theorem castInt_of_lt {nbin : ℤ} (hpos : 0 ≤ nbin) (hlt : nbin < 2 ^ 31) :
    castInt nbin = nbin := by
  unfold castInt
  rw [if_pos (by omega)]

/-- Only a number of bins in the range of an `int` is kept. -/
theorem castInt_eq_self {nbin : ℤ} (h : castInt nbin = nbin) : nbin < 2 ^ 31 := by
  unfold castInt at h
  split at h <;> omega

/-- Cap the number of bins that a bin width leads to. The cap does not see a number of bins that
is out of the range of an `int`. -/
def correctBinWidth (maxbins : ℤ) (binWidth min max : ℚ) : ℚ :=
  if binWidth = 0 ∨ maxbins < castInt ⌈(max - min) / binWidth + getLowerBoundShiftMul⌉ then
    fixedNbinWidth maxbins min max
  else binWidth

/-- A constant bin width with a cap on the number of bins. -/
def binWidthFixedMaxNbin (width : ℚ) (maxbins : ℤ) : BinWidthSpecifier where
  binWidth _ min max := pure (correctBinWidth maxbins width min max)
  binWidthMerge _ _ min max := pure (correctBinWidth maxbins width min max)

/-- Scott's rule with a cap on the number of bins. -/
def binWidthScottMaxNbin [LibM] (maxbins : ℤ) : BinWidthSpecifier where
  binWidth runtimes min max :=
    pure (correctBinWidth maxbins (Histogram.scottBinWidth runtimes) min max)
  binWidthMerge a b min max := do
    let width ← Histogram.scottBinWidthMerge a b
    pure (correctBinWidth maxbins width min max)

namespace Histogram

/-- A histogram over given bins; the data must lie within them. -/
def createHistogramIn (data : List ℚ) (min max start : ℚ) (nbin : ℤ) (binWidth : ℚ) :
    Except String Histogram :=
  if data.length = 0 then throw "No data points provided"
  else if nbin < 1 then throw "Require at least 1 bin"
  else if min < start ∨ start + binWidth < min then
    throw "min point should lie within the first bin"
  else if 1 / 100000000 * binWidth < |start + nbin * binWidth - max| then
    throw "Mismatch between {start,nbin,bin width} and max provided"
  else
    data.foldlM (fun h d =>
        h.countValue "One or more data points do not lie within the bins provided" d)
      { counts := List.replicate nbin.toNat 0, start := start, binWidth := binWidth,
        min := min, max := max }

/-- Extend a range to a further value. -/
def extendRange (range : WithTop ℚ × WithBot ℚ) (v : ℚ) : WithTop ℚ × WithBot ℚ :=
  (Min.min range.1 v, Max.max range.2 v)

/-- The smallest and largest of some values, from the extremes of a cleared histogram. -/
def dataRange (values : List ℚ) : WithTop ℚ × WithBot ℚ :=
  values.foldl extendRange (⊤, ⊥)

/-- Empty bins for a range and a suggested bin width: the first edge lies just below the smallest
value, and the bin width is adjusted so that the last edge is the largest value. -/
def adjustedBins (min max binWidth : ℚ) : Histogram :=
  let firstEdge := min - getLowerBoundShiftMul * binWidth
  let nbin := ⌈(max - firstEdge) / binWidth⌉
  { counts := List.replicate nbin.toNat 0
    start := firstEdge
    binWidth := (max - firstEdge) / nbin
    min := min
    max := max }

/-- The single narrow bin for data that all have one value. -/
def deltaBin (value : ℚ) (count : ℕ) : Histogram :=
  let delta := 1 / 1000000000000 * |value|
  let delta := if delta = 0 then 1 / 1000000000000 else delta
  { counts := [count], start := value - delta, binWidth := delta, min := value, max := value }

/-- Count data of a given range with a suggested bin width. A suggested bin width of zero makes
the cast of the number of bins to an integer undefined. A number of bins that is out of the range
of an `int` becomes negative in the cast, and with it the adjusted bin width, which the check of the
last edge reports. -/
def fillHistogram (rTimes : List ℚ) (min max binWidth : ℚ) : Except String Histogram :=
  if binWidth < 0 then throw "Invalid bin width"
  else if binWidth = 0 then throw "undefined: division by zero"
  else
    let h := adjustedBins min max binWidth
    if castInt h.nbin ≠ h.nbin ∨
        1 / 100000000 * h.binWidth < |h.start + h.nbin * h.binWidth - max| then
      throw "Unexpectedly large error in bin upper edge"
    else do
      let h ← rTimes.foldlM (fun h v => h.countValue "Value is outside of histogram" v) h
      if h.totalCount ≠ rTimes.length then
        throw "Histogram bin total count does not match number of data points"
      else pure h

/-- A histogram of some data. -/
def createHistogram (rTimes : List ℚ) (bwspec : BinWidthSpecifier) : Except String Histogram :=
  match rTimes with
  | [] => throw "No data points provided"
  | first :: _ =>
    if rTimes.all (· = first) then pure (deltaBin first rTimes.length)
    else do
      let min := (dataRange rTimes).1.untopD 0
      let max := (dataRange rTimes).2.unbotD 0
      let binWidth ← bwspec.binWidth rTimes min max
      fillHistogram rTimes min max binWidth

/-- A histogram with given contents. -/
def setHistogram (counts : List ℕ) (min max start binWidth : ℚ) : Except String Histogram :=
  if max < min then throw "Invalid min/max"
  else if min < start ∨ start + binWidth < min then
    throw "Min point should lie within the first bin"
  else if 1 / 100000000 * binWidth < |start + counts.length * binWidth - max| then
    throw "Mismatch between {start,nbin,bin width} and max provided"
  else pure { counts := counts, start := start, binWidth := binWidth, min := min, max := max }

/-- The histogram of the negated values. -/
def negate (h : Histogram) : Histogram :=
  { h with
    counts := h.counts.reverse
    max := ((-h.getMin : ℚ) : WithBot ℚ)
    min := ((-h.getMax : ℚ) : WithTop ℚ)
    start := -h.getMax - getLowerBoundShiftMul * h.binWidth }

/-- Negation keeps the number of bins. -/
@[simp] theorem negate_nbin (h : Histogram) : h.negate.nbin = h.nbin := List.length_reverse

end Histogram

end Chimbuko
