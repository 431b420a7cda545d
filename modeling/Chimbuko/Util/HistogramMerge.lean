import Chimbuko.Util.HistogramVBW

/-!
# Merging histograms

`Histogram::merge_histograms`: the merged histogram gets a new bin width and a first edge a
small fraction of it below the smallest value, and the counts of both inputs are extracted into
the new bins from variable bin width copies. The copies are returned as well, since counts left
behind in them are only logged.
-/

namespace Chimbuko

namespace Histogram

open HistogramVBW (importHistogram extractUniformCountInRangesInt)

/-- A merged histogram, and what is left in the copies of the inputs. -/
structure Merged where
  combined : Histogram
  gw : HistogramVBW
  lw : HistogramVBW
deriving DecidableEq

/-- The bin edges of a histogram, each bin starting at the upper edge of the one before it. -/
def chainedEdges (h : Histogram) : List (ℚ × ℚ) :=
  (List.range h.nbin).map fun b =>
    if 0 < b then ((h.binEdges (b - 1)).2, (h.binEdges b).2) else h.binEdges b

/-- Fill the empty bins of a histogram with the counts of two others. -/
def mergeHistogramsUniformInt (combined g l : Histogram) : Except String Merged := do
  let gw ← importHistogram g
  let lw ← importHistogram l
  let edges := combined.chainedEdges
  let (gc, gw) ← extractUniformCountInRangesInt gw edges
  let (lc, lw) ← extractUniformCountInRangesInt lw edges
  let vals := List.zipWith (fun gcc lcc => lcc.toNat + gcc.toNat) gc lc
  pure { combined := { combined with counts := List.zipWith (· + ·) combined.counts vals }
         gw := gw
         lw := lw }

/-- The most bins that a merged histogram may have. -/
def maxMergedBins : ℚ := 50000

/-- The bin width of a merger: the suggested one, or if it makes too many bins the smaller of
the two inputs'. -/
def mergedBinWidth (g l : Histogram) (bwspec : BinWidthSpecifier) (min max : ℚ) :
    Except String ℚ := do
  let binWidth ← bwspec.binWidthMerge g l min max
  if binWidth < 0 then throw "Suggested bin width is invalid"
  else if binWidth = 0 ∨ maxMergedBins < ⌈(max - min) / binWidth⌉ then
    let binWidth := Min.min g.binWidth l.binWidth
    if binWidth = 0 ∨ maxMergedBins < ⌈(max - min) / binWidth⌉ then
      throw "Failed to determine the appropriate bin width"
    else pure binWidth
  else pure binWidth

/-- The bin width and the first edge of a merger. The shift of the first edge cannot vanish
without rounding; the adjustments for that case follow the source. -/
def mergedRangeStart (binWidth min max : ℚ) : Except String (ℚ × ℚ) :=
  let rangeStart := min - getLowerBoundShiftMul * binWidth
  if rangeStart = max then
    if min = max then
      let rangeStart := min - binWidth
      if rangeStart = max then
        let binWidth := if min = 0 then 1 / 1000000 else 1 / 1000000 * min
        let rangeStart := min - binWidth
        if rangeStart = max then throw "Unable to correct for 0 range!"
        else pure (binWidth, rangeStart)
      else pure (binWidth, rangeStart)
    else throw "Logic bomb: range_start and range_end are equal despite shift"
  else pure (binWidth, rangeStart)

/-- The smallest value of a merger. -/
def mergedMin (g l : Histogram) : ℚ := Min.min l.getMin g.getMin

/-- The largest value of a merger. -/
def mergedMax (g l : Histogram) : ℚ := Max.max l.getMax g.getMax

/-- Merge two histograms that both have bins. The number of bins is in the range of an `int`, since
the bin width has passed the check for too many bins. -/
def mergeNonEmpty (g l : Histogram) (bwspec : BinWidthSpecifier) : Except String Merged :=
  if l.min = ⊤ ∨ l.max = ⊥ then throw "Local histogram min/max values are uninitialized!"
  else if g.min = ⊤ ∨ g.max = ⊥ then throw "Global histogram min/max values are uninitialized!"
  else
    let min := mergedMin g l
    let max := mergedMax g l
    if max < min then throw "Min and max values out of order"
    else do
      let binWidth ← mergedBinWidth g l bwspec min max
      let (binWidth, rangeStart) ← mergedRangeStart binWidth min max
      let nbin := ⌈(max - rangeStart) / binWidth⌉
      if nbin < 0 then throw "Negative bin count encountered, possible integer overflow"
      else if nbin = 0 then throw "Number of bins is 0!"
      else
        let combined : Histogram :=
          { counts := List.replicate nbin.toNat 0
            start := rangeStart
            binWidth := (max - rangeStart) / nbin
            min := min
            max := max }
        mergeHistogramsUniformInt combined g l

/-- Merge two histograms; a histogram without bins leaves the other one as it is. -/
def mergeHistograms (g l : Histogram) (bwspec : BinWidthSpecifier) : Except String Histogram :=
  if g.nbin = 0 then pure l
  else if l.nbin = 0 then pure g
  else do
    let merged ← mergeNonEmpty g l bwspec
    pure merged.combined

end Histogram

end Chimbuko
