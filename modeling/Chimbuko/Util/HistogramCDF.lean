import Chimbuko.Util.Histogram
import Chimbuko.Util.RunStats

/-!
# Distribution functions and skewness of histograms

What the copula based algorithm reads off a histogram: how many values lie in a range if those of a
bin are spread uniformly over it, the empirical distribution function, and the skewness.
-/

namespace Chimbuko

namespace Histogram

/-- The number of values in a range that is open below and closed above, with those of a bin spread
uniformly over it. If all values agree the bin edges are ignored. -/
def uniformCountInRange (h : Histogram) (l u : ℚ) : Except String ℚ :=
  if u ≤ l then throw "Invalid range, require u>l"
  else if h.getMax = h.getMin then
    if h.nbin ≠ 1 then throw "Logic bomb: max=min but #bins != 1?"
    else pure (if l < h.getMax ∧ h.getMax ≤ u then h.binCount 0 else 0)
  else do
    let lbin ← h.getBin l 0
    if lbin = rightOfHistogram then pure 0
    else do
      let l := if lbin = leftOfHistogram then h.binEdgeLower 0 else l
      let lbin := if lbin = leftOfHistogram then 0 else lbin.toNat
      let ubin ← h.getBin u 0
      if ubin = leftOfHistogram then pure 0
      else
        let u := if ubin = rightOfHistogram then h.getMax else u
        let ubin := if ubin = rightOfHistogram then h.nbin - 1 else ubin.toNat
        let lbinedges := h.binEdges lbin
        let ubinedges := h.binEdges ubin
        if lbin = ubin then
          let count := (u - l) / (lbinedges.2 - lbinedges.1) * h.binCount lbin
          if h.binCount lbin < count then throw "assert(count <= lbincount)" else pure count
        else
          let lbinfrac := (lbinedges.2 - l) / (lbinedges.2 - lbinedges.1) * h.binCount lbin
          let ubinfrac := (u - ubinedges.1) / (ubinedges.2 - ubinedges.1) * h.binCount ubin
          if ¬(ubinedges.1 < u ∧ u ≤ ubinedges.2) then
            throw "assert(u>ubinedges.first && u<=ubinedges.second)"
          else if h.binCount lbin < lbinfrac then throw "assert(lbinfrac <= lbincount)"
          else if h.binCount ubin < ubinfrac then throw "assert(ubinfrac <= ubincount)"
          else
            let inner := (List.range' (lbin + 1) (ubin - (lbin + 1))).map h.binCount
            pure (lbinfrac + ubinfrac + inner.sum)

/-- The share of values up to some value. -/
def empiricalCDF (h : Histogram) (value : ℚ) : Except String ℚ := do
  let count ← h.uniformCountInRange (-doubleMax) value
  pure (count / h.totalCount)

/-- The sum of a power of the values, with those of a bin at its midpoint. -/
def powerSum (h : Histogram) (n : ℕ) : ℚ :=
  ((List.range h.nbin).map fun b => h.binCount b * h.binValue b ^ n).sum

/-- The skewness with the values of a bin at its midpoint. It is not a number if there is no
variance. -/
def skewness [LibM] (h : Histogram) : Option ℚ :=
  let csum : ℚ := h.totalCount
  let avg_x3 := h.powerSum 3 / csum
  let avg_x2 := h.powerSum 2 / csum
  let avg_x := h.powerSum 1 / csum
  let var := avg_x2 - avg_x * avg_x
  let avg_xmmu_3 := avg_x3 - 3 * avg_x2 * avg_x + 2 * avg_x ^ 3
  if csum ≤ 1 ∨ var = 0 then none
  else some (csum / (csum - 1) * avg_xmmu_3 / LibM.pow var (3 / 2))

end Histogram

end Chimbuko
