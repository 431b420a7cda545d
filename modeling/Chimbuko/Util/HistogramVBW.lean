import Chimbuko.Library.IntervalChain
import Chimbuko.Util.Histogram

/-!
# Variable bin width histograms

The `HistogramVBW` of `core/util/Histogram`: a chain of adjacent bins from which whole counts are
extracted range by range, splitting bins at the edges of the ranges. The linked list of bins is
a list, a pointer into it is an index, and the end marker is the index past the last bin. Counts
are whole numbers held in doubles, hence integers here.
-/

namespace Chimbuko

open IntervalChain

namespace HistogramVBW

/-- A bin with its lower edge `l`, upper edge `u` and count `c`. -/
abbrev Bin := IntervalChain.Bin ℚ ℤ

end HistogramVBW

/-- The chain of bins and the extremes of the data. -/
structure HistogramVBW where
  bins : List HistogramVBW.Bin
  min : ℚ
  max : ℚ
deriving DecidableEq

namespace HistogramVBW

/-- The loop of `getBin`, over the bins from `cur` on. -/
def searchBin : List Bin → ℕ → ℚ → Except String (Option ℕ)
  | [], _, _ => pure none
  | b :: rest, cur, v =>
    if v ≤ b.u then
      if v ≤ b.l then throw "Logic error in bin search" else pure (some cur)
    else searchBin rest (cur + 1) v

/-- The bin that holds a value, searched from `start` on. -/
def getBin (bins : List Bin) (start : ℕ) (v : ℚ) : Except String (Option ℕ) :=
  match bins[start]? with
  | none => pure none
  | some b => if v ≤ b.l then pure none else searchBin (bins.drop start) start v

/-- Insert a bin to the right of another. -/
def insertRight (bins : List Bin) (of : ℕ) (toins : Bin) : Except String (List Bin) :=
  match bins[of]? with
  | none => throw "Cannot insert right of end"
  | some b =>
    if toins.l < b.u ∨ toins.u < b.u then
      throw "Cannot insert because the edges are not properly ordered"
    else pure (bins.insertIdx (of + 1) toins)

/-- The counts on either side of a split point: each fraction of the count is rounded to the
nearest whole number, and what that leaves over or lacks goes to the larger fraction, with
preference to the left. -/
def splitCounts (bin : Bin) (about : ℚ) : ℤ × ℤ :=
  let bw := bin.u - bin.l
  let frac0 := (about - bin.l) / bw
  let frac1 := 1 - frac0
  let o0 := ⌊frac0 * bin.c + 1 / 2⌋
  let o1 := ⌊frac1 * bin.c + 1 / 2⌋
  let debt := bin.c - o0 - o1
  if frac0 < frac1 then (o0, o1 + debt) else (o0 + debt, o1)

/-- Split a bin about a point, giving the bins on either side of it. -/
def split (bins : List Bin) (bin : ℕ) (about : ℚ) : Except String (List Bin × ℕ × ℕ) :=
  match bins[bin]? with
  | none => throw "Invalid bin"
  | some b =>
    if about ≤ b.l ∨ b.u < about then throw "Split location not inside bin"
    else if about = b.u then pure (bins, bin, bin + 1)
    else do
      let bins := bins.set bin { b with u := about, c := (splitCounts b about).1 }
      let bins ← insertRight bins bin { l := about, u := b.u, c := (splitCounts b about).2 }
      pure (bins, bin, bin + 1)

/-- The bins of a fixed bin width histogram. Each bin starts at the upper edge of the one before
it, and the lower edge it would have had must agree with that. -/
def importHistogram (h : Histogram) : Except String HistogramVBW :=
  if h.nbin = 0 then pure { bins := [], min := 0, max := 0 }
  else do
    let be := h.binEdges 0
    let first : Bin := { l := be.1, u := be.2, c := h.binCount 0 }
    let chain ← (List.range' 1 (h.nbin - 1)).foldlM (fun (chain : List Bin × ℚ) b =>
        let be := h.binEdges b
        let prevUpper := chain.2
        let reldiff := 2 * (be.1 - prevUpper) / (be.1 + prevUpper)
        if 1 / 100000000 < |reldiff| then
          throw "Lower bin edge should match upper bin edge of previous bin!"
        else do
          let bins ← insertRight chain.1 (chain.1.length - 1)
            { l := prevUpper, u := be.2, c := h.binCount b }
          pure (bins, be.2))
      ([first], be.2)
    pure { bins := chain.1, min := h.getMin, max := h.getMax }

/-- The sum of all bin counts. -/
def totalCount (h : HistogramVBW) : ℤ := content h.bins

/-- The count of a data set without extent goes to the range that holds its value; the later
ranges are not looked at. -/
def extractDelta (v : ℚ) (count : ℤ) : List (ℚ × ℚ) → Except String (List ℤ × Bool)
  | [] => pure ([], false)
  | (l, u) :: rest =>
    if u ≤ l then throw "Invalid range, require u>l"
    else if l < v ∧ v ≤ u then pure (count :: List.replicate rest.length 0, true)
    else do
      let (out, found) ← extractDelta v count rest
      pure (0 :: out, found)

/-- The first bin of a range with lower edge `l`, after splitting there. None if the range and
all later ones lie right of the histogram. -/
def lowerBin (bins : List Bin) (prevUpper : ℕ) (l : ℚ) :
    Except String (List Bin × Option ℕ) := do
  match ← getBin bins prevUpper l with
  | some bl =>
    let (bins, _, right) ← split bins bl l
    pure (bins, if bins.length ≤ right then none else some right)
  | none =>
    match bins.head?, bins.getLast? with
    | some first, some last =>
      if l ≤ first.l then pure (bins, some 0)
      else if last.u < l then pure (bins, none)
      else throw "assert(0)"
    | _, _ => throw "Histogram is empty"

/-- The last bin of a range with upper edge `u` and first bin `bl`, after splitting there. None
if the range lies left of the histogram. -/
def upperBin (bins : List Bin) (bl : ℕ) (u : ℚ) : Except String (List Bin × Option ℕ) := do
  match ← getBin bins bl u with
  | some bu =>
    let (bins, left, _) ← split bins bu u
    pure (bins, some left)
  | none =>
    match bins.head?, bins.getLast? with
    | some first, some last =>
      if u ≤ first.l then pure (bins, none)
      else if last.u < u then pure (bins, some (bins.length - 1))
      else throw "assert(0)"
    | _, _ => throw "Histogram is empty"

/-- Sum up and zero the counts of the bins from `bl` to `bu`. -/
def drain (bins : List Bin) (bl bu : ℕ) : ℤ × List Bin :=
  let range := (bins.drop bl).take (bu + 1 - bl)
  (content range,
    bins.take bl ++ range.map (fun b => (⟨b.l, b.u, 0⟩ : Bin)) ++ bins.drop (bu + 1))

/-- Extract the whole count in one range. For a data set without extent the bin edges are
ignored. -/
def extractUniformCountInRangeInt (h : HistogramVBW) (l u : ℚ) :
    Except String (ℤ × HistogramVBW) :=
  if u ≤ l then throw "Invalid range, require u>l"
  else if h.bins.length = 0 then throw "Histogram is empty"
  else if h.max = h.min then do
    let v := h.max
    match ← getBin h.bins 0 v with
    | none => throw "undefined: null pointer"
    | some idx =>
      let bin := h.bins.getD idx ⟨0, 0, 0⟩
      if l < v ∧ v ≤ u then pure (bin.c, { h with bins := h.bins.set idx { bin with c := 0 } })
      else pure (0, h)
  else do
    match ← lowerBin h.bins 0 l with
    | (bins, none) => pure (0, { h with bins := bins })
    | (bins, some bl) =>
      match ← upperBin bins bl u with
      | (bins, none) => pure (0, { h with bins := bins })
      | (bins, some bu) =>
        let (count, bins) := drain bins bl bu
        pure (count, { h with bins := bins })

/-- The loop over the ranges; `prevEdge` is the upper edge of the range before. -/
def extractRanges (bins : List Bin) (prevUpper : ℕ) (prevEdge : Option ℚ) :
    List (ℚ × ℚ) → Except String (List ℤ × List Bin)
  | [] => pure ([], bins)
  | (l, u) :: rest =>
    if u ≤ l then throw "Invalid range, require u>l"
    else if prevEdge.any (l < ·) then throw "Expect edges to be ordered"
    else do
      match ← lowerBin bins prevUpper l with
      | (bins, none) => pure (List.replicate (rest.length + 1) 0, bins)
      | (bins, some bl) =>
        match ← upperBin bins bl u with
        | (bins, none) =>
          let (out, bins) ← extractRanges bins prevUpper (some u) rest
          pure (0 :: out, bins)
        | (bins, some bu) =>
          let (count, bins) := drain bins bl bu
          let (out, bins) ← extractRanges bins bu (some u) rest
          pure (count :: out, bins)

/-- Extract the whole count in each of the ranges, which must be in order. For a data set
without extent the bin edges are ignored; such a data set whose bin has no extent either is not
found in any bin, and the null pointer is followed. -/
def extractUniformCountInRangesInt (h : HistogramVBW) (edges : List (ℚ × ℚ)) :
    Except String (List ℤ × HistogramVBW) :=
  if edges.length = 0 then pure ([], h)
  else if h.bins.length = 0 then throw "Histogram is empty"
  else if h.max = h.min then do
    match ← getBin h.bins 0 h.max with
    | none => throw "undefined: null pointer"
    | some idx =>
      let bin := h.bins.getD idx ⟨0, 0, 0⟩
      let (delta, found) ← extractDelta h.max bin.c edges
      let bins := if found then h.bins.set idx { bin with c := 0 } else h.bins
      let (out, bins) ← extractRanges bins 0 none edges
      pure (List.zipWith (· + ·) delta out, { h with bins := bins })
  else do
    let (out, bins) ← extractRanges h.bins 0 none edges
    pure (out, { h with bins := bins })

end HistogramVBW

end Chimbuko
