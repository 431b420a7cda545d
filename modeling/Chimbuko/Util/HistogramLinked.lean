import Chimbuko.Library.LinkedCells
import Chimbuko.Util.HistogramRanges

/-!
# The linked list of a variable bin width histogram

The bins of `HistogramVBW` as they are kept: cells in memory that point to their neighbours, with
an end marker past the last one. Following a null pointer is an error of the model, and so is a
search that does not end. Every operation does with the pointers what the operations on lists of
bins do, with the same results and the same errors.
-/

namespace Chimbuko

open IntervalChain LinkedCells

/-- The cells of the bins, the first one and the end marker, and the extremes of the data. -/
structure LinkedHistogram where
  mem : Memory HistogramVBW.Bin
  first : Option ℕ
  endMarker : Option ℕ
  min : ℚ
  max : ℚ
deriving DecidableEq

namespace LinkedHistogram

open HistogramVBW (Bin splitCounts)

/-- What a pointer points to. -/
def read (mem : Memory Bin) (p : ℕ) : Except String (Cell Bin) :=
  match mem[p]? with
  | some c => pure c
  | none => throw "undefined: invalid pointer"

/-- A pointer that must not be null. -/
def follow : Option ℕ → Except String ℕ
  | some p => pure p
  | none => throw "undefined: null pointer"

/-- A new cell for a bin. -/
def create (mem : Memory Bin) (bin : Bin) : Memory Bin × ℕ :=
  (mem ++ [⟨bin, none, none, false⟩], mem.length)

/-- A new end marker. -/
def createEnd (mem : Memory Bin) : Memory Bin × ℕ :=
  (mem ++ [⟨⟨0, 0, 0⟩, none, none, true⟩], mem.length)

/-- Link a bin in on the right of another one. -/
def insertRight (mem : Memory Bin) (of toins : ℕ) : Except String (Memory Bin) := do
  let o ← read mem of
  let t ← read mem toins
  if o.isEnd then throw "Cannot insert right of end"
  else if t.content.l < o.content.u ∨ t.content.u < o.content.u then
    throw "Cannot insert because the edges are not properly ordered"
  else
    match linkRight mem of toins with
    | some mem => pure mem
    | none => throw "undefined: null pointer"

/-- Link a bin in on the left of another one. -/
def insertLeft (mem : Memory Bin) (of toins : ℕ) : Except String (Memory Bin) := do
  let o ← read mem of
  let t ← read mem toins
  if o.isEnd = false ∧ (o.content.l < t.content.u ∨ o.content.l < t.content.l) then
    throw "Cannot insert because the edges are not properly ordered"
  else
    match linkLeft mem of toins with
    | some mem => pure mem
    | none => throw "undefined: null pointer"

/-- Start a chain: the given cell and a new end marker. -/
def insertFirst (mem : Memory Bin) (toins : ℕ) : Except String (Memory Bin × ℕ × ℕ) := do
  let (mem, e) := createEnd mem
  let mem ← insertLeft mem e toins
  pure (mem, toins, e)

/-- The loop of `getBin`. -/
def search (mem : Memory Bin) (v : ℚ) : ℕ → ℕ → Except String (Option ℕ)
  | 0, _ => throw "undefined: unending loop"
  | fuel + 1, cur => do
    let c ← read mem cur
    if c.isEnd then pure none
    else if v ≤ c.content.u then
      if v ≤ c.content.l then throw "Logic error in bin search" else pure (some cur)
    else do
      let next ← follow c.right
      search mem v fuel next

/-- The bin that holds a value, searched from `start` on. A search visits a cell at most once. -/
def getBin (mem : Memory Bin) (start : ℕ) (v : ℚ) : Except String (Option ℕ) := do
  let s ← read mem start
  if s.isEnd ∨ v ≤ s.content.l then pure none else search mem v (mem.length + 1) start

/-- Split a bin about a point, giving the bins on either side of it. -/
def split (mem : Memory Bin) (bin : ℕ) (about : ℚ) : Except String (Memory Bin × ℕ × ℕ) := do
  let b ← read mem bin
  if b.isEnd then throw "Invalid bin"
  else if about ≤ b.content.l ∨ b.content.u < about then throw "Split location not inside bin"
  else if about = b.content.u then do
    let right ← follow b.right
    pure (mem, bin, right)
  else do
    let o := splitCounts b.content about
    let prev := b.content.u
    let mem := mem.modify bin fun c => { c with content := ⟨b.content.l, about, o.1⟩ }
    let (mem, new) := create mem ⟨about, prev, o.2⟩
    let mem ← insertRight mem bin new
    let b ← read mem bin
    let right ← follow b.right
    pure (mem, bin, right)

/-- The linked list of a fixed bin width histogram. -/
def importHistogram (h : Histogram) : Except String LinkedHistogram :=
  if h.nbin = 0 then pure { mem := [], first := none, endMarker := none, min := 0, max := 0 }
  else do
    let be := h.binEdges 0
    let (mem, p) := create [] ⟨be.1, be.2, h.binCount 0⟩
    let (mem, first, e) ← insertFirst mem p
    let chain ← (List.range' 1 (h.nbin - 1)).foldlM
      (fun (chain : Memory Bin × ℕ × ℚ) b =>
        let be := h.binEdges b
        let prevUpper := chain.2.2
        let reldiff := 2 * (be.1 - prevUpper) / (be.1 + prevUpper)
        if 1 / 100000000 < |reldiff| then
          throw "Lower bin edge should match upper bin edge of previous bin!"
        else do
          let (mem, new) := create chain.1 ⟨prevUpper, be.2, h.binCount b⟩
          let mem ← insertRight mem chain.2.1 new
          pure (mem, new, be.2))
      (mem, first, be.2)
    pure { mem := chain.1, first := some first, endMarker := some e
           min := h.getMin, max := h.getMax }

/-- The bin left of the end marker. -/
def lastBin (mem : Memory Bin) (e : ℕ) : Except String (ℕ × Cell Bin) := do
  let marker ← read mem e
  let last ← follow marker.left
  let c ← read mem last
  pure (last, c)

/-- The first bin of a range with lower edge `l`, after splitting there. None if the range lies
right of the histogram. -/
def lowerBin (mem : Memory Bin) (first e : ℕ) (l : ℚ) :
    Except String (Memory Bin × Option ℕ) := do
  match ← getBin mem first l with
  | some bl =>
    let (mem, _, right) ← split mem bl l
    let r ← read mem right
    pure (mem, if r.isEnd then none else some right)
  | none =>
    let f ← read mem first
    let (_, last) ← lastBin mem e
    if l ≤ f.content.l then pure (mem, some first)
    else if last.content.u < l then pure (mem, none)
    else throw "assert(0)"

/-- The last bin of a range with upper edge `u` and first bin `bl`, after splitting there. None
if the range lies left of the histogram. -/
def upperBin (mem : Memory Bin) (first e bl : ℕ) (u : ℚ) :
    Except String (Memory Bin × Option ℕ) := do
  match ← getBin mem bl u with
  | some bu =>
    let (mem, left, _) ← split mem bu u
    pure (mem, some left)
  | none =>
    let f ← read mem first
    let (p, last) ← lastBin mem e
    if u ≤ f.content.l then pure (mem, none)
    else if last.content.u < u then pure (mem, some p)
    else throw "assert(0)"

/-- Sum up and zero the counts of the bins from `h` to `bu`. -/
def drain (bu : ℕ) : ℕ → Memory Bin → ℕ → Except String (ℤ × Memory Bin)
  | 0, _, _ => throw "undefined: unending loop"
  | fuel + 1, mem, h => do
    let c ← read mem h
    let mem := mem.modify h fun d => { d with content := ⟨c.content.l, c.content.u, 0⟩ }
    if h = bu then pure (c.content.c, mem)
    else do
      let next ← follow c.right
      let (out, mem) ← drain bu fuel mem next
      pure (c.content.c + out, mem)

/-- Extract the whole count in one range. For a data set without extent the bin edges are
ignored. -/
def extractUniformCountInRangeInt (h : LinkedHistogram) (l u : ℚ) :
    Except String (ℤ × LinkedHistogram) :=
  if u ≤ l then throw "Invalid range, require u>l"
  else
    match h.first, h.endMarker with
    | some first, some e =>
      if h.max = h.min then do
        let v := h.max
        match ← getBin h.mem first v with
        | none => throw "undefined: null pointer"
        | some bin =>
          let b ← read h.mem bin
          if l < v ∧ v ≤ u then
            let mem := h.mem.modify bin fun d =>
              { d with content := ⟨b.content.l, b.content.u, 0⟩ }
            pure (b.content.c, { h with mem := mem })
          else pure (0, h)
      else do
        match ← lowerBin h.mem first e l with
        | (mem, none) => pure (0, { h with mem := mem })
        | (mem, some bl) =>
          match ← upperBin mem first e bl u with
          | (mem, none) => pure (0, { h with mem := mem })
          | (mem, some bu) =>
            let (count, mem) ← drain bu (mem.length + 1) mem bl
            pure (count, { h with mem := mem })
    | _, _ => throw "Histogram is empty"

/-- The loop of `totalCount`. -/
def sumFrom (mem : Memory Bin) : ℕ → ℕ → Except String ℤ
  | 0, _ => throw "undefined: unending loop"
  | fuel + 1, cur => do
    let c ← read mem cur
    if c.isEnd then pure 0
    else do
      let next ← follow c.right
      let out ← sumFrom mem fuel next
      pure (c.content.c + out)

/-- The sum of all bin counts. -/
def totalCount (h : LinkedHistogram) : Except String ℤ :=
  match h.first with
  | none => pure 0
  | some first => sumFrom h.mem (h.mem.length + 1) first

/-- The linked list holds the bins of a histogram. -/
def Views (s : LinkedHistogram) (h : HistogramVBW) : Prop :=
  s.min = h.min ∧ s.max = h.max ∧
    ((s.first = none ∧ s.endMarker = none ∧ h.bins = []) ∨
      ∃ e cells, cells ≠ [] ∧ s.first = some (address e cells 0) ∧ s.endMarker = some e ∧
        Represents s.mem e cells ∧ cells.map Prod.snd = h.bins)

end LinkedHistogram

end Chimbuko
