import Chimbuko.Util.HistogramProduced
import Chimbuko.Util.HistogramTransfer

/-!
# When merging histograms loses no data

The new first edge is placed relative to the new bin width, the inputs' relative to theirs, so it
may fall inside an input's first bin. What the split there rounds to the left of the new edge is
not counted, and only an error message reports it. Nothing else is lost.
-/

namespace Chimbuko

namespace Histogram

open IntervalChain HistogramVBW

/-- A histogram that the class produces. -/
inductive Produced : Histogram → Prop
  | empty : Produced Histogram.empty
  | createHistogram {rTimes : List ℚ} {bwspec : BinWidthSpecifier} {h : Histogram} :
      createHistogram rTimes bwspec = .ok h → Produced h
  | createHistogramIn {data : List ℚ} {min max start binWidth : ℚ} {nbin : ℤ} {h : Histogram} :
      min ≤ max → createHistogramIn data min max start nbin binWidth = .ok h → Produced h
  | setHistogram {counts : List ℕ} {min max start binWidth : ℚ} {h : Histogram} :
      setHistogram counts min max start binWidth = .ok h → Produced h
  | mergeHistograms {g l : Histogram} {bwspec : BinWidthSpecifier} {h : Histogram} :
      Produced g → Produced l → mergeHistograms g l bwspec = .ok h → Produced h
  | negate {h : Histogram} : Produced h → Produced h.negate

/-- The bin width of a merger: the suggested one, or the smaller of the inputs' if that makes too
many bins; neither makes too many. -/
theorem mergedBinWidth_cases {g l : Histogram} {bwspec : BinWidthSpecifier} {min max w : ℚ}
    (h : mergedBinWidth g l bwspec min max = .ok w) :
    w ≠ 0 ∧ (⌈(max - min) / w⌉ : ℚ) ≤ maxMergedBins ∧
      ∃ w', bwspec.binWidthMerge g l min max = .ok w' ∧ 0 ≤ w' ∧
        (w = w' ∨ (w' = 0 ∨ maxMergedBins < ⌈(max - min) / w'⌉) ∧
          w = Min.min g.binWidth l.binWidth) := by
  cases hspec : bwspec.binWidthMerge g l min max with
  | error e =>
    rw [mergedBinWidth, hspec] at h
    cases h
  | ok w' =>
    rw [mergedBinWidth, hspec] at h
    change (if w' < 0 then _ else if _ then _ else pure w') = _ at h
    split at h
    · cases h
    rename_i hneg
    split at h
    · rename_i hmany
      simp only at h
      split at h
      · cases h
      · rename_i hfew
        cases h
        push Not at hneg hfew
        exact ⟨hfew.1, hfew.2, w', rfl, hneg, Or.inr ⟨hmany, rfl⟩⟩
    · rename_i hfew
      cases h
      push Not at hneg hfew
      exact ⟨hfew.1, hfew.2, w, rfl, hneg, Or.inl rfl⟩

/-- The bin width of a merger of valid histograms is positive. -/
theorem mergedBinWidth_pos {g l : Histogram} (hg : g.Valid) (hl : l.Valid)
    {bwspec : BinWidthSpecifier} {min max w : ℚ}
    (h : mergedBinWidth g l bwspec min max = .ok w) : 0 < w := by
  have hwidth : ∀ {h : Histogram}, h.Valid → 0 ≤ h.binWidth := fun hv =>
    hv.extent.elim (fun he => he.1.le) fun hp => hp.1.ge
  obtain ⟨hne, -, w', -, hw', hcases⟩ := mergedBinWidth_cases h
  apply lt_of_le_of_ne _ hne.symm
  cases hcases with
  | inl heq => exact heq ▸ hw'
  | inr hsmaller => exact hsmaller.2 ▸ le_min (hwidth hg) (hwidth hl)

/-- The range of a merger is not reversed and holds the ranges of both inputs. -/
theorem mergedMin_le_mergedMax {g l : Histogram} (hg : g.Valid) :
    mergedMin g l ≤ mergedMax g l :=
  (min_le_right _ _).trans (hg.min_le_max.trans (le_max_right _ _))

/-- Merging valid histograms fills the adjusted bins for the range of both. -/
theorem mergeNonEmpty_eq {g l : Histogram} (hg : g.Valid) (hl : l.Valid)
    (bwspec : BinWidthSpecifier) :
    mergeNonEmpty g l bwspec = (do
      let w ← mergedBinWidth g l bwspec (mergedMin g l) (mergedMax g l)
      mergeHistogramsUniformInt (adjustedBins (mergedMin g l) (mergedMax g l) w) g l) := by
  have hle : mergedMin g l ≤ mergedMax g l := mergedMin_le_mergedMax hg
  have hlinit : ¬(l.min = ⊤ ∨ l.max = ⊥) := by
    rw [hl.min_eq, hl.max_eq]
    simp
  have hginit : ¬(g.min = ⊤ ∨ g.max = ⊥) := by
    rw [hg.min_eq, hg.max_eq]
    simp
  rw [mergeNonEmpty, if_neg hlinit, if_neg hginit]
  simp only [if_neg (not_lt_of_ge hle)]
  cases hw : mergedBinWidth g l bwspec (mergedMin g l) (mergedMax g l) with
  | error e => rfl
  | ok w =>
    have hpos := mergedBinWidth_pos hg hl hw
    obtain ⟨hn, -⟩ := adjusted_bins hpos hle
    have hstart : mergedRangeStart w (mergedMin g l) (mergedMax g l) =
        .ok (w, mergedMin g l - getLowerBoundShiftMul * w) := by
      have hshift : 0 < getLowerBoundShiftMul * w :=
        mul_pos (by norm_num [getLowerBoundShiftMul]) hpos
      have hne : mergedMin g l - getLowerBoundShiftMul * w ≠ mergedMax g l := by
        intro heq
        linarith
      simp only [mergedRangeStart, if_neg hne]
      rfl
    change (mergedRangeStart w (mergedMin g l) (mergedMax g l) >>= _) = _
    rw [hstart]
    change (if ⌈(mergedMax g l - (mergedMin g l - getLowerBoundShiftMul * w)) / w⌉ < 0 then _
      else if ⌈(mergedMax g l - (mergedMin g l - getLowerBoundShiftMul * w)) / w⌉ = 0 then _
      else _) = _
    rw [if_neg (not_lt_of_gt hn), if_neg hn.ne']
    rfl

/-- The edges that a merger extracts over are the ranges between the bins' upper edges. -/
theorem chainedEdges_eq {h : Histogram} (hpos : 0 < h.nbin) (he : h.Extended) :
    h.chainedEdges = ranges h.start (h.bins.map IntervalChain.Bin.u) := by
  rw [(linked_bins hpos he).1.ranges_eq, bins, List.map_map, chainedEdges]
  refine List.map_congr_left fun b hb => ?_
  have hlt := List.mem_range.mp hb
  by_cases hb0 : 0 < b
  · rw [if_pos hb0]
    have hprev := binEdges_snd_eq_lower h (show b - 1 + 1 ≠ h.nbin by omega)
    rw [Nat.sub_add_cancel hb0] at hprev
    rw [hprev]
    rfl
  · rw [if_neg hb0]
    rfl

/-- Counts that are nonnegative whole numbers add up as such. -/
private theorem zipWith_toNat_sum {gc lc : List ℤ} (hlength : gc.length = lc.length)
    (hg : ∀ x ∈ gc, 0 ≤ x) (hl : ∀ x ∈ lc, 0 ≤ x) :
    (((List.zipWith (fun gcc lcc => lcc.toNat + gcc.toNat) gc lc).sum : ℕ) : ℤ) =
      gc.sum + lc.sum := by
  induction gc generalizing lc with
  | nil =>
    cases lc with
    | nil => rfl
    | cons y ys => cases hlength
  | cons x xs ih =>
    cases lc with
    | nil => cases hlength
    | cons y ys =>
      rw [List.forall_mem_cons] at hg hl
      rw [List.zipWith_cons_cons, List.sum_cons, List.sum_cons, List.sum_cons, Nat.cast_add,
        Nat.cast_add, ih (Nat.succ.inj hlength) hg.2 hl.2, Int.toNat_of_nonneg hg.1,
        Int.toNat_of_nonneg hl.1]
      ring

/-- Adding to zeros changes nothing. -/
private theorem zipWith_replicate_zero (counts : List ℕ) {n : ℕ} (h : counts.length = n) :
    List.zipWith (· + ·) (List.replicate n 0) counts = counts := by
  subst h
  induction counts with
  | nil => rfl
  | cons c rest ih =>
    rw [List.length_cons, List.replicate_succ, List.zipWith_cons_cons, ih, zero_add]

/-- Filling the adjusted bins for a range that covers two histograms with extent transfers their
counts, except for what lies left of the new first edge. -/
theorem mergeHistogramsUniformInt_ok {g l : Histogram} (hg : g.Valid) (hl : l.Valid)
    (hge : g.Extended) (hle : l.Extended) {min max w : ℚ} (hw : 0 < w) (hmin : min ≤ max)
    (hgmin : min ≤ g.getMin) (hlmin : min ≤ l.getMin) (hgmax : g.getMax ≤ max)
    (hlmax : l.getMax ≤ max) :
    let edge := min - getLowerBoundShiftMul * w
    ∃ merged, mergeHistogramsUniformInt (adjustedBins min max w) g l = .ok merged ∧
      merged.combined.nbin = (adjustedBins min max w).nbin ∧
      merged.combined.start = edge ∧
      merged.combined.binWidth = (adjustedBins min max w).binWidth ∧
      merged.combined.min = min ∧ merged.combined.max = max ∧
      merged.gw.totalCount = g.lost edge ∧ merged.lw.totalCount = l.lost edge ∧
      (merged.combined.totalCount : ℤ) + g.lost edge + l.lost edge =
        g.totalCount + l.totalCount := by
  intro edge
  have hshift : 0 < getLowerBoundShiftMul * w := mul_pos (by norm_num [getLowerBoundShiftMul]) hw
  have hedge : edge < min := sub_lt_self min hshift
  have hvalid := valid_adjustedBins hw hmin
  have hext : (adjustedBins min max w).Extended := by
    refine hvalid.extent.resolve_right fun hpoint => ?_
    have hwidth := (adjusted_bins hw hmin).2.1
    exact hwidth.ne' hpoint.1
  obtain ⟨hlinked, hend⟩ := linked_bins hvalid.nbin_pos hext
  obtain ⟨points, hpoints⟩ :=
    map_upper_eq_concat (adjustedBins min max w).start (bins_ne_nil hvalid.nbin_pos)
  have hmaxEq : (adjustedBins min max w).getMax = max := rfl
  have hasc : Ascending edge (points ++ [max]) := by
    have := hlinked.ascending
    rwa [hpoints, hend, hmaxEq] at this
  have hedges : (adjustedBins min max w).chainedEdges = ranges edge (points ++ [max]) := by
    rw [chainedEdges_eq hvalid.nbin_pos hext, hpoints, hend, hmaxEq]
    rfl
  have hcount : points.length + 1 = (adjustedBins min max w).nbin := by
    have := congrArg List.length hpoints
    rw [List.length_map, bins_length, List.length_append] at this
    exact this.symm
  obtain ⟨gvbw, gc, gw, hgimport, hgrun, hglength, hgnonneg, hgleft, hgsum⟩ :=
    extract_ok hg hge hasc (hedge.trans_le hgmin) hgmax
  obtain ⟨lvbw, lc, lw, hlimport, hlrun, hllength, hlnonneg, hlleft, hlsum⟩ :=
    extract_ok hl hle hasc (hedge.trans_le hlmin) hlmax
  let vals := List.zipWith (fun gcc lcc => lcc.toNat + gcc.toNat) gc lc
  have hvals : vals.length = (adjustedBins min max w).nbin := by
    rw [List.length_zipWith, hglength, hllength, min_self, hcount]
  have hcounts : List.zipWith (· + ·) (adjustedBins min max w).counts vals = vals :=
    zipWith_replicate_zero vals (by rw [hvals, nbin, adjustedBins, List.length_replicate])
  refine ⟨{ combined := { adjustedBins min max w with counts := vals }, gw := gw, lw := lw },
    ?_, hvals, rfl, rfl, rfl, rfl, hgleft, hlleft, ?_⟩
  · rw [mergeHistogramsUniformInt, hgimport, hlimport, hedges]
    change (extractUniformCountInRangesInt gvbw (ranges edge (points ++ [max])) >>= _) = _
    rw [hgrun]
    change (extractUniformCountInRangesInt lvbw (ranges edge (points ++ [max])) >>= _) = _
    rw [hlrun]
    change Except.ok ({ combined := { adjustedBins min max w with
      counts := List.zipWith (· + ·) (adjustedBins min max w).counts vals }, gw := gw, lw := lw } :
        Merged) = _
    rw [hcounts]
  · have hsum : ((vals.sum : ℕ) : ℤ) = gc.sum + lc.sum :=
      zipWith_toNat_sum (hglength.trans hllength.symm) hgnonneg hlnonneg
    rw [totalCount, hsum, ← hgsum, ← hlsum]
    ring

/-- Only histograms with extent can be merged: the null pointer that stands for a missing bin is
followed otherwise. -/
theorem mergeHistogramsUniformInt_extended {combined g l : Histogram} (hg : g.Valid)
    (hl : l.Valid) (hedges : combined.chainedEdges ≠ []) {merged : Merged}
    (hrun : mergeHistogramsUniformInt combined g l = .ok merged) : g.Extended ∧ l.Extended := by
  rw [mergeHistogramsUniformInt] at hrun
  cases hgimport : importHistogram g with
  | error e =>
    rw [hgimport] at hrun
    cases hrun
  | ok gvbw =>
    cases hlimport : importHistogram l with
    | error e =>
      rw [hgimport, hlimport] at hrun
      cases hrun
    | ok lvbw =>
      rw [hgimport, hlimport] at hrun
      change (extractUniformCountInRangesInt gvbw combined.chainedEdges >>= _) = _ at hrun
      cases hgrun : extractUniformCountInRangesInt gvbw combined.chainedEdges with
      | error e =>
        rw [hgrun] at hrun
        cases hrun
      | ok gout =>
        rw [hgrun] at hrun
        change (extractUniformCountInRangesInt lvbw combined.chainedEdges >>= _) = _ at hrun
        refine ⟨hg.extent.resolve_right fun hpoint => ?_,
          hl.extent.resolve_right fun hpoint => ?_⟩
        · obtain ⟨message, herror⟩ := extract_point hg hpoint hedges hgimport
          rw [hgrun] at herror
          cases herror
        · obtain ⟨message, herror⟩ := extract_point hl hpoint hedges hlimport
          rw [herror] at hrun
          cases hrun

/-- What merging two valid histograms yields: the range of both, and their counts except for
what lies left of the new first edge. -/
theorem mergeNonEmpty_ok {g l : Histogram} (hg : g.Valid) (hl : l.Valid)
    {bwspec : BinWidthSpecifier} {merged : Merged}
    (hrun : mergeNonEmpty g l bwspec = .ok merged) :
    ∃ w, mergedBinWidth g l bwspec (mergedMin g l) (mergedMax g l) = .ok w ∧
      merged.combined.Adjusted (mergedMin g l) (mergedMax g l) w ∧
      merged.gw.totalCount = g.lost (mergedMin g l - getLowerBoundShiftMul * w) ∧
      merged.lw.totalCount = l.lost (mergedMin g l - getLowerBoundShiftMul * w) ∧
      (merged.combined.totalCount : ℤ) + g.lost (mergedMin g l - getLowerBoundShiftMul * w) +
        l.lost (mergedMin g l - getLowerBoundShiftMul * w) = g.totalCount + l.totalCount := by
  rw [mergeNonEmpty_eq hg hl] at hrun
  cases hw : mergedBinWidth g l bwspec (mergedMin g l) (mergedMax g l) with
  | error e =>
    rw [hw] at hrun
    cases hrun
  | ok w =>
    rw [hw] at hrun
    change mergeHistogramsUniformInt (adjustedBins (mergedMin g l) (mergedMax g l) w) g l = _
      at hrun
    have hpos := mergedBinWidth_pos hg hl hw
    have hle : mergedMin g l ≤ mergedMax g l := mergedMin_le_mergedMax hg
    have hvalid := valid_adjustedBins hpos hle
    have hedges : (adjustedBins (mergedMin g l) (mergedMax g l) w).chainedEdges ≠ [] := by
      refine List.ne_nil_of_length_pos ?_
      rw [chainedEdges, List.length_map, List.length_range]
      exact hvalid.nbin_pos
    obtain ⟨hge, hle'⟩ := mergeHistogramsUniformInt_extended hg hl hedges hrun
    obtain ⟨merged', hrun', hnbin, hstart, hwidth, hmin, hmax, hgw, hlw, htotal⟩ :=
      mergeHistogramsUniformInt_ok hg hl hge hle' hpos hle (min_le_right _ _) (min_le_left _ _)
        (le_max_right _ _) (le_max_left _ _)
    obtain rfl := Except.ok.inj (hrun'.symm.trans hrun)
    exact ⟨w, rfl, ⟨hpos, hnbin, hstart, hwidth, hmin, hmax⟩, hgw, hlw, htotal⟩

/-- The extremes are as far apart as all bins but the first, less the shift of a first edge. -/
def Wide (h : Histogram) : Prop :=
  0 < h.binWidth → (h.nbin - 1 - getLowerBoundShiftMul) * h.binWidth < h.getMax - h.getMin

/-- The extremes are far enough apart if the smallest value lies in the first bin and the bins end
at the largest value. -/
theorem wide_of_edges {h : Histogram} {lo hi : ℚ} (hmin : h.min = lo) (hmax : h.max = hi)
    (hfirst : lo ≤ h.start + h.binWidth)
    (hend : |h.start + h.nbin * h.binWidth - hi| ≤ 1 / 100000000 * h.binWidth) : h.Wide := by
  intro hw
  have hlo : h.getMin = lo := by rw [getMin, hmin]; rfl
  have hhi : h.getMax = hi := by rw [getMax, hmax]; rfl
  have hupper := (abs_le.mp hend).2
  rw [hlo, hhi, getLowerBoundShiftMul]
  linarith

/-- Adjusted bins have extremes far enough apart. -/
theorem Adjusted.wide {h : Histogram} {min max w : ℚ} (hh : h.Adjusted min max w)
    (hle : min ≤ max) : h.Wide := by
  have hw := hh.width_pos
  obtain ⟨-, hwidth, -, hfirst⟩ := adjusted_bins hw hle
  apply wide_of_edges hh.min_eq hh.max_eq
  · rw [hh.start_eq, hh.binWidth_eq]
    exact hfirst
  · rw [hh.nbin_eq, hh.start_eq, hh.binWidth_eq, adjustedBins_end hw hle, sub_self, abs_zero]
    exact mul_nonneg (by norm_num) hwidth.le

/-- A bin for one value is wide. -/
theorem wide_deltaBin (value : ℚ) (count : ℕ) : (deltaBin value count).Wide := by
  have hw := deltaBin_width_pos value count
  have hend : (deltaBin value count).start + (deltaBin value count).binWidth = value := by
    simp [deltaBin]
  have hone : ((deltaBin value count).nbin : ℚ) = 1 := by simp [deltaBin, nbin]
  have hmin : (deltaBin value count).min = value := rfl
  have hmax : (deltaBin value count).max = value := rfl
  apply wide_of_edges hmin hmax hend.ge
  rw [hone, one_mul, hend, sub_self, abs_zero]
  exact mul_nonneg (by norm_num) hw.le

/-- Negation keeps the distance of the extremes and the bins' number and width. -/
theorem Wide.negate {h : Histogram} (hh : h.Wide) : h.negate.Wide := by
  intro hw
  have hwide := hh hw
  rw [negate_nbin]
  change (h.nbin - 1 - getLowerBoundShiftMul) * h.binWidth < -h.getMin - -h.getMax
  linarith

/-- The negation of a valid histogram whose extremes are far enough apart is valid. -/
theorem Valid.negate {h : Histogram} (hv : h.Valid) (hwide : h.Wide) : h.negate.Valid := by
  have hw : 0 ≤ h.binWidth := hv.extent.elim (fun he => he.1.le) fun hp => hp.1.ge
  have hstart : h.negate.start ≤ -h.getMax := by
    change -h.getMax - getLowerBoundShiftMul * h.binWidth ≤ -h.getMax
    rw [getLowerBoundShiftMul]
    linarith
  have hpos : 0 < h.negate.nbin := by
    rw [negate_nbin]
    exact hv.nbin_pos
  have hle : -h.getMax ≤ -h.getMin := neg_le_neg hv.min_le_max
  refine ⟨hpos, rfl, rfl, hstart, hle, ?_, ?_⟩
  · by_cases hone : 0 + 1 = h.negate.nbin
    · rw [binEdges_snd_last _ hone]
      exact hle
    · rw [binEdges_snd_eq_lower _ hone]
      change -h.getMax ≤ -h.getMax - getLowerBoundShiftMul * h.binWidth + (0 + 1 : ℕ) * h.binWidth
      rw [getLowerBoundShiftMul]
      push_cast
      linarith
  · cases hv.extent with
    | inl hext =>
      refine Or.inl ⟨hext.1, ?_⟩
      have hcast : ((h.nbin - 1 : ℕ) : ℚ) = h.nbin - 1 := by
        rw [Nat.cast_sub hv.nbin_pos, Nat.cast_one]
      have hspan := hwide hext.1
      rw [binEdgeLower, negate_nbin, hcast]
      change -h.getMax - getLowerBoundShiftMul * h.binWidth + (h.nbin - 1) * h.binWidth <
        -h.getMin
      linarith
    | inr hpoint =>
      refine Or.inr ⟨hpoint.1, ?_⟩
      -- the extremes lie between the first edge and the largest value, which coincide
      have hsame : h.getMin = h.getMax :=
        le_antisymm hv.min_le_max (hpoint.2.trans_le hv.start_le_min)
      change -h.getMin = -h.getMax - getLowerBoundShiftMul * h.binWidth
      rw [hpoint.1, hsame]
      ring

/-- Every histogram that the class produces is valid, if it has bins, and has extremes far enough
apart for its negation to be valid. -/
private theorem Produced.valid_and_wide {h : Histogram} (hh : Produced h) (hpos : 0 < h.nbin) :
    h.Valid ∧ h.Wide := by
  induction hh with
  | empty => exact absurd hpos (lt_irrefl 0)
  | createHistogram hrun =>
    refine ⟨createHistogram_valid hrun, ?_⟩
    obtain ⟨lo, hi, -, hcases⟩ := createHistogram_cases hrun
    cases hcases with
    | inl hdelta =>
      obtain ⟨-, rfl⟩ := hdelta
      exact wide_deltaBin lo _
    | inr hfill =>
      obtain ⟨hlt, w, -, hfill⟩ := hfill
      exact (fillHistogram_adjusted hfill).1.wide hlt.le
  | createHistogramIn hle hrun =>
    refine ⟨createHistogramIn_valid hle hrun, ?_⟩
    obtain ⟨-, -, -, hfirst, hend, rfl, rfl, hmin, hmax⟩ := createHistogramIn_edges hrun
    exact wide_of_edges hmin hmax hfirst hend
  | setHistogram hrun =>
    refine ⟨setHistogram_valid hrun hpos, ?_⟩
    obtain ⟨-, -, hfirst, hend, rfl, rfl, hmin, hmax⟩ := setHistogram_edges hrun
    exact wide_of_edges hmin hmax hfirst hend
  | mergeHistograms hg hl hrun ihg ihl =>
    rename_i g l bwspec h
    rw [Histogram.mergeHistograms] at hrun
    split at hrun
    · cases hrun
      exact ihl hpos
    split at hrun
    · cases hrun
      exact ihg hpos
    rename_i hgn hln
    cases hmerge : mergeNonEmpty g l bwspec with
    | error e =>
      rw [hmerge] at hrun
      cases hrun
    | ok merged =>
      rw [hmerge] at hrun
      cases hrun
      have hgv := (ihg (Nat.pos_of_ne_zero hgn)).1
      obtain ⟨w, -, hadj, -⟩ := mergeNonEmpty_ok hgv (ihl (Nat.pos_of_ne_zero hln)).1 hmerge
      exact ⟨hadj.valid (mergedMin_le_mergedMax hgv), hadj.wide (mergedMin_le_mergedMax hgv)⟩
  | negate hh ih =>
    rw [negate_nbin] at hpos
    obtain ⟨hv, hwide⟩ := ih hpos
    exact ⟨hv.negate hwide, hwide.negate⟩

/-- Every histogram that the class produces is valid, if it has bins. -/
theorem Produced.valid {h : Histogram} (hh : Produced h) (hpos : 0 < h.nbin) : h.Valid :=
  (hh.valid_and_wide hpos).1

/-- What is left of a new first edge is a nonnegative count. -/
theorem lost_nonneg (h : Histogram) (edge : ℚ) : 0 ≤ h.lost edge := by
  rw [lost]
  split
  · exact le_rfl
  · exact content_nonneg
      (cut_forall (fun b v => splitCounts_nonneg) edge h.bins_nonneg).1

/-- A merger of histograms with bins that returns keeps all counts and leaves nothing behind
exactly when its first edge takes nothing off the first bin of either input. The range it
records is the range of both in any case. -/
theorem merge_conserves_iff {g l : Histogram} (hg : Produced g) (hl : Produced l)
    (hgn : 0 < g.nbin) (hln : 0 < l.nbin) {bwspec : BinWidthSpecifier} {w : ℚ}
    (hw : mergedBinWidth g l bwspec (mergedMin g l) (mergedMax g l) = .ok w) {merged : Merged}
    (hrun : mergeNonEmpty g l bwspec = .ok merged) :
    mergeHistograms g l bwspec = .ok merged.combined ∧
      (merged.combined.totalCount = g.totalCount + l.totalCount ∧
          merged.combined.min = Min.min g.getMin l.getMin ∧
          merged.combined.max = Max.max g.getMax l.getMax ∧
          merged.gw.totalCount = 0 ∧ merged.lw.totalCount = 0 ↔
        g.KeepsFirstBin (mergedMin g l - getLowerBoundShiftMul * w) ∧
          l.KeepsFirstBin (mergedMin g l - getLowerBoundShiftMul * w)) := by
  have hgv := hg.valid hgn
  have hlv := hl.valid hln
  obtain ⟨w', hw', hadj, hgw, hlw, htotal⟩ := mergeNonEmpty_ok hgv hlv hrun
  obtain rfl := Except.ok.inj (hw'.symm.trans hw)
  have hpos := hadj.width_pos
  have hedge : mergedMin g l - getLowerBoundShiftMul * w' < mergedMin g l :=
    sub_lt_self _ (mul_pos (by norm_num [getLowerBoundShiftMul]) hpos)
  rw [← lost_eq_zero_iff hgv (hedge.trans_le (min_le_right _ _)),
    ← lost_eq_zero_iff hlv (hedge.trans_le (min_le_left _ _)), hgw, hlw]
  refine ⟨?_, fun h => h.2.2.2, fun h => ⟨?_, ?_, ?_, h⟩⟩
  · rw [mergeHistograms, if_neg hgn.ne', if_neg hln.ne', hrun]
    rfl
  · rw [h.1, h.2] at htotal
    have : (merged.combined.totalCount : ℤ) = ((g.totalCount + l.totalCount : ℕ) : ℤ) := by
      push_cast
      linarith
    exact_mod_cast this
  · rw [hadj.min_eq, mergedMin, min_comm, WithTop.coe_min]
  · rw [hadj.max_eq, mergedMax, max_comm, WithBot.coe_max]

/-- Adjacent data whose first bins start at their smallest values merge without loss. -/
theorem merge_conserves_adjacent :
    ∃ g l merged, setHistogram [3] 1 2 1 1 = .ok g ∧ setHistogram [2] 2 3 2 1 = .ok l ∧
      mergeHistograms g l (binWidthFixed 1) = .ok merged ∧ merged.totalCount = 5 := by
  let g : Histogram := { counts := [3], start := 1, binWidth := 1, min := 1, max := 2 }
  let l : Histogram := { counts := [2], start := 2, binWidth := 1, min := 2, max := 3 }
  have hg : setHistogram [3] 1 2 1 1 = .ok g := by decide +kernel
  have hl : setHistogram [2] 2 3 2 1 = .ok l := by decide +kernel
  have hw : mergedBinWidth g l (binWidthFixed 1) (mergedMin g l) (mergedMax g l) = .ok 1 := by
    decide +kernel
  have hstart : mergedMin g l - getLowerBoundShiftMul * 1 ≤ g.start ∧
      mergedMin g l - getLowerBoundShiftMul * 1 ≤ l.start := by decide +kernel
  have hmerge : ∃ merged ∈ (mergeNonEmpty g l (binWidthFixed 1)).toOption,
      merged.gw.totalCount = 0 := by decide +kernel
  obtain ⟨merged, hmem, -⟩ := hmerge
  have hrun : mergeNonEmpty g l (binWidthFixed 1) = .ok merged := by
    cases h : mergeNonEmpty g l (binWidthFixed 1) with
    | error e =>
      rw [h] at hmem
      cases hmem
    | ok m =>
      rw [h] at hmem
      exact congrArg Except.ok (Option.some.inj hmem)
  obtain ⟨hresult, hiff⟩ := merge_conserves_iff (.setHistogram hg) (.setHistogram hl)
    Nat.one_pos Nat.one_pos hw hrun
  exact ⟨g, l, merged.combined, hg, hl, hresult,
    (hiff.mpr ⟨Or.inr (Or.inl hstart.1), Or.inr (Or.inl hstart.2)⟩).1⟩

/-- Two values near the upper edge of a wide first bin are lost when the merged histogram starts
inside that bin. -/
theorem merge_loses_first_bin :
    ∃ g l, setHistogram [2, 0] 1 2 0 1 = .ok g ∧ setHistogram [1] 2 2 1 1 = .ok l ∧
      ∃ merged ∈ (mergeNonEmpty g l (binWidthFixedNbin 1)).toOption,
        mergeHistograms g l (binWidthFixedNbin 1) = .ok merged.combined ∧
        merged.combined.totalCount ≠ g.totalCount + l.totalCount ∧ merged.gw.totalCount ≠ 0 := by
  let g : Histogram := { counts := [2, 0], start := 0, binWidth := 1, min := 1, max := 2 }
  let l : Histogram := { counts := [1], start := 1, binWidth := 1, min := 2, max := 2 }
  exact ⟨g, l, by decide +kernel, by decide +kernel, by decide +kernel⟩

end Histogram

end Chimbuko
