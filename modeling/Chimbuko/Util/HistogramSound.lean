import Chimbuko.Util.HistogramBins
import Chimbuko.Util.HistogramFixedNbin

/-!
# The representation invariant

What `set_histogram` checks, with bins that have extent: the smallest value lies in the first bin,
and the bins end at the largest value up to a small mismatch. Creating and merging histograms
place the bins so that they end exactly there. Negation keeps the number of bins and their width
but places the first edge anew, relative to the bin width, so the invariant survives only if the
first edge of the original was placed alike: adjusted bins were shifted by the suggested bin width,
which the adjustment may have narrowed.

A rule with a cap compares the number of bins after casting it to an `int`. It does not see a
number out of that range, and then a merger may take the narrower bin width of its inputs.
-/

namespace Chimbuko

namespace Histogram

/-- The representation invariant. -/
structure Sound (h : Histogram) : Prop where
  nbin_pos : 0 < h.nbin
  binWidth_pos : 0 < h.binWidth
  min_eq : h.min = (h.getMin : WithTop ℚ)
  max_eq : h.max = (h.getMax : WithBot ℚ)
  start_le_min : h.start ≤ h.getMin
  min_le_first : h.getMin ≤ h.start + h.binWidth
  min_le_max : h.getMin ≤ h.getMax
  endsAtMax : h.EndsAtMax

/-- The contents of a histogram that meets the invariant would be accepted. -/
theorem Sound.setHistogram_ok {h : Histogram} (hs : h.Sound) :
    setHistogram h.counts h.getMin h.getMax h.start h.binWidth = .ok h := by
  have hend : ¬1 / 100000000 * h.binWidth <
      |h.start + h.counts.length * h.binWidth - h.getMax| := not_lt_of_ge hs.endsAtMax
  unfold setHistogram
  rw [if_neg (not_lt_of_ge hs.min_le_max),
    if_neg (not_or.mpr ⟨not_lt_of_ge hs.start_le_min, not_lt_of_ge hs.min_le_first⟩),
    if_neg hend, ← hs.min_eq, ← hs.max_eq]
  rfl

/-- Values that pass the checks of the constructors, with bins that have extent. -/
theorem Sound.of_edges {h : Histogram} {lo hi : ℚ} (hpos : 0 < h.nbin) (hw : 0 < h.binWidth)
    (hmin : h.min = lo) (hmax : h.max = hi) (hstart : h.start ≤ lo)
    (hfirst : lo ≤ h.start + h.binWidth) (hle : lo ≤ hi)
    (hend : |h.start + h.nbin * h.binWidth - hi| ≤ 1 / 100000000 * h.binWidth) : h.Sound := by
  have hlo : h.getMin = lo := by rw [getMin, hmin]; rfl
  have hhi : h.getMax = hi := by rw [getMax, hmax]; rfl
  exact ⟨hpos, hw, hlo ▸ hmin, hhi ▸ hmax, hlo ▸ hstart, hlo ▸ hfirst, hlo ▸ hhi ▸ hle,
    EndsAtMax.of_max hmax hend⟩

/-- A sound histogram is valid. -/
theorem Sound.valid {h : Histogram} (hs : h.Sound) : h.Valid :=
  valid_of_edges hs.nbin_pos hs.min_eq hs.max_eq hs.start_le_min hs.min_le_first hs.min_le_max
    hs.endsAtMax

/-- Adjusted bins meet the invariant. -/
theorem Adjusted.sound {h : Histogram} {min max w : ℚ} (hh : h.Adjusted min max w)
    (hle : min ≤ max) : h.Sound := by
  have hw := hh.width_pos
  have hvalid := valid_adjustedBins hw hle
  obtain ⟨-, hwidth, -, hfirst⟩ := adjusted_bins hw hle
  apply Sound.of_edges (hh.nbin_eq ▸ hvalid.nbin_pos) (hh.binWidth_eq ▸ hwidth) hh.min_eq
    hh.max_eq (hh.start_eq ▸ hvalid.start_le_min) (hh.start_eq ▸ hh.binWidth_eq ▸ hfirst) hle
  rw [hh.nbin_eq, hh.start_eq, hh.binWidth_eq]
  exact endsAtMax_adjustedBins hw hle

/-- A bin for one value is sound. -/
theorem sound_deltaBin (value : ℚ) (count : ℕ) : (deltaBin value count).Sound := by
  have hvalid := valid_deltaBin value count
  have hend : (deltaBin value count).start + (deltaBin value count).binWidth = value := by
    simp [deltaBin]
  exact .of_edges hvalid.nbin_pos (deltaBin_width_pos value count) rfl rfl hvalid.start_le_min
    hend.ge le_rfl (endsAtMax_deltaBin value count)

/-- Histograms of data meet the invariant. -/
theorem createHistogram_sound {rTimes : List ℚ} {bwspec : BinWidthSpecifier} {h : Histogram}
    (hrun : createHistogram rTimes bwspec = .ok h) : h.Sound := by
  obtain ⟨lo, hi, -, hcases⟩ := createHistogram_cases hrun
  cases hcases with
  | inl hdelta =>
    obtain ⟨-, rfl⟩ := hdelta
    exact sound_deltaBin lo _
  | inr hfill =>
    obtain ⟨hlt, w, -, hfill⟩ := hfill
    exact (fillHistogram_adjusted hfill).1.sound hlt.le

/-- Mergers of two histograms that meet the invariant have the adjusted bins for the range of
both. -/
theorem mergeNonEmpty_adjusted {g l : Histogram} (hg : g.Sound) (hl : l.Sound)
    {bwspec : BinWidthSpecifier} {merged : Merged}
    (hrun : mergeNonEmpty g l bwspec = .ok merged) :
    ∃ w, mergedBinWidth g l bwspec (mergedMin g l) (mergedMax g l) = .ok w ∧
      merged.combined.Adjusted (mergedMin g l) (mergedMax g l) w := by
  obtain ⟨w, hw, hadj, -⟩ := mergeNonEmpty_ok hg.valid hl.valid hrun
  exact ⟨w, hw, hadj⟩

/-- Mergers of two histograms that meet the invariant meet it. -/
theorem mergeNonEmpty_sound {g l : Histogram} (hg : g.Sound) (hl : l.Sound)
    {bwspec : BinWidthSpecifier} {merged : Merged}
    (hrun : mergeNonEmpty g l bwspec = .ok merged) : merged.combined.Sound := by
  obtain ⟨w, -, hadj⟩ := mergeNonEmpty_adjusted hg hl hrun
  exact hadj.sound (mergedMin_le_mergedMax hg.valid)

/-- The first edge lies as far below the smallest value as negation places it. -/
def NegatesExactly (h : Histogram) : Prop :=
  |h.getMin - h.getMax + (h.nbin - getLowerBoundShiftMul) * h.binWidth| ≤
    1 / 100000000 * h.binWidth

/-- The negated histogram meets the invariant exactly if its first edge is placed alike. -/
theorem negate_sound_iff {h : Histogram} (hs : h.Sound) : h.negate.Sound ↔ h.NegatesExactly := by
  have hend : h.negate.EndsAtMax ↔ h.NegatesExactly := by
    unfold EndsAtMax NegatesExactly
    rw [negate_nbin]
    change |-h.getMax - getLowerBoundShiftMul * h.binWidth + h.nbin * h.binWidth - -h.getMin| ≤ _ ↔
      _
    rw [show -h.getMax - getLowerBoundShiftMul * h.binWidth + h.nbin * h.binWidth - -h.getMin =
      h.getMin - h.getMax + (h.nbin - getLowerBoundShiftMul) * h.binWidth by ring]
    rfl
  have hw := hs.binWidth_pos
  constructor
  · exact fun hn => hend.mp hn.endsAtMax
  · intro hn
    have hpos : 0 < h.negate.nbin := by
      rw [negate_nbin]
      exact hs.nbin_pos
    apply Sound.of_edges (h := h.negate) hpos hw rfl rfl
    · change -h.getMax - getLowerBoundShiftMul * h.binWidth ≤ -h.getMax
      norm_num [getLowerBoundShiftMul]
      exact hw.le
    · change -h.getMax ≤ -h.getMax - getLowerBoundShiftMul * h.binWidth + h.binWidth
      norm_num [getLowerBoundShiftMul]
      linarith
    · exact neg_le_neg hs.min_le_max
    · exact hend.mpr hn

/-- A suggested bin width that the adjustment narrows by at most a hundredth: what the mismatch
that is allowed at the largest value is of the shift of the first edge. -/
def NearlyAdjusted (min max w : ℚ) : Prop :=
  w ≤ 101 / 100 * (adjustedBins min max w).binWidth

/-- The adjustment does not widen the bins. -/
theorem adjustedBins_binWidth_le {min max w : ℚ} (hw : 0 < w) (hle : min ≤ max) :
    (adjustedBins min max w).binWidth ≤ w := by
  have hn : (0 : ℚ) < ⌈(max - (min - getLowerBoundShiftMul * w)) / w⌉ :=
    Int.cast_pos.mpr (adjusted_bins hw hle).1
  change (max - (min - getLowerBoundShiftMul * w)) / _ ≤ w
  rw [div_le_iff₀ hn, ← div_le_iff₀' hw]
  exact Int.le_ceil _

/-- Negation places the first edge of adjusted bins alike exactly if the adjustment hardly narrowed
them. -/
theorem Adjusted.negatesExactly_iff {h : Histogram} {min max w : ℚ} (hh : h.Adjusted min max w)
    (hle : min ≤ max) : h.NegatesExactly ↔ NearlyAdjusted min max w := by
  have hw := hh.width_pos
  have hnarrow := adjustedBins_binWidth_le hw hle
  have hend := adjustedBins_end hw hle
  have hlo : h.getMin = min := by rw [getMin, hh.min_eq]; rfl
  have hhi : h.getMax = max := by rw [getMax, hh.max_eq]; rfl
  have hshift : min - max + ((adjustedBins min max w).nbin - getLowerBoundShiftMul) *
      (adjustedBins min max w).binWidth =
        getLowerBoundShiftMul * (w - (adjustedBins min max w).binWidth) := by
    change min - getLowerBoundShiftMul * w + _ = max at hend
    linarith
  unfold NegatesExactly NearlyAdjusted
  rw [hlo, hhi, hh.nbin_eq, hh.binWidth_eq, hshift, getLowerBoundShiftMul,
    abs_of_nonneg (mul_nonneg (by norm_num) (sub_nonneg.mpr hnarrow))]
  constructor <;> intro h <;> linarith

/-- Point data are never negated exactly: the single bin is as wide as the shift of its first
edge. -/
theorem not_negatesExactly_deltaBin (value : ℚ) (count : ℕ) :
    ¬(deltaBin value count).NegatesExactly := by
  have hw := deltaBin_width_pos value count
  have hone : ((deltaBin value count).nbin : ℚ) = 1 := by simp [deltaBin, nbin]
  have hsame : (deltaBin value count).getMin = (deltaBin value count).getMax := rfl
  intro hexact
  have hupper := (abs_le.mp hexact).2
  rw [hone, hsame, getLowerBoundShiftMul] at hupper
  linarith

/-- The bin width for a fixed number of bins is hardly narrowed. -/
theorem nearlyAdjusted_fixedNbinWidth {n : ℤ} (hn : 1 ≤ n) {lo hi : ℚ} (hlt : lo < hi) :
    NearlyAdjusted lo hi (fixedNbinWidth n lo hi) := by
  have hw := fixedNbinWidth_pos hn hlt
  have hone : (1 : ℚ) ≤ n := by exact_mod_cast hn
  have hbins : (n : ℚ) - getLowerBoundShiftMul - 1 / 1000 ≠ 0 := by
    norm_num [getLowerBoundShiftMul]
    linarith
  have hrange : hi - lo = (n - getLowerBoundShiftMul - 1 / 1000) * fixedNbinWidth n lo hi := by
    rw [fixedNbinWidth, mul_div_cancel₀ _ hbins]
  unfold NearlyAdjusted
  change _ ≤ 101 / 100 * ((hi - (lo - getLowerBoundShiftMul * fixedNbinWidth n lo hi)) / _)
  rw [ceil_shifted_div_width hn hlt, ← mul_div_assoc, le_div_iff₀ (by linarith)]
  have hsplit : hi - (lo - getLowerBoundShiftMul * fixedNbinWidth n lo hi) =
      (n - 1 / 1000) * fixedNbinWidth n lo hi := by
    linarith
  rw [hsplit]
  nlinarith

/-- A bin width that makes more than a hundred bins is hardly narrowed. -/
theorem nearlyAdjusted_of_many {min max w : ℚ} (hw : 0 < w) (hle : min ≤ max)
    (hmany : 100 < (adjustedBins min max w).nbin) : NearlyAdjusted min max w := by
  have hceil := adjustedBins_nbin_eq hw hle
  have hn := (adjusted_bins hw hle).1
  unfold NearlyAdjusted
  change _ ≤ 101 / 100 * ((max - (min - getLowerBoundShiftMul * w)) / _)
  set n := ⌈(max - (min - getLowerBoundShiftMul * w)) / w⌉ with hdef
  have hnq : (0 : ℚ) < n := Int.cast_pos.mpr hn
  have hlt : (n : ℚ) < (max - (min - getLowerBoundShiftMul * w)) / w + 1 := Int.ceil_lt_add_one _
  have hbig : (101 : ℚ) ≤ n := by
    have : (101 : ℤ) ≤ n := by omega
    exact_mod_cast this
  have hratio : (max - (min - getLowerBoundShiftMul * w)) / w * w =
      max - (min - getLowerBoundShiftMul * w) := div_mul_cancel₀ _ hw.ne'
  rw [← mul_div_assoc, le_div_iff₀ hnq]
  nlinarith

/-- A value lies left or right of bins that coincide in a point. -/
private theorem countValue_point {h : Histogram} (hpos : 0 < h.nbin) (hw : h.binWidth = 0)
    (hmax : h.getMax = h.start) (message : String) (v : ℚ) :
    h.countValue message v = .error message := by
  unfold countValue getBin
  rw [if_neg hpos.ne', hw, hmax, mul_zero, sub_zero, add_zero]
  cases le_or_gt v h.start with
  | inl hv =>
    rw [if_pos hv]
    rfl
  | inr hv =>
    rw [if_neg (not_le_of_gt hv), if_neg (not_le_of_gt hv), if_pos hv]
    rfl

/-- Data over bins of no width is rejected. -/
theorem createHistogramIn_width_pos {data : List ℚ} {min max start binWidth : ℚ} {nbin : ℤ}
    {h : Histogram} (hrun : createHistogramIn data min max start nbin binWidth = .ok h) :
    0 < binWidth := by
  obtain ⟨-, -, hmin, hfirst, hend, -⟩ := createHistogramIn_edges hrun
  apply lt_of_le_of_ne (by linarith)
  rintro rfl
  have hmax : max = start := by
    rw [mul_zero, mul_zero, add_zero] at hend
    exact (sub_eq_zero.mp (abs_nonpos_iff.mp hend)).symm
  subst hmax
  rw [createHistogramIn] at hrun
  split at hrun
  · cases hrun
  rename_i hdata
  split at hrun
  · cases hrun
  rename_i hnbin
  split at hrun
  · cases hrun
  split at hrun
  · cases hrun
  cases data with
  | nil => exact hdata rfl
  | cons d rest =>
    have hpos : 0 < (List.replicate nbin.toNat 0).length := by
      rw [List.length_replicate]
      omega
    have hreject := countValue_point (h := ⟨List.replicate nbin.toNat 0, max, 0, min, max⟩) hpos
      rfl rfl "One or more data points do not lie within the bins provided" d
    rw [List.foldlM_cons, hreject] at hrun
    cases hrun

/-- A histogram over given bins meets the invariant exactly if the extremes given with them are in
order. -/
theorem createHistogramIn_sound_iff {data : List ℚ} {min max start binWidth : ℚ} {nbin : ℤ}
    {h : Histogram} (hrun : createHistogramIn data min max start nbin binWidth = .ok h) :
    h.Sound ↔ min ≤ max := by
  have hw := createHistogramIn_width_pos hrun
  obtain ⟨hpos, -, hmin, hfirst, hend, rfl, rfl, hmin', hmax'⟩ := createHistogramIn_edges hrun
  constructor
  · intro hs
    have hle := hs.min_le_max
    rw [getMin, getMax, hmin', hmax'] at hle
    exact hle
  · exact fun hle => .of_edges hpos hw hmin' hmax' hmin hfirst hle hend

/-- Given contents meet the invariant exactly if the bins have a width. -/
theorem setHistogram_sound_iff {counts : List ℕ} {min max start binWidth : ℚ} {h : Histogram}
    (hrun : setHistogram counts min max start binWidth = .ok h) (hpos : 0 < h.nbin) :
    h.Sound ↔ 0 < binWidth := by
  obtain ⟨hle, hmin, hfirst, hend, rfl, rfl, hmin', hmax'⟩ := setHistogram_edges hrun
  exact ⟨Sound.binWidth_pos, fun hw => .of_edges hpos hw hmin' hmax' hmin hfirst hle hend⟩

/-- The number of adjusted bins is that of the range, with the shift of the first edge. -/
theorem adjustedBins_ratio {lo hi w : ℚ} (hw : 0 < w) :
    (hi - (lo - getLowerBoundShiftMul * w)) / w = (hi - lo) / w + getLowerBoundShiftMul := by
  field_simp
  ring

/-- The number of bins that a bin width leads to is one that the cap sees. -/
def SeenByCap (width lo hi : ℚ) : Prop := ⌈(hi - lo) / width + getLowerBoundShiftMul⌉ < 2 ^ 31

/-- A positive bin width leads to a number of bins that is not negative. -/
private theorem bins_nonneg_of_width {width lo hi : ℚ} (hle : lo ≤ hi) (hw : 0 < width) :
    0 ≤ ⌈(hi - lo) / width + getLowerBoundShiftMul⌉ := by
  apply Int.ceil_nonneg
  have : 0 ≤ (hi - lo) / width := div_nonneg (sub_nonneg.mpr hle) hw.le
  norm_num [getLowerBoundShiftMul]
  linarith

/-- The corrected bin width makes at most the largest number of bins, if the cap sees how many the
original one leads to. -/
theorem correctBinWidth_bins {m : ℤ} (hm : 1 ≤ m) {width lo hi : ℚ} (hle : lo ≤ hi)
    (hseen : SeenByCap width lo hi) (hpos : 0 < correctBinWidth m width lo hi) :
    ((adjustedBins lo hi (correctBinWidth m width lo hi)).nbin : ℤ) ≤ m := by
  unfold correctBinWidth at hpos ⊢
  split at hpos
  · rename_i hmany
    rw [if_pos hmany]
    cases hle.lt_or_eq with
    | inl hlt => exact (adjustedBins_nbin hm hlt).le
    | inr heq =>
      rw [heq, fixedNbinWidth, sub_self, zero_div] at hpos
      exact absurd hpos (lt_irrefl 0)
  · rename_i hfew
    rw [if_neg hfew, adjustedBins_nbin_eq hpos hle]
    push Not at hfew
    rw [adjustedBins_ratio hpos]
    rw [castInt_of_lt (bins_nonneg_of_width hle hpos) hseen] at hfew
    exact hfew.2

/-- The corrected bin width is zero only if there is no range to divide. -/
theorem correctBinWidth_eq_zero {m : ℤ} (hm : 1 ≤ m) {width lo hi : ℚ} (hle : lo ≤ hi)
    (hzero : correctBinWidth m width lo hi = 0) : lo = hi := by
  unfold correctBinWidth at hzero
  split at hzero
  · apply hle.eq_or_lt.resolve_right
    intro hlt
    exact (fixedNbinWidth_pos hm hlt).ne' hzero
  · rename_i hne
    exact absurd (Or.inl hzero) hne

/-- A bin width that leads to a number of bins that the cap does not see is positive and stays as
it is. -/
theorem correctBinWidth_unseen {m : ℤ} (hm : 1 ≤ m) {width lo hi : ℚ} (hle : lo ≤ hi)
    (hunseen : ¬SeenByCap width lo hi) : 0 < width ∧ correctBinWidth m width lo hi = width := by
  have hmany : 2 ^ 31 ≤ ⌈(hi - lo) / width + getLowerBoundShiftMul⌉ := not_lt.mp hunseen
  have hpos : 0 < width := by
    apply lt_of_not_ge
    intro hnonpos
    have hratio : (hi - lo) / width ≤ 0 :=
      div_nonpos_of_nonneg_of_nonpos (sub_nonneg.mpr hle) hnonpos
    have hceil : ⌈(hi - lo) / width + getLowerBoundShiftMul⌉ ≤ 1 := by
      rw [Int.ceil_le]
      norm_num [getLowerBoundShiftMul]
      linarith
    omega
  refine ⟨hpos, ?_⟩
  unfold correctBinWidth castInt
  rw [if_neg]
  rw [not_or, if_neg (by omega)]
  exact ⟨hpos.ne', by omega⟩

end Histogram

open Histogram

section MaxNbin

variable [LibM]

/-- A rule with a cap on the number of bins, and the same rule without the cap. -/
inductive BinWidthSpecifier.MaxNbin (m : ℤ) : BinWidthSpecifier → BinWidthSpecifier → Prop
  | fixed (width : ℚ) : MaxNbin m (binWidthFixedMaxNbin width m) (binWidthFixed width)
  | scott : MaxNbin m (binWidthScottMaxNbin m) binWidthScott

namespace BinWidthSpecifier.MaxNbin

variable {m : ℤ} {bwspec uncapped : BinWidthSpecifier} (hspec : bwspec.MaxNbin m uncapped)
include hspec

/-- A rule with a cap corrects the bin width without it, for data. -/
theorem binWidth_eq {rTimes : List ℚ} {lo hi w : ℚ} (hw : bwspec.binWidth rTimes lo hi = .ok w) :
    ∃ width, uncapped.binWidth rTimes lo hi = .ok width ∧
      w = correctBinWidth m width lo hi := by
  cases hspec with
  | fixed width =>
    cases hw
    exact ⟨width, rfl, rfl⟩
  | scott =>
    cases hw
    exact ⟨scottBinWidth rTimes, rfl, rfl⟩

/-- A rule with a cap corrects the bin width without it, for a merger. -/
theorem binWidthMerge_eq {g l : Histogram} {lo hi w : ℚ}
    (hw : bwspec.binWidthMerge g l lo hi = .ok w) :
    ∃ width, uncapped.binWidthMerge g l lo hi = .ok width ∧
      w = correctBinWidth m width lo hi := by
  cases hspec with
  | fixed width =>
    cases hw
    exact ⟨width, rfl, rfl⟩
  | scott =>
    change (scottBinWidthMerge g l >>= _) = _ at hw
    cases hscott : scottBinWidthMerge g l with
    | error e =>
      rw [hscott] at hw
      cases hw
    | ok width =>
      rw [hscott] at hw
      cases hw
      exact ⟨width, hscott, rfl⟩

variable (hm : 1 ≤ m)
include hm

/-- Histograms of data keep to the cap. A number of bins that the cap does not see is an error. -/
theorem createHistogram_nbin_le {rTimes : List ℚ} {h : Histogram}
    (hrun : createHistogram rTimes bwspec = .ok h) : (h.nbin : ℤ) ≤ m := by
  obtain ⟨lo, hi, -, hcases⟩ := createHistogram_cases hrun
  cases hcases with
  | inl hdelta =>
    obtain ⟨-, rfl⟩ := hdelta
    exact hm
  | inr hfill =>
    obtain ⟨hlt, w, hw, hfill⟩ := hfill
    obtain ⟨hadj, hfits⟩ := fillHistogram_adjusted hfill
    obtain ⟨width, -, rfl⟩ := hspec.binWidth_eq hw
    by_cases hseen : SeenByCap width lo hi
    · rw [hadj.nbin_eq]
      exact correctBinWidth_bins hm hlt.le hseen hadj.width_pos
    · obtain ⟨hpos, hsame⟩ := correctBinWidth_unseen hm hlt.le hseen
      rw [hadj.nbin_eq, hsame, adjustedBins_nbin_eq hpos hlt.le, adjustedBins_ratio hpos] at hfits
      exact absurd hfits hseen

/-- Mergers of histograms with bins keep to the cap if it sees the number of bins: another bin width
is only taken if there is no range to divide, or if the cap exceeds the largest number of bins of a
merger. -/
theorem mergeNonEmpty_nbin_le {g l : Histogram} (hg : g.Sound) (hl : l.Sound) {merged : Merged}
    (hseen : ∀ width, uncapped.binWidthMerge g l (mergedMin g l) (mergedMax g l) = .ok width →
      SeenByCap width (mergedMin g l) (mergedMax g l))
    (hrun : mergeNonEmpty g l bwspec = .ok merged) : (merged.combined.nbin : ℤ) ≤ m := by
  obtain ⟨w, hw, hadj⟩ := mergeNonEmpty_adjusted hg hl hrun
  have hpos := hadj.width_pos
  have hle : mergedMin g l ≤ mergedMax g l := mergedMin_le_mergedMax hg.valid
  obtain ⟨-, hfew, w', hw', hpos', hcases⟩ := mergedBinWidth_cases hw
  obtain ⟨width, hwidth', hwidth⟩ := hspec.binWidthMerge_eq hw'
  have hseen := hseen width hwidth'
  rw [hadj.nbin_eq]
  cases hcases with
  | inl heq =>
    rw [heq, hwidth]
    apply correctBinWidth_bins hm hle hseen
    rw [← hwidth, ← heq]
    exact hpos
  | inr hother =>
    rw [adjustedBins_nbin_eq hpos hle, adjustedBins_ratio hpos]
    by_cases hzero : w' = 0
    · have heq := correctBinWidth_eq_zero hm hle (hwidth.symm.trans hzero)
      rw [heq, sub_self, zero_div, zero_add]
      apply le_trans _ hm
      norm_num [getLowerBoundShiftMul]
    · have hmany := hother.1.resolve_left hzero
      have hpos'' : 0 < correctBinWidth m width (mergedMin g l) (mergedMax g l) :=
        hwidth ▸ lt_of_le_of_ne hpos' (Ne.symm hzero)
      have hcap := correctBinWidth_bins hm hle hseen hpos''
      rw [adjustedBins_nbin_eq hpos'' hle, adjustedBins_ratio hpos'', ← hwidth] at hcap
      unfold maxMergedBins at hfew hmany
      have hfew' : ⌈(mergedMax g l - mergedMin g l) / w⌉ ≤ 50000 := by exact_mod_cast hfew
      have hmany' : 50000 < ⌈(mergedMax g l - mergedMin g l) / w'⌉ := by exact_mod_cast hmany
      have hshift : ⌈(mergedMax g l - mergedMin g l) / w'⌉ ≤
          ⌈(mergedMax g l - mergedMin g l) / w' + getLowerBoundShiftMul⌉ := by
        apply Int.ceil_le_ceil
        norm_num [getLowerBoundShiftMul]
      have hshift' : ⌈(mergedMax g l - mergedMin g l) / w + getLowerBoundShiftMul⌉ ≤
          ⌈(mergedMax g l - mergedMin g l) / w⌉ + 1 := by
        rw [← Int.ceil_add_one]
        apply Int.ceil_le_ceil
        norm_num [getLowerBoundShiftMul]
      omega

/-- Mergers of histograms with bins that have more bins than the cap sees take the narrower bin
width of the two. -/
theorem mergeNonEmpty_unseen {g l : Histogram} (hg : g.Sound) (hl : l.Sound) {merged : Merged}
    {width : ℚ} (hwidth : uncapped.binWidthMerge g l (mergedMin g l) (mergedMax g l) = .ok width)
    (hunseen : ¬SeenByCap width (mergedMin g l) (mergedMax g l))
    (hrun : mergeNonEmpty g l bwspec = .ok merged) :
    merged.combined.nbin =
      (adjustedBins (mergedMin g l) (mergedMax g l) (min g.binWidth l.binWidth)).nbin := by
  obtain ⟨w, hw, hadj⟩ := mergeNonEmpty_adjusted hg hl hrun
  have hle : mergedMin g l ≤ mergedMax g l := mergedMin_le_mergedMax hg.valid
  obtain ⟨-, hfew, w', hw', -, hcases⟩ := mergedBinWidth_cases hw
  obtain ⟨width', hwidth', hcorrect⟩ := hspec.binWidthMerge_eq hw'
  obtain rfl := Except.ok.inj (hwidth.symm.trans hwidth')
  obtain ⟨-, hsame⟩ := correctBinWidth_unseen hm hle hunseen
  rw [hadj.nbin_eq]
  cases hcases with
  | inl heq =>
    -- the uncorrected bin width leads to far too many bins
    unfold SeenByCap maxMergedBins at *
    rw [heq, hcorrect, hsame] at hfew
    have hfew' : ⌈(mergedMax g l - mergedMin g l) / width⌉ ≤ 50000 := by exact_mod_cast hfew
    have hshift : ⌈(mergedMax g l - mergedMin g l) / width + getLowerBoundShiftMul⌉ ≤
        ⌈(mergedMax g l - mergedMin g l) / width⌉ + 1 := by
      rw [← Int.ceil_add_one]
      apply Int.ceil_le_ceil
      norm_num [getLowerBoundShiftMul]
    omega
  | inr hother => rw [hother.2]

end BinWidthSpecifier.MaxNbin

end MaxNbin

end Chimbuko
