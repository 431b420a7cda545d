import Chimbuko.Util.HistogramMergeExact

/-!
# Histograms with a fixed number of bins

If every histogram is created and merged with the same fixed number of bins then the bin width is
determined by the range, so it only grows and a merged first edge never lies above an input's.
Such histograms represent their data exactly in number and extremes, and neither creating nor
merging them can fail.
-/

namespace Chimbuko

namespace Histogram

/-- A histogram of some values made with a fixed number of bins: a single bin if all values agree,
else that number of bins with the first edge placed by the range. -/
structure Represents (n : ℤ) (h : Histogram) (values : List ℚ) : Prop where
  valid : h.Valid
  extended : h.Extended
  total : h.totalCount = values.length
  min_mem : h.getMin ∈ values
  max_mem : h.getMax ∈ values
  bounds : ∀ v ∈ values, h.getMin ≤ v ∧ v ≤ h.getMax
  shape : h.getMin = h.getMax ∧ h.nbin = 1 ∨
    h.getMin < h.getMax ∧ (h.nbin : ℤ) = n ∧
      h.start = h.getMin - getLowerBoundShiftMul * fixedNbinWidth n h.getMin h.getMax

section Width

variable {n : ℤ} {lo hi : ℚ}

/-- How many widths the range has. -/
private theorem range_div_width (hlt : lo < hi) :
    (hi - lo) / fixedNbinWidth n lo hi = n - getLowerBoundShiftMul - 1 / 1000 := by
  rw [fixedNbinWidth, div_div_cancel₀ (sub_pos.mpr hlt).ne']

/-- The fixed bin width divides the range into the fixed number of bins. -/
theorem ceil_range_div_width (hlt : lo < hi) : ⌈(hi - lo) / fixedNbinWidth n lo hi⌉ = n := by
  rw [range_div_width hlt, Int.ceil_eq_iff]
  norm_num [getLowerBoundShiftMul]
  constructor <;> linarith

variable (hn : 1 ≤ n)
include hn

/-- The divisor of the fixed bin width is positive. -/
private theorem divisor_pos : 0 < (n : ℚ) - getLowerBoundShiftMul - 1 / 1000 := by
  have : (1 : ℚ) ≤ n := by exact_mod_cast hn
  norm_num [getLowerBoundShiftMul]
  linarith

/-- The width is positive. -/
theorem fixedNbinWidth_pos (hlt : lo < hi) : 0 < fixedNbinWidth n lo hi :=
  div_pos (sub_pos.mpr hlt) (divisor_pos hn)

/-- The bin width grows with the range. -/
theorem fixedNbinWidth_mono {lo' hi' : ℚ} (hlo : lo' ≤ lo) (hhi : hi ≤ hi') :
    fixedNbinWidth n lo hi ≤ fixedNbinWidth n lo' hi' :=
  div_le_div_of_nonneg_right (by linarith) (divisor_pos hn).le

/-- The same holds of the range from the shifted first edge. -/
theorem ceil_shifted_div_width (hlt : lo < hi) :
    ⌈(hi - (lo - getLowerBoundShiftMul * fixedNbinWidth n lo hi)) / fixedNbinWidth n lo hi⌉ = n := by
  have hw := (fixedNbinWidth_pos hn hlt).ne'
  have hsplit : (hi - (lo - getLowerBoundShiftMul * fixedNbinWidth n lo hi)) /
      fixedNbinWidth n lo hi = (hi - lo) / fixedNbinWidth n lo hi + getLowerBoundShiftMul := by
    field_simp
    ring
  rw [hsplit, range_div_width hlt, Int.ceil_eq_iff]
  norm_num [getLowerBoundShiftMul]
  constructor <;> linarith

/-- The adjusted bins for a proper range are the fixed number of bins. -/
theorem adjustedBins_nbin (hlt : lo < hi) :
    ((adjustedBins lo hi (fixedNbinWidth n lo hi)).nbin : ℤ) = n := by
  rw [adjustedBins_nbin_eq (fixedNbinWidth_pos hn hlt) hlt.le, ceil_shifted_div_width hn hlt]

end Width

/-- Adjusted bins have extent. -/
theorem extended_adjustedBins {min max w : ℚ} (hw : 0 < w) (hle : min ≤ max) :
    (adjustedBins min max w).Extended :=
  (valid_adjustedBins hw hle).extent.resolve_right fun hpoint =>
    (adjusted_bins hw hle).2.1.ne' hpoint.1

/-- A value past the first edge of adjusted bins and up to the largest value lies in a bin. -/
theorem getBin_adjustedBins {min max w v : ℚ} (hw : 0 < w) (hle : min ≤ max) (hmin : min ≤ v)
    (hmax : v ≤ max) :
    ∃ b : ℤ, ∀ h : Histogram, h.nbin = (adjustedBins min max w).nbin →
      h.start = (adjustedBins min max w).start →
      h.binWidth = (adjustedBins min max w).binWidth → h.max = max →
      h.getBin v 0 = .ok b ∧ 0 ≤ b ∧ b < h.nbin := by
  obtain ⟨hn, hwidth, hend, -⟩ := adjusted_bins hw hle
  have hpos := (valid_adjustedBins hw hle).nbin_pos
  have hshift : 0 < getLowerBoundShiftMul * w := mul_pos (by norm_num [getLowerBoundShiftMul]) hw
  have hstart : (adjustedBins min max w).start < v :=
    (sub_lt_self min hshift).trans_le hmin
  have hnbin : ((adjustedBins min max w).nbin : ℤ) =
      ⌈(max - (min - getLowerBoundShiftMul * w)) / w⌉ := by
    rw [nbin, adjustedBins, List.length_replicate, Int.toNat_of_nonneg hn.le]
  by_cases hv : max ≤ v
  · refine ⟨(adjustedBins min max w).nbin - 1, fun h h1 h2 h3 h4 => ?_⟩
    have hmax' : h.getMax = max := by rw [getMax, h4]; rfl
    refine ⟨?_, by omega, by omega⟩
    rw [getBin, if_neg (by omega), h2, h3, hmax', zero_mul, sub_zero, add_zero,
      if_neg (not_le_of_gt hstart), if_neg (not_le_of_gt hstart), if_neg (not_lt_of_ge hmax),
      if_pos hv, h1]
    rfl
  · let start := (adjustedBins min max w).start
    let width := (adjustedBins min max w).binWidth
    let bb := (v - start) / width
    have hwidth' : 0 < width := hwidth
    have hbb : 0 < bb := div_pos (sub_pos.mpr hstart) hwidth'
    have hbbw : bb * width = v - start := div_mul_cancel₀ _ hwidth'.ne'
    -- the provisional bin starts at or before the value, and past it only in a later bin
    let bin : ℤ := if v ≤ start + ⌊bb⌋ * width then ⌊bb⌋ - 1 else ⌊bb⌋
    have hfloor : (0 : ℤ) ≤ ⌊bb⌋ := Int.floor_nonneg.mpr hbb.le
    have hbin0 : 0 ≤ bin := by
      change 0 ≤ if v ≤ start + ⌊bb⌋ * width then ⌊bb⌋ - 1 else ⌊bb⌋
      split
      · rename_i hle'
        have hne : ⌊bb⌋ ≠ 0 := by
          intro hzero
          rw [hzero, Int.cast_zero, zero_mul, add_zero] at hle'
          exact absurd hstart (not_lt_of_ge hle')
        omega
      · exact hfloor
    have hbin1 : bin < (adjustedBins min max w).nbin := by
      have hle' : bin ≤ ⌊bb⌋ := by
        change (if v ≤ start + ⌊bb⌋ * width then ⌊bb⌋ - 1 else ⌊bb⌋) ≤ ⌊bb⌋
        split <;> omega
      refine hle'.trans_lt ?_
      rw [hnbin]
      refine Int.floor_lt.mpr ((div_lt_iff₀ hwidth').mpr ?_)
      have hend' : start + (⌈(max - (min - getLowerBoundShiftMul * w)) / w⌉ : ℚ) * width = max :=
        hend
      linarith [lt_of_not_ge hv]
    refine ⟨bin, fun h h1 h2 h3 h4 => ?_⟩
    have hmax' : h.getMax = max := by rw [getMax, h4]; rfl
    refine ⟨?_, hbin0, h1 ▸ hbin1⟩
    rw [getBin, if_neg (by omega), h2, h3, hmax', zero_mul, sub_zero, add_zero,
      if_neg (not_le_of_gt hstart), if_neg (not_le_of_gt hstart), if_neg (not_lt_of_ge hmax),
      if_neg hv, h1]
    change (if bin < 0 ∨ ((adjustedBins min max w).nbin : ℤ) ≤ bin then _ else pure bin) = _
    rw [if_neg (not_or.mpr ⟨not_lt_of_ge hbin0, not_le_of_gt hbin1⟩)]
    rfl

/-- Counting a value adds one to the sum. -/
private theorem sum_modify_succ (counts : List ℕ) {i : ℕ} (hi : i < counts.length) :
    (counts.modify i (· + 1)).sum = counts.sum + 1 := by
  induction counts generalizing i with
  | nil => exact absurd hi (Nat.not_lt_zero i)
  | cons c rest ih =>
    cases i with
    | zero => simp only [List.modify_zero_cons, List.sum_cons]; omega
    | succ i =>
      rw [List.modify_succ_cons, List.sum_cons, ih (Nat.lt_of_succ_lt_succ hi), List.sum_cons]
      omega

/-- Counting values that lie in the bins succeeds and adds their number to the total. -/
theorem foldlM_countValue_ok (message : String) (data : List ℚ) (h : Histogram)
    (hbin : ∀ v ∈ data, ∃ b : ℤ, ∀ h' : Histogram, h'.nbin = h.nbin → h'.start = h.start →
      h'.binWidth = h.binWidth → h'.max = h.max →
      h'.getBin v 0 = .ok b ∧ 0 ≤ b ∧ b < h'.nbin) :
    ∃ h', data.foldlM (fun h v => h.countValue message v) h = .ok h' ∧
      h'.totalCount = h.totalCount + data.length := by
  induction data generalizing h with
  | nil => exact ⟨h, rfl, rfl⟩
  | cons v rest ih =>
    obtain ⟨b, hb⟩ := hbin v List.mem_cons_self
    obtain ⟨hget, hb0, hb1⟩ := hb h rfl rfl rfl rfl
    have hcount : h.countValue message v =
        .ok { h with counts := h.counts.modify b.toNat (· + 1) } := by
      have hin : ¬(b = leftOfHistogram ∨ b = rightOfHistogram) := by
        rw [leftOfHistogram, rightOfHistogram]
        omega
      rw [countValue, hget]
      change (if b = leftOfHistogram ∨ b = rightOfHistogram then _ else _) = _
      rw [if_neg hin]
      rfl
    have hnbin : ({ h with counts := h.counts.modify b.toNat (· + 1) } : Histogram).nbin =
        h.nbin := List.length_modify ..
    obtain ⟨h', hrun, htotal⟩ := ih
      { h with counts := h.counts.modify b.toNat (· + 1) } fun u hu => by
        obtain ⟨c, hc⟩ := hbin u (List.mem_cons_of_mem _ hu)
        exact ⟨c, fun h'' h1 h2 h3 h4 => hc h'' (h1.trans hnbin) h2 h3 h4⟩
    refine ⟨h', ?_, ?_⟩
    · rw [List.foldlM_cons, hcount]
      exact hrun
    · have hlt : b.toNat < h.counts.length := by
        have : b < (h.counts.length : ℤ) := hb1
        omega
      rw [htotal, totalCount, totalCount, sum_modify_succ _ hlt, List.length_cons]
      omega

/-- Counts and the smallest value do not matter. -/
theorem Extended.congr {h h' : Histogram} (he : h.Extended) (hnbin : h'.nbin = h.nbin)
    (hstart : h'.start = h.start) (hw : h'.binWidth = h.binWidth) (hmax : h'.max = h.max) :
    h'.Extended := by
  have hgetMax : h'.getMax = h.getMax := by rw [getMax, getMax, hmax]
  simpa only [Extended, binEdgeLower, hnbin, hstart, hw, hgetMax] using he

/-- Filling adjusted bins succeeds if their number fits an `int` and every value can be counted. -/
theorem fillHistogram_ok {rTimes : List ℚ} {min max w : ℚ} {h : Histogram} (hw : 0 < w)
    (hle : min ≤ max) (hlt : ((adjustedBins min max w).nbin : ℤ) < 2 ^ 31)
    (hfill : rTimes.foldlM (fun h v => h.countValue "Value is outside of histogram" v)
      (adjustedBins min max w) = .ok h) (htotal : h.totalCount = rTimes.length) :
    fillHistogram rTimes min max w = .ok h := by
  have hwidth := (adjusted_bins hw hle).2.1
  have hclose : ¬(castInt (adjustedBins min max w).nbin ≠ (adjustedBins min max w).nbin ∨
      1 / 100000000 * (adjustedBins min max w).binWidth <
        |(adjustedBins min max w).start +
          (adjustedBins min max w).nbin * (adjustedBins min max w).binWidth - max|) := by
    rw [adjustedBins_end hw hle, sub_self, abs_zero, castInt_of_lt (Int.natCast_nonneg _) hlt]
    push Not
    exact ⟨rfl, mul_nonneg (by norm_num) hwidth.le⟩
  rw [fillHistogram, if_neg (not_lt_of_gt hw), if_neg hw.ne']
  simp only [if_neg hclose]
  rw [hfill]
  change (if h.totalCount ≠ rTimes.length then _ else pure h) = _
  rw [if_neg (not_not.mpr htotal)]
  rfl

/-- The bin width of a merger of two histograms of data: it takes nothing off the first bins,
and gives a single bin if all values agree and the fixed number of bins else. -/
theorem mergedBinWidth_represents {n : ℤ} (hn : 1 ≤ n) (hn' : n ≤ 50000) {g l : Histogram}
    {gvalues lvalues : List ℚ} (hg : g.Represents n gvalues) (hl : l.Represents n lvalues) :
    ∃ w, mergedBinWidth g l (binWidthFixedNbin n) (mergedMin g l) (mergedMax g l) = .ok w ∧
      0 < w ∧ g.KeepsFirstBin (mergedMin g l - getLowerBoundShiftMul * w) ∧
      l.KeepsFirstBin (mergedMin g l - getLowerBoundShiftMul * w) ∧
      (mergedMin g l = mergedMax g l ∧ (adjustedBins (mergedMin g l) (mergedMax g l) w).nbin = 1 ∨
        mergedMin g l < mergedMax g l ∧
          ((adjustedBins (mergedMin g l) (mergedMax g l) w).nbin : ℤ) = n ∧
          (adjustedBins (mergedMin g l) (mergedMax g l) w).start =
            mergedMin g l -
              getLowerBoundShiftMul * fixedNbinWidth n (mergedMin g l) (mergedMax g l)) := by
  have hle := mergedMin_le_mergedMax hg.valid (l := l)
  rcases hle.eq_or_lt with heq | hlt
  · have hzero : fixedNbinWidth n (mergedMin g l) (mergedMax g l) = 0 := by
      rw [fixedNbinWidth, heq, sub_self, zero_div]
    have hw : 0 < Min.min g.binWidth l.binWidth := lt_min hg.extended.1 hl.extended.1
    refine ⟨Min.min g.binWidth l.binWidth, ?_, hw, Or.inl ?_, Or.inl ?_, Or.inl ⟨heq, ?_⟩⟩
    · rw [mergedBinWidth]
      change (if fixedNbinWidth n (mergedMin g l) (mergedMax g l) < 0 then _ else
        if fixedNbinWidth n (mergedMin g l) (mergedMax g l) = 0 ∨ _ then _ else _) = _
      rw [hzero, if_neg (lt_irrefl _), if_pos (Or.inl rfl)]
      change (if Min.min g.binWidth l.binWidth = 0 ∨
        maxMergedBins < ⌈(mergedMax g l - mergedMin g l) / Min.min g.binWidth l.binWidth⌉ then _
        else _) = _
      rw [heq, sub_self, zero_div, Int.ceil_zero, if_neg]
      · rfl
      · rw [not_or]
        exact ⟨hw.ne', by norm_num [maxMergedBins]⟩
    · exact le_antisymm hg.valid.min_le_max
        ((le_max_right _ _).trans (heq.ge.trans (min_le_right _ _)))
    · exact le_antisymm hl.valid.min_le_max
        ((le_max_left _ _).trans (heq.ge.trans (min_le_left _ _)))
    · rw [nbin, adjustedBins, List.length_replicate, heq, sub_sub_cancel,
        mul_div_cancel_right₀ _ hw.ne']
      norm_num [getLowerBoundShiftMul]
  · have hw := fixedNbinWidth_pos hn hlt
    -- an input that has the fixed number of bins starts below its smallest value by a smaller shift
    have hkeep : ∀ {h : Histogram} {values : List ℚ}, h.Represents n values →
        mergedMin g l ≤ h.getMin → h.getMax ≤ mergedMax g l → h.KeepsFirstBin (mergedMin g l -
          getLowerBoundShiftMul * fixedNbinWidth n (mergedMin g l) (mergedMax g l)) := by
      intro h values hh hmin hmax
      rcases hh.shape with ⟨hsame, -⟩ | ⟨-, -, hstart⟩
      · exact Or.inl hsame
      · refine Or.inr (Or.inl ?_)
        rw [hstart]
        have hmono := fixedNbinWidth_mono hn hmin hmax
        have hshift := mul_le_mul_of_nonneg_left hmono
          (show 0 ≤ getLowerBoundShiftMul by norm_num [getLowerBoundShiftMul])
        linarith
    refine ⟨fixedNbinWidth n (mergedMin g l) (mergedMax g l), ?_, hw,
      hkeep hg (min_le_right _ _) (le_max_right _ _),
      hkeep hl (min_le_left _ _) (le_max_left _ _), Or.inr ⟨hlt, adjustedBins_nbin hn hlt, rfl⟩⟩
    rw [mergedBinWidth]
    change (if fixedNbinWidth n (mergedMin g l) (mergedMax g l) < 0 then _ else
      if fixedNbinWidth n (mergedMin g l) (mergedMax g l) = 0 ∨ maxMergedBins <
        ⌈(mergedMax g l - mergedMin g l) / fixedNbinWidth n (mergedMin g l) (mergedMax g l)⌉
      then _ else _) = _
    rw [if_neg (not_lt_of_gt hw), ceil_range_div_width hlt, if_neg]
    · rfl
    · rw [not_or, not_lt, maxMergedBins]
      exact ⟨hw.ne', by exact_mod_cast hn'⟩

/-- Creating a histogram from data cannot fail, and represents the data. -/
theorem createHistogram_represents {n : ℤ} (hn : 1 ≤ n) (hn' : n ≤ 50000) {values : List ℚ}
    (hne : values ≠ []) :
    ∃ h, createHistogram values (binWidthFixedNbin n) = .ok h ∧ h.Represents n values := by
  obtain ⟨lo, hi, hrange, hlo, hhi, hbounds⟩ := dataRange_spec hne
  cases values with
  | nil => exact absurd rfl hne
  | cons first rest =>
    by_cases hall : (first :: rest).all (· = first)
    · have hfirst : ∀ v ∈ first :: rest, v = first := by simpa using hall
      refine ⟨deltaBin first (first :: rest).length, ?_, ?_⟩
      · rw [createHistogram, if_pos hall]
        rfl
      · have hvalid := valid_deltaBin first (first :: rest).length
        refine ⟨hvalid, ?_, ?_, List.mem_cons_self, List.mem_cons_self, ?_, Or.inl ⟨rfl, rfl⟩⟩
        · exact hvalid.extent.resolve_right fun hpoint =>
            (deltaBin_width_pos first _).ne' hpoint.1
        · simp [totalCount, deltaBin]
        · exact fun v hv => ⟨(hfirst v hv).ge, (hfirst v hv).le⟩
    · have hlt : lo < hi := by
        refine lt_of_not_ge fun hge => hall ?_
        have hsame : ∀ v ∈ first :: rest, v = lo := fun v hv =>
          le_antisymm ((hbounds v hv).2.trans hge) (hbounds v hv).1
        rw [List.all_eq_true]
        intro v hv
        rw [decide_eq_true_eq, hsame v hv, hsame first List.mem_cons_self]
      have hw := fixedNbinWidth_pos hn hlt
      have hvalid := valid_adjustedBins hw hlt.le
      obtain ⟨h, hfill, htotal⟩ := foldlM_countValue_ok "Value is outside of histogram"
        (first :: rest) (adjustedBins lo hi (fixedNbinWidth n lo hi)) fun v hv =>
          getBin_adjustedBins hw hlt.le (hbounds v hv).1 (hbounds v hv).2
      obtain ⟨hnbin, hstart, hwidth, hmin, hmax⟩ := foldlM_countValue _ hfill
      have htotal : h.totalCount = (first :: rest).length := by
        rw [htotal, totalCount, adjustedBins, List.sum_replicate_nat, mul_zero, zero_add]
      have hgetMin : h.getMin = lo := by rw [getMin, hmin]; rfl
      have hgetMax : h.getMax = hi := by rw [getMax, hmax]; rfl
      have hspec : (binWidthFixedNbin n).binWidth (first :: rest) lo hi =
          .ok (fixedNbinWidth n lo hi) := by
        change (if hi = lo then _ else _) = _
        rw [if_neg hlt.ne']
        rfl
      refine ⟨h, ?_, ?_⟩
      · rw [createHistogram, if_neg hall, hrange]
        change ((binWidthFixedNbin n).binWidth (first :: rest) lo hi >>= fillHistogram _ lo hi) = _
        rw [hspec]
        change fillHistogram (first :: rest) lo hi (fixedNbinWidth n lo hi) = _
        have hfits : ((adjustedBins lo hi (fixedNbinWidth n lo hi)).nbin : ℤ) < 2 ^ 31 := by
          rw [adjustedBins_nbin hn hlt]
          omega
        exact fillHistogram_ok hw hlt.le hfits hfill htotal
      · have hhv := hvalid.congr hnbin hstart hwidth hmin hmax
        refine ⟨hhv, ?_, htotal, hgetMin ▸ hlo, hgetMax ▸ hhi, ?_, Or.inr ⟨?_, ?_, ?_⟩⟩
        · exact (extended_adjustedBins hw hlt.le).congr hnbin hstart hwidth hmax
        · rwa [hgetMin, hgetMax]
        · rwa [hgetMin, hgetMax]
        · rw [hnbin, adjustedBins_nbin hn hlt]
        · rw [hstart, hgetMin, hgetMax]
          rfl

/-- Merging two histograms of data cannot fail, and represents both data sets. -/
theorem mergeHistograms_represents {n : ℤ} (hn : 1 ≤ n) (hn' : n ≤ 50000) {g l : Histogram}
    {gvalues lvalues : List ℚ} (hg : g.Represents n gvalues) (hl : l.Represents n lvalues) :
    ∃ h, mergeHistograms g l (binWidthFixedNbin n) = .ok h ∧
      h.Represents n (gvalues ++ lvalues) := by
  obtain ⟨w, hw, hpos, hgkeep, hlkeep, hshape⟩ := mergedBinWidth_represents hn hn' hg hl
  have hle := mergedMin_le_mergedMax hg.valid (l := l)
  have hedge : mergedMin g l - getLowerBoundShiftMul * w < mergedMin g l :=
    sub_lt_self _ (mul_pos (by norm_num [getLowerBoundShiftMul]) hpos)
  obtain ⟨merged, hrun, hnbin, hstart, hwidth, hmin, hmax, -, -, htotal⟩ :=
    mergeHistogramsUniformInt_ok hg.valid hl.valid hg.extended hl.extended hpos hle
      (min_le_right _ _) (min_le_left _ _) (le_max_right _ _) (le_max_left _ _)
  rw [(lost_eq_zero_iff hg.valid (hedge.trans_le (min_le_right _ _))).mpr hgkeep,
    (lost_eq_zero_iff hl.valid (hedge.trans_le (min_le_left _ _))).mpr hlkeep, hg.total,
    hl.total] at htotal
  have hgetMin : merged.combined.getMin = mergedMin g l := by rw [getMin, hmin]; rfl
  have hgetMax : merged.combined.getMax = mergedMax g l := by rw [getMax, hmax]; rfl
  refine ⟨merged.combined, ?_, ?_⟩
  · rw [mergeHistograms, if_neg hg.valid.nbin_pos.ne', if_neg hl.valid.nbin_pos.ne',
      mergeNonEmpty_eq hg.valid hl.valid, hw]
    change (mergeHistogramsUniformInt _ g l >>= _) = _
    rw [hrun]
    rfl
  · refine ⟨(valid_adjustedBins hpos hle).congr hnbin hstart hwidth hmin hmax,
      (extended_adjustedBins hpos hle).congr hnbin hstart hwidth hmax, ?_, ?_, ?_, ?_, ?_⟩
    · rw [List.length_append]
      omega
    · rw [hgetMin, mergedMin, List.mem_append]
      rcases min_choice l.getMin g.getMin with h | h <;> rw [h]
      · exact Or.inr hl.min_mem
      · exact Or.inl hg.min_mem
    · rw [hgetMax, mergedMax, List.mem_append]
      rcases max_choice l.getMax g.getMax with h | h <;> rw [h]
      · exact Or.inr hl.max_mem
      · exact Or.inl hg.max_mem
    · intro v hv
      rw [hgetMin, hgetMax, mergedMin, mergedMax]
      rcases List.mem_append.mp hv with hv | hv
      · exact ⟨(min_le_right _ _).trans (hg.bounds v hv).1,
          (hg.bounds v hv).2.trans (le_max_right _ _)⟩
      · exact ⟨(min_le_left _ _).trans (hl.bounds v hv).1,
          (hl.bounds v hv).2.trans (le_max_left _ _)⟩
    · rw [hgetMin, hgetMax, hnbin, hstart]
      exact hshape

end Histogram

end Chimbuko
