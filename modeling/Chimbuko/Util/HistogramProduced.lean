import Chimbuko.Util.HistogramMerge
import Chimbuko.Util.HistogramValid

/-!
# The histograms that the class produces

Creating a histogram from data, setting its contents and merging two histograms all give valid
histograms. The first edge is a small fraction of the suggested bin width below the smallest
value, and the adjusted bin width is large enough for that value to lie in the first bin.
-/

namespace Chimbuko

namespace Histogram

/-- A histogram whose edges pass the checks of `set_histogram` is valid. -/
theorem valid_of_edges {h : Histogram} {lo hi : ℚ} (hpos : 0 < h.nbin) (hmin : h.min = lo)
    (hmax : h.max = hi) (hstart : h.start ≤ lo) (hfirst : lo ≤ h.start + h.binWidth)
    (hle : lo ≤ hi)
    (hend : |h.start + h.nbin * h.binWidth - hi| ≤ 1 / 100000000 * h.binWidth) : h.Valid := by
  have hlo : h.getMin = lo := by rw [getMin, hmin]; rfl
  have hhi : h.getMax = hi := by rw [getMax, hmax]; rfl
  have hw : 0 ≤ h.binWidth := by linarith
  obtain ⟨hlower, hupper⟩ := abs_le.mp hend
  refine ⟨hpos, by rw [hlo, hmin], by rw [hhi, hmax], by rwa [hlo], by rwa [hlo, hhi], ?_, ?_⟩
  · rw [hlo]
    by_cases hn : 0 + 1 = h.nbin
    · rwa [binEdges_snd_last h hn, hhi]
    · rw [binEdges_snd_eq_lower h hn, binEdgeLower]
      simpa using hfirst
  · rcases hw.eq_or_lt with hzero | hpos'
    · right
      rw [← hzero] at hlower hupper
      exact ⟨hzero.symm, by rw [hhi]; linarith⟩
    · left
      refine ⟨hpos', ?_⟩
      have hcast : ((h.nbin - 1 : ℕ) : ℚ) = h.nbin - 1 := by
        rw [Nat.cast_sub hpos, Nat.cast_one]
      rw [binEdgeLower, hcast, hhi]
      linarith

/-- The adjusted bins: there is at least one, they have extent and end at the largest value, and
the smallest value lies in the first of them. -/
theorem adjusted_bins {min max w : ℚ} (hw : 0 < w) (hle : min ≤ max) :
    let start := min - getLowerBoundShiftMul * w
    let n := ⌈(max - start) / w⌉
    0 < n ∧ 0 < (max - start) / n ∧ start + n * ((max - start) / n) = max ∧
      min ≤ start + (max - start) / n := by
  intro start n
  have hshift : start = min - 1 / 1000000 * w := rfl
  have hrange : 0 < max - start := by rw [hshift]; linarith
  have hn : 0 < n := Int.ceil_pos.mpr (div_pos hrange hw)
  have hnq : (0 : ℚ) < n := Int.cast_pos.mpr hn
  refine ⟨hn, div_pos hrange hnq, ?_, ?_⟩
  · rw [mul_div_cancel₀ _ hnq.ne']
    ring
  -- one bin holds the whole range; otherwise rounding up at most halves the bin width
  have hbound : 1 / 1000000 * w * n ≤ max - start := by
    rcases Int.lt_or_le 1 n with hone | hone
    · have hlt : (n : ℚ) < (max - start) / w + 1 := Int.ceil_lt_add_one _
      have hgt : 1 < (max - start) / w := by
        rw [← Int.cast_one]
        exact Int.lt_ceil.mp hone
      have hw' : (max - start) / w * w = max - start := div_mul_cancel₀ _ hw.ne'
      nlinarith
    · have hone' : (n : ℚ) ≤ 1 := by exact_mod_cast hone
      have : 1 / 1000000 * w ≤ max - start := by rw [hshift]; linarith
      nlinarith
  have hdiv : 1 / 1000000 * w ≤ (max - start) / n := (le_div_iff₀ hnq).mpr hbound
  linarith

/-- The number of adjusted bins. -/
theorem adjustedBins_nbin_eq {min max w : ℚ} (hw : 0 < w) (hle : min ≤ max) :
    ((adjustedBins min max w).nbin : ℤ) = ⌈(max - (min - getLowerBoundShiftMul * w)) / w⌉ := by
  rw [nbin, adjustedBins, List.length_replicate, Int.toNat_of_nonneg (adjusted_bins hw hle).1.le]

/-- Adjusted bins end exactly at the largest value. -/
theorem adjustedBins_end {min max w : ℚ} (hw : 0 < w) (hle : min ≤ max) :
    (adjustedBins min max w).start +
      (adjustedBins min max w).nbin * (adjustedBins min max w).binWidth = max := by
  have hcast : ((adjustedBins min max w).nbin : ℚ) =
      ⌈(max - (min - getLowerBoundShiftMul * w)) / w⌉ := by
    exact_mod_cast adjustedBins_nbin_eq hw hle
  rw [hcast]
  exact (adjusted_bins hw hle).2.2.1

/-- The adjusted bins for a range that is not reversed are valid. -/
theorem valid_adjustedBins {min max w : ℚ} (hw : 0 < w) (hle : min ≤ max) :
    (adjustedBins min max w).Valid := by
  obtain ⟨hn, hwidth, -, hfirst⟩ := adjusted_bins hw hle
  have hstart : min - getLowerBoundShiftMul * w ≤ min := by
    have : 0 < getLowerBoundShiftMul * w := mul_pos (by norm_num [getLowerBoundShiftMul]) hw
    linarith
  refine valid_of_edges ?_ rfl rfl hstart hfirst hle ?_
  · rw [nbin, adjustedBins, List.length_replicate]
    omega
  · rw [adjustedBins_end hw hle, sub_self, abs_zero]
    exact mul_nonneg (by norm_num) hwidth.le

/-- The width of the single bin for data of one value is positive. -/
theorem deltaBin_width_pos (value : ℚ) (count : ℕ) : 0 < (deltaBin value count).binWidth := by
  simp only [deltaBin]
  split
  · norm_num
  · rename_i hne
    exact lt_of_le_of_ne (by positivity) (Ne.symm hne)

/-- A bin for one value is valid. -/
theorem valid_deltaBin (value : ℚ) (count : ℕ) : (deltaBin value count).Valid := by
  have hw := deltaBin_width_pos value count
  have hend : (deltaBin value count).start + (deltaBin value count).binWidth = value := by
    simp [deltaBin]
  have hone : ((deltaBin value count).nbin : ℚ) = 1 := by simp [deltaBin, nbin]
  refine valid_of_edges Nat.one_pos rfl rfl ?_ hend.ge le_rfl ?_
  · linarith
  · rw [hone, one_mul, hend, sub_self, abs_zero]
    exact mul_nonneg (by norm_num) hw.le

/-- Counting values changes no edges and no number of bins. -/
theorem foldlM_countValue {message : String} (data : List ℚ) {h h' : Histogram}
    (hrun : data.foldlM (fun h d => h.countValue message d) h = .ok h') :
    h'.nbin = h.nbin ∧ h'.start = h.start ∧ h'.binWidth = h.binWidth ∧ h'.min = h.min ∧
      h'.max = h.max := by
  induction data generalizing h with
  | nil =>
    cases hrun
    exact ⟨rfl, rfl, rfl, rfl, rfl⟩
  | cons d rest ih =>
    rw [List.foldlM_cons] at hrun
    cases hbin : h.getBin d 0 with
    | error e =>
      rw [countValue, hbin] at hrun
      cases hrun
    | ok b =>
      have hcount : h.countValue message d = if b = leftOfHistogram ∨ b = rightOfHistogram then
          throw message else pure { h with counts := h.counts.modify b.toNat (· + 1) } := by
        rw [countValue, hbin]
        rfl
      rw [hcount] at hrun
      by_cases hout : b = leftOfHistogram ∨ b = rightOfHistogram
      · rw [if_pos hout] at hrun
        cases hrun
      · rw [if_neg hout] at hrun
        have hrest := ih hrun
        rw [nbin, nbin, List.length_modify] at hrest
        exact hrest

/-- The range of some values bounds them all and is attained. -/
private theorem foldl_range (values : List ℚ) (lo hi : ℚ) :
    ∃ lo' hi' : ℚ, values.foldl extendRange (↑lo, ↑hi) = (↑lo', ↑hi') ∧
      (∀ v ∈ lo :: values, lo' ≤ v) ∧ (∀ v ∈ hi :: values, v ≤ hi') ∧ lo' ∈ lo :: values ∧
      hi' ∈ hi :: values := by
  induction values generalizing lo hi with
  | nil => exact ⟨lo, hi, rfl, by simp, by simp, by simp, by simp⟩
  | cons v rest ih =>
    obtain ⟨lo', hi', hrun, hlo, hhi, hlo', hhi'⟩ := ih (Min.min lo v) (Max.max hi v)
    refine ⟨lo', hi', ?_, ?_, ?_, ?_, ?_⟩
    · rw [List.foldl_cons, ← hrun, WithTop.coe_min, WithBot.coe_max]
      rfl
    · simp only [List.forall_mem_cons] at hlo ⊢
      exact ⟨hlo.1.trans (min_le_left _ _), hlo.1.trans (min_le_right _ _), hlo.2⟩
    · simp only [List.forall_mem_cons] at hhi ⊢
      exact ⟨(le_max_left _ _).trans hhi.1, (le_max_right _ _).trans hhi.1, hhi.2⟩
    · rcases List.mem_cons.mp hlo' with rfl | h
      · rcases min_choice lo v with hm | hm <;> simp [hm]
      · exact List.mem_cons_of_mem _ (List.mem_cons_of_mem _ h)
    · rcases List.mem_cons.mp hhi' with rfl | h
      · rcases max_choice hi v with hm | hm <;> simp [hm]
      · exact List.mem_cons_of_mem _ (List.mem_cons_of_mem _ h)

/-- The range of data is that of their smallest and largest value. -/
theorem dataRange_spec {values : List ℚ} (hne : values ≠ []) :
    ∃ lo hi : ℚ, dataRange values = (↑lo, ↑hi) ∧ lo ∈ values ∧ hi ∈ values ∧
      ∀ v ∈ values, lo ≤ v ∧ v ≤ hi := by
  cases values with
  | nil => exact absurd rfl hne
  | cons v rest =>
    obtain ⟨lo, hi, hrun, hlo, hhi, hlo', hhi'⟩ := foldl_range rest v v
    refine ⟨lo, hi, ?_, hlo', hhi', fun x hx => ⟨hlo x hx, hhi x hx⟩⟩
    rw [dataRange, List.foldl_cons, ← hrun]
    simp [extendRange]

/-- A histogram with the edges of a valid one is valid. -/
theorem Valid.congr {h h' : Histogram} (hv : h.Valid) (hnbin : h'.nbin = h.nbin)
    (hstart : h'.start = h.start) (hw : h'.binWidth = h.binWidth) (hmin : h'.min = h.min)
    (hmax : h'.max = h.max) : h'.Valid := by
  have hgetMin : h'.getMin = h.getMin := by rw [getMin, getMin, hmin]
  have hgetMax : h'.getMax = h.getMax := by rw [getMax, getMax, hmax]
  have hedges : ∀ b, h'.binEdges b = h.binEdges b := by
    intro b
    rw [binEdges, binEdges, hstart, hw, hnbin, hgetMax]
  obtain ⟨h1, h2, h3, h4, h5, h6, h7⟩ := hv
  refine ⟨?_, ?_, ?_, ?_, ?_, ?_, ?_⟩
  · rwa [hnbin]
  · rwa [hmin, hgetMin]
  · rwa [hmax, hgetMax]
  · rwa [hstart, hgetMin]
  · rwa [hgetMin, hgetMax]
  · rwa [hgetMin, hedges]
  · simpa only [Extended, binEdgeLower, hnbin, hstart, hw, hgetMax] using h7

/-- A histogram with the adjusted bins for a range and a suggested bin width, whatever it
counts. -/
structure Adjusted (h : Histogram) (min max w : ℚ) : Prop where
  width_pos : 0 < w
  nbin_eq : h.nbin = (adjustedBins min max w).nbin
  start_eq : h.start = (adjustedBins min max w).start
  binWidth_eq : h.binWidth = (adjustedBins min max w).binWidth
  min_eq : h.min = min
  max_eq : h.max = max

/-- Adjusted bins are valid. -/
theorem Adjusted.valid {h : Histogram} {min max w : ℚ} (hh : h.Adjusted min max w)
    (hle : min ≤ max) : h.Valid :=
  (valid_adjustedBins hh.width_pos hle).congr hh.nbin_eq hh.start_eq hh.binWidth_eq hh.min_eq
    hh.max_eq

/-- All counted data are counted. -/
theorem fillHistogram_totalCount {rTimes : List ℚ} {min max w : ℚ} {h : Histogram}
    (hrun : fillHistogram rTimes min max w = .ok h) : h.totalCount = rTimes.length := by
  rw [fillHistogram] at hrun
  split at hrun
  · cases hrun
  split at hrun
  · cases hrun
  simp only at hrun
  split at hrun
  · cases hrun
  cases hfill : rTimes.foldlM (fun h v => h.countValue "Value is outside of histogram" v)
      (adjustedBins min max w) with
  | error e =>
    rw [hfill] at hrun
    cases hrun
  | ok filled =>
    rw [hfill] at hrun
    change (if filled.totalCount ≠ rTimes.length then _ else pure filled) = _ at hrun
    split at hrun
    · cases hrun
    · rename_i htotal
      cases hrun
      exact not_not.mp htotal

/-- Counted data have the adjusted bins for their range, as many as an `int` can hold. -/
theorem fillHistogram_adjusted {rTimes : List ℚ} {min max w : ℚ} {h : Histogram}
    (hrun : fillHistogram rTimes min max w = .ok h) :
    h.Adjusted min max w ∧ (h.nbin : ℤ) < 2 ^ 31 := by
  rw [fillHistogram] at hrun
  split at hrun
  · cases hrun
  split at hrun
  · cases hrun
  rename_i hneg hzero
  have hw : 0 < w := lt_of_le_of_ne (le_of_not_gt hneg) (Ne.symm hzero)
  simp only at hrun
  split at hrun
  · cases hrun
  rename_i hchecked
  have hfits := castInt_eq_self (not_not.mp (not_or.mp hchecked).1)
  cases hfill : rTimes.foldlM (fun h v => h.countValue "Value is outside of histogram" v)
      (adjustedBins min max w) with
  | error e =>
    rw [hfill] at hrun
    cases hrun
  | ok filled =>
    rw [hfill] at hrun
    change (if filled.totalCount ≠ rTimes.length then _ else pure filled) = _ at hrun
    split at hrun
    · cases hrun
    · cases hrun
      obtain ⟨hnbin, hstart, hwidth, hmin, hmax⟩ := foldlM_countValue _ hfill
      rw [hnbin]
      exact ⟨⟨hw, hnbin, hstart, hwidth, hmin, hmax⟩, hfits⟩

/-- Data of one value make a single narrow bin, other data adjusted bins for their range. -/
theorem createHistogram_cases {rTimes : List ℚ} {bwspec : BinWidthSpecifier} {h : Histogram}
    (hrun : createHistogram rTimes bwspec = .ok h) :
    ∃ lo hi : ℚ, dataRange rTimes = (↑lo, ↑hi) ∧
      (lo = hi ∧ h = deltaBin lo rTimes.length ∨
        lo < hi ∧ ∃ w, bwspec.binWidth rTimes lo hi = .ok w ∧
          fillHistogram rTimes lo hi w = .ok h) := by
  cases rTimes with
  | nil => cases hrun
  | cons first rest =>
    obtain ⟨lo, hi, hrange, hlo, hhi, hbounds⟩ := dataRange_spec (List.cons_ne_nil first rest)
    refine ⟨lo, hi, hrange, ?_⟩
    rw [createHistogram, hrange] at hrun
    split at hrun
    · rename_i hall
      have hfirst : ∀ v ∈ first :: rest, v = first := by simpa using hall
      cases hrun
      exact Or.inl ⟨(hfirst lo hlo).trans (hfirst hi hhi).symm, by rw [hfirst lo hlo]⟩
    · rename_i hall
      have hlt : lo < hi := by
        apply lt_of_not_ge
        intro hge
        have hsame : ∀ v ∈ first :: rest, v = lo := fun v hv =>
          le_antisymm ((hbounds v hv).2.trans hge) (hbounds v hv).1
        apply hall
        rw [List.all_eq_true]
        intro v hv
        rw [decide_eq_true_eq, hsame v hv, hsame first List.mem_cons_self]
      change (bwspec.binWidth (first :: rest) lo hi >>= fillHistogram _ lo hi) = _ at hrun
      cases hwidth : bwspec.binWidth (first :: rest) lo hi with
      | error e =>
        rw [hwidth] at hrun
        cases hrun
      | ok w =>
        rw [hwidth] at hrun
        exact Or.inr ⟨hlt, w, rfl, hrun⟩

/-- Data are counted each once. -/
theorem createHistogram_totalCount {rTimes : List ℚ} {bwspec : BinWidthSpecifier} {h : Histogram}
    (hrun : createHistogram rTimes bwspec = .ok h) : h.totalCount = rTimes.length := by
  obtain ⟨lo, hi, -, hcases⟩ := createHistogram_cases hrun
  cases hcases with
  | inl hdelta =>
    obtain ⟨-, rfl⟩ := hdelta
    exact Nat.add_zero _
  | inr hfill =>
    obtain ⟨-, w, -, hfill⟩ := hfill
    exact fillHistogram_totalCount hfill

/-- Data make a valid histogram. -/
theorem createHistogram_valid {rTimes : List ℚ} {bwspec : BinWidthSpecifier} {h : Histogram}
    (hrun : createHistogram rTimes bwspec = .ok h) : h.Valid := by
  obtain ⟨lo, hi, -, hcases⟩ := createHistogram_cases hrun
  cases hcases with
  | inl hdelta =>
    obtain ⟨-, rfl⟩ := hdelta
    exact valid_deltaBin lo _
  | inr hfill =>
    obtain ⟨hlt, w, -, hfill⟩ := hfill
    exact (fillHistogram_adjusted hfill).1.valid hlt.le

/-- Data over given bins have these bins, which pass the checks. -/
theorem createHistogramIn_edges {data : List ℚ} {min max start binWidth : ℚ} {nbin : ℤ}
    {h : Histogram} (hrun : createHistogramIn data min max start nbin binWidth = .ok h) :
    0 < h.nbin ∧ (h.nbin : ℚ) = nbin ∧ start ≤ min ∧ min ≤ start + binWidth ∧
      |start + h.nbin * binWidth - max| ≤ 1 / 100000000 * binWidth ∧ h.start = start ∧
      h.binWidth = binWidth ∧ h.min = min ∧ h.max = max := by
  rw [createHistogramIn] at hrun
  split at hrun
  · cases hrun
  split at hrun
  · cases hrun
  split at hrun
  · cases hrun
  split at hrun
  · cases hrun
  rename_i hdata hn hmin hmax
  obtain ⟨hnbin, hedges⟩ := foldlM_countValue _ hrun
  have hcount : (h.nbin : ℤ) = nbin := by
    rw [hnbin, Histogram.nbin, List.length_replicate]
    omega
  have hcast : (h.nbin : ℚ) = nbin := by exact_mod_cast hcount
  push Not at hmin hmax
  rw [hcast]
  exact ⟨by omega, rfl, hmin.1, hmin.2, hmax, hedges⟩

/-- Data over given bins make a valid histogram, if the extremes given with them are in order. -/
theorem createHistogramIn_valid {data : List ℚ} {min max start binWidth : ℚ} {nbin : ℤ}
    {h : Histogram} (hle : min ≤ max)
    (hrun : createHistogramIn data min max start nbin binWidth = .ok h) : h.Valid := by
  obtain ⟨hpos, -, hmin, hfirst, hend, rfl, rfl, hmin', hmax'⟩ := createHistogramIn_edges hrun
  exact valid_of_edges hpos hmin' hmax' hmin hfirst hle hend

/-- Contents that `set_histogram` accepts pass its checks. -/
theorem setHistogram_edges {counts : List ℕ} {min max start binWidth : ℚ} {h : Histogram}
    (hrun : setHistogram counts min max start binWidth = .ok h) :
    min ≤ max ∧ start ≤ min ∧ min ≤ start + binWidth ∧
      |start + h.nbin * binWidth - max| ≤ 1 / 100000000 * binWidth ∧ h.start = start ∧
      h.binWidth = binWidth ∧ h.min = min ∧ h.max = max := by
  rw [setHistogram] at hrun
  split at hrun
  · cases hrun
  split at hrun
  · cases hrun
  split at hrun
  · cases hrun
  rename_i hle hmin hmax
  cases hrun
  push Not at hle hmin hmax
  exact ⟨hle, hmin.1, hmin.2, hmax, rfl, rfl, rfl, rfl⟩

/-- Contents that `set_histogram` accepts are kept. -/
theorem setHistogram_nbin {counts : List ℕ} {min max start binWidth : ℚ} {h : Histogram}
    (hrun : setHistogram counts min max start binWidth = .ok h) : h.nbin = counts.length := by
  rw [setHistogram] at hrun
  split at hrun
  · cases hrun
  split at hrun
  · cases hrun
  split at hrun
  · cases hrun
  cases hrun
  rfl

/-- Contents that `set_histogram` accepts make a valid histogram if there are bins. -/
theorem setHistogram_valid {counts : List ℕ} {min max start binWidth : ℚ} {h : Histogram}
    (hrun : setHistogram counts min max start binWidth = .ok h) (hpos : 0 < h.nbin) :
    h.Valid := by
  obtain ⟨hle, hmin, hfirst, hend, rfl, rfl, hmin', hmax'⟩ := setHistogram_edges hrun
  exact valid_of_edges hpos hmin' hmax' hmin hfirst hle hend

end Histogram

end Chimbuko
