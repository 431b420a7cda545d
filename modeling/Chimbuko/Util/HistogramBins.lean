import Chimbuko.Util.HistogramProduced

/-!
# Finding the bin of a value

The bins of a histogram are half open, and the last one ends at the stored largest value. The
constructors accept a largest value that differs a little from where the bins end by their number
and width. A value past the end of the bins but below the largest value has no bin: looking it up
is a fatal error. Every other value is found in the bin whose edges contain it, or to the left or
to the right of the histogram.
-/

namespace Chimbuko

namespace Histogram

/-- A histogram that a constructor has accepted. -/
inductive Accepted : Histogram → Prop
  | createHistogram {rTimes : List ℚ} {bwspec : BinWidthSpecifier} {h : Histogram} :
      createHistogram rTimes bwspec = .ok h → Accepted h
  | createHistogramIn {data : List ℚ} {min max start binWidth : ℚ} {nbin : ℤ} {h : Histogram} :
      createHistogramIn data min max start nbin binWidth = .ok h → Accepted h
  | setHistogram {counts : List ℕ} {min max start binWidth : ℚ} {h : Histogram} :
      setHistogram counts min max start binWidth = .ok h → Accepted h

/-- The bins end at the largest value, up to the mismatch that is tolerated. -/
def EndsAtMax (h : Histogram) : Prop :=
  |h.start + h.nbin * h.binWidth - h.getMax| ≤ 1 / 100000000 * h.binWidth

instance (h : Histogram) : Decidable h.EndsAtMax := inferInstanceAs (Decidable (_ ≤ _))

/-- A value lies past the end of the bins but below the largest value. -/
def InGap (h : Histogram) (v : ℚ) : Prop := h.start + h.nbin * h.binWidth < v ∧ v < h.getMax

instance (h : Histogram) (v : ℚ) : Decidable (h.InGap v) := inferInstanceAs (Decidable (_ ∧ _))

/-- What the bin of a value is, given the tolerance: outside the histogram, or a bin whose edges
contain the value, where values within tolerance of the ends belong to the outer bins. -/
structure BinFound (h : Histogram) (v tol : ℚ) (b : ℤ) : Prop where
  left : b = leftOfHistogram ↔ v ≤ h.start - tol * h.binWidth
  right : b = rightOfHistogram ↔ h.getMax + tol * h.binWidth < v
  inside : b ≠ leftOfHistogram → b ≠ rightOfHistogram → ∃ bin : ℕ, b = bin ∧ bin < h.nbin ∧
    if v ≤ h.start then bin = 0
    else if h.getMax < v then bin + 1 = h.nbin
    else (h.binEdges bin).1 < v ∧ v ≤ (h.binEdges bin).2

section Edges

variable {h : Histogram} (hpos : 0 < h.nbin) (hw : 0 < h.binWidth)
include hpos hw

/-- The last bin has extent. -/
theorem EndsAtMax.lower_lt_max (hend : h.EndsAtMax) : h.binEdgeLower (h.nbin - 1) < h.getMax := by
  have hlower := (abs_le.mp hend).2
  have hcast : ((h.nbin - 1 : ℕ) : ℚ) = h.nbin - 1 := by rw [Nat.cast_sub hpos, Nat.cast_one]
  unfold binEdgeLower
  rw [hcast]
  linarith

/-- The bins start below the largest value. -/
theorem EndsAtMax.start_lt_max (hend : h.EndsAtMax) : h.start < h.getMax :=
  Extended.start_lt_max ⟨hw, hend.lower_lt_max hpos hw⟩

omit hw in
/-- A value far enough below the first edge lies left of the histogram. -/
theorem getBin_left {v tol : ℚ} (hv : v ≤ h.start - tol * h.binWidth) :
    h.getBin v tol = .ok leftOfHistogram := by
  unfold getBin
  rw [if_neg hpos.ne', if_pos hv]
  rfl

omit hw in
/-- A value just below the first edge belongs to the first bin. -/
theorem getBin_first {v tol : ℚ} (hleft : h.start - tol * h.binWidth < v) (hv : v ≤ h.start) :
    h.getBin v tol = .ok 0 := by
  unfold getBin
  rw [if_neg hpos.ne', if_neg (not_le_of_gt hleft), if_pos hv]
  rfl

variable {v tol : ℚ} (htol : 0 ≤ tol) (hstart : h.start < v)
include htol hstart

omit hpos in
/-- No value past the first edge lies left of the histogram. -/
private theorem not_left : ¬v ≤ h.start - tol * h.binWidth := by
  have := mul_nonneg htol hw.le
  apply not_le_of_gt
  linarith

/-- A value far enough above the largest one lies right of the histogram. -/
theorem getBin_right (hv : h.getMax + tol * h.binWidth < v) :
    h.getBin v tol = .ok rightOfHistogram := by
  unfold getBin
  rw [if_neg hpos.ne', if_neg (not_left hw htol hstart), if_neg (not_le_of_gt hstart),
    if_pos hv]
  rfl

/-- A value at or just above the largest one belongs to the last bin. -/
theorem getBin_last (hright : v ≤ h.getMax + tol * h.binWidth) (hv : h.getMax ≤ v) :
    h.getBin v tol = .ok ((h.nbin : ℤ) - 1) := by
  unfold getBin
  rw [if_neg hpos.ne', if_neg (not_left hw htol hstart), if_neg (not_le_of_gt hstart),
    if_neg (not_lt_of_ge hright), if_pos hv]
  rfl

/-- Between the first edge and the largest value the bin is computed, and then checked. -/
theorem getBin_computed (hv : v < h.getMax) :
    h.getBin v tol =
      let bin := ⌈(v - h.start) / h.binWidth⌉ - 1
      if bin < 0 ∨ (h.nbin : ℤ) ≤ bin then throw "Logic bomb: bin index outside of histogram"
      else pure bin := by
  have hmax : ¬h.getMax + tol * h.binWidth < v := by
    have := mul_nonneg htol hw.le
    apply not_lt_of_gt
    linarith
  -- the provisional index is one too large exactly if the value lies on an edge
  have hadjusted : (if v ≤ h.start + ⌊(v - h.start) / h.binWidth⌋ * h.binWidth then
      ⌊(v - h.start) / h.binWidth⌋ - 1 else ⌊(v - h.start) / h.binWidth⌋) =
      ⌈(v - h.start) / h.binWidth⌉ - 1 := by
    have hbb : v = h.start + (v - h.start) / h.binWidth * h.binWidth := by
      rw [div_mul_cancel₀ _ hw.ne']
      ring
    split
    · rename_i hedge
      have hle : (v - h.start) / h.binWidth ≤ ⌊(v - h.start) / h.binWidth⌋ := by
        rw [div_le_iff₀ hw]
        linarith
      have heq := le_antisymm hle (Int.floor_le _)
      rw [heq, Int.ceil_intCast, Int.floor_intCast]
    · rename_i hedge
      have hlt : (⌊(v - h.start) / h.binWidth⌋ : ℚ) < (v - h.start) / h.binWidth := by
        rw [lt_div_iff₀ hw]
        linarith [lt_of_not_ge hedge]
      have hceil : ⌈(v - h.start) / h.binWidth⌉ = ⌊(v - h.start) / h.binWidth⌋ + 1 := by
        rw [Int.ceil_eq_iff]
        push_cast
        constructor
        · linarith
        · exact (Int.lt_floor_add_one _).le
      omega
  unfold getBin
  rw [if_neg hpos.ne', if_neg (not_left hw htol hstart), if_neg (not_le_of_gt hstart),
    if_neg hmax, if_neg (not_le_of_gt hv)]
  simp only [hadjusted]

/-- A value between the first edge and the largest value that has a bin lies in it. -/
theorem getBin_inner (hv : v < h.getMax) (hgap : ¬h.InGap v) :
    ∃ bin : ℕ, h.getBin v tol = .ok (bin : ℤ) ∧ bin < h.nbin ∧ (h.binEdges bin).1 < v ∧
      v ≤ (h.binEdges bin).2 := by
  have hbb : 0 < (v - h.start) / h.binWidth := div_pos (sub_pos.mpr hstart) hw
  have hceil : 0 < ⌈(v - h.start) / h.binWidth⌉ := Int.ceil_pos.mpr hbb
  have hle : ⌈(v - h.start) / h.binWidth⌉ ≤ h.nbin := by
    apply Int.ceil_le.mpr
    rw [div_le_iff₀ hw]
    have hend : v ≤ h.start + h.nbin * h.binWidth := by
      by_contra hlt
      exact hgap ⟨lt_of_not_ge hlt, hv⟩
    push_cast
    linarith
  obtain ⟨bin, hbin⟩ := Int.eq_ofNat_of_zero_le (show 0 ≤ ⌈(v - h.start) / h.binWidth⌉ - 1 by omega)
  have hlt : bin < h.nbin := by omega
  have hedges : (bin : ℚ) < (v - h.start) / h.binWidth ∧
      (v - h.start) / h.binWidth ≤ bin + 1 := by
    have heq : ⌈(v - h.start) / h.binWidth⌉ = (bin : ℤ) + 1 := by omega
    have hiff := Int.ceil_eq_iff.mp heq
    push_cast at hiff
    exact ⟨by linarith [hiff.1], hiff.2⟩
  rw [lt_div_iff₀ hw, div_le_iff₀ hw] at hedges
  refine ⟨bin, ?_, hlt, ?_, ?_⟩
  · rw [getBin_computed hpos hw htol hstart hv, hbin]
    have hrange : ¬((bin : ℤ) < 0 ∨ (h.nbin : ℤ) ≤ bin) := by omega
    exact if_neg hrange
  · change h.start + bin * h.binWidth < v
    linarith [hedges.1]
  · by_cases hlast : bin + 1 = h.nbin
    · rw [binEdges_snd_last h hlast]
      exact hv.le
    · rw [binEdges_snd_eq_lower h hlast, binEdgeLower]
      push_cast
      linarith [hedges.2]

/-- A value past the end of the bins but below the largest value has no bin. -/
theorem getBin_gap (hgap : h.InGap v) :
    h.getBin v tol = .error "Logic bomb: bin index outside of histogram" := by
  have hlt : (h.nbin : ℤ) < ⌈(v - h.start) / h.binWidth⌉ := by
    apply Int.lt_ceil.mpr
    rw [lt_div_iff₀ hw]
    push_cast
    linarith [hgap.1]
  rw [getBin_computed hpos hw htol hstart hgap.2]
  have hrange : ⌈(v - h.start) / h.binWidth⌉ - 1 < 0 ∨
      (h.nbin : ℤ) ≤ ⌈(v - h.start) / h.binWidth⌉ - 1 := by omega
  exact if_pos hrange

omit hstart in
/-- Looking up a value is right about it exactly if the value does not lie in the gap. -/
theorem getBin_found_iff (hend : h.EndsAtMax) :
    (∃ b, h.getBin v tol = .ok b ∧ h.BinFound v tol b) ↔ ¬h.InGap v := by
  have hmax := hend.start_lt_max hpos hw
  have htolw := mul_nonneg htol hw.le
  constructor
  · rintro ⟨b, hb, -⟩ hgap
    have hstart : h.start < v := by
      have hn : 0 ≤ h.nbin * h.binWidth := mul_nonneg (Nat.cast_nonneg _) hw.le
      linarith [hgap.1]
    rw [getBin_gap hpos hw htol hstart hgap] at hb
    cases hb
  · intro hgap
    cases le_or_gt v h.start with
    | inl hfirst =>
      have hright : ¬h.getMax + tol * h.binWidth < v := by
        apply not_lt_of_ge
        linarith
      cases le_or_gt v (h.start - tol * h.binWidth) with
      | inl hleft =>
        refine ⟨_, getBin_left hpos hleft, ⟨iff_of_true rfl hleft, ?_, ?_⟩⟩
        · exact iff_of_false (by decide) hright
        · exact fun hne => absurd rfl hne
      | inr hleft =>
        refine ⟨0, getBin_first hpos hleft hfirst, ⟨?_, ?_, ?_⟩⟩
        · exact iff_of_false (by decide) (not_le_of_gt hleft)
        · exact iff_of_false (by decide) hright
        · intro _ _
          exact ⟨0, rfl, hpos, by rw [if_pos hfirst]⟩
    | inr hstart =>
      have hleft := not_left hw htol hstart
      -- an index of a bin is none of the two that stand for a value outside
      have hindex : ∀ bin : ℕ, (bin : ℤ) ≠ leftOfHistogram ∧ (bin : ℤ) ≠ rightOfHistogram := by
        intro bin
        unfold leftOfHistogram rightOfHistogram
        omega
      cases le_or_gt h.getMax v with
      | inl hlast =>
        cases lt_or_ge (h.getMax + tol * h.binWidth) v with
        | inl hright =>
          refine ⟨_, getBin_right hpos hw htol hstart hright, ⟨?_, iff_of_true rfl hright, ?_⟩⟩
          · exact iff_of_false (by decide) hleft
          · exact fun _ hne => absurd rfl hne
        | inr hright =>
          have hcast : ((h.nbin - 1 : ℕ) : ℤ) = (h.nbin : ℤ) - 1 := by omega
          refine ⟨_, getBin_last hpos hw htol hstart hright hlast, hcast ▸ ⟨?_, ?_, ?_⟩⟩
          · exact iff_of_false (hindex _).1 hleft
          · exact iff_of_false (hindex _).2 (not_lt_of_ge hright)
          · intro _ _
            refine ⟨h.nbin - 1, rfl, by omega, ?_⟩
            rw [if_neg (not_le_of_gt hstart)]
            split
            · omega
            · rename_i hle
              rw [binEdges_snd_last h (by omega)]
              exact ⟨(hend.lower_lt_max hpos hw).trans_le hlast, le_of_not_gt hle⟩
      | inr hv =>
        obtain ⟨bin, hbin, hlt, hlower, hupper⟩ := getBin_inner hpos hw htol hstart hv hgap
        have hright : ¬h.getMax < v := not_lt_of_gt hv
        refine ⟨bin, hbin, ⟨?_, ?_, ?_⟩⟩
        · exact iff_of_false (hindex bin).1 hleft
        · apply iff_of_false (hindex bin).2
          apply not_lt_of_gt
          linarith
        · intro _ _
          refine ⟨bin, rfl, hlt, ?_⟩
          rw [if_neg (not_le_of_gt hstart), if_neg hright]
          exact ⟨hlower, hupper⟩

end Edges

/-- The check of the constructors. -/
theorem EndsAtMax.of_max {h : Histogram} {max : ℚ} (hmax : h.max = max)
    (hend : |h.start + h.nbin * h.binWidth - max| ≤ 1 / 100000000 * h.binWidth) :
    h.EndsAtMax := by
  have hgetMax : h.getMax = max := by rw [getMax, hmax]; rfl
  unfold EndsAtMax
  rwa [hgetMax]

/-- Bins that end exactly at the largest value. -/
theorem EndsAtMax.of_eq {h : Histogram} (hw : 0 < h.binWidth)
    (hend : h.start + h.nbin * h.binWidth = h.getMax) : h.EndsAtMax := by
  unfold EndsAtMax
  rw [hend, sub_self, abs_zero]
  exact mul_nonneg (by norm_num) hw.le

/-- Adjusted bins end at the largest value. -/
theorem endsAtMax_adjustedBins {min max w : ℚ} (hw : 0 < w) (hle : min ≤ max) :
    (adjustedBins min max w).EndsAtMax :=
  EndsAtMax.of_eq (adjusted_bins hw hle).2.1 (adjustedBins_end hw hle)

/-- A bin for one value ends at it. -/
theorem endsAtMax_deltaBin (value : ℚ) (count : ℕ) : (deltaBin value count).EndsAtMax := by
  apply EndsAtMax.of_eq (deltaBin_width_pos value count)
  simp [deltaBin, nbin, getMax]

/-- Counting values leaves the end of the bins where it is. -/
theorem EndsAtMax.congr {h h' : Histogram} (hend : h.EndsAtMax) (hnbin : h'.nbin = h.nbin)
    (hstart : h'.start = h.start) (hw : h'.binWidth = h.binWidth) (hmax : h'.max = h.max) :
    h'.EndsAtMax := by
  have hgetMax : h'.getMax = h.getMax := by rw [getMax, getMax, hmax]
  unfold EndsAtMax
  rw [hnbin, hstart, hw, hgetMax]
  exact hend

/-- The bins of an accepted histogram end at its largest value, up to the mismatch. -/
theorem Accepted.endsAtMax {h : Histogram} (hacc : h.Accepted) : h.EndsAtMax := by
  cases hacc with
  | createHistogram hrun =>
    obtain ⟨lo, hi, -, hcases⟩ := createHistogram_cases hrun
    cases hcases with
    | inl hdelta =>
      obtain ⟨-, rfl⟩ := hdelta
      exact endsAtMax_deltaBin lo _
    | inr hfill =>
      obtain ⟨hlt, w, -, hfill⟩ := hfill
      have hadj := (fillHistogram_adjusted hfill).1
      exact (endsAtMax_adjustedBins hadj.width_pos hlt.le).congr hadj.nbin_eq hadj.start_eq
        hadj.binWidth_eq hadj.max_eq
  | createHistogramIn hrun =>
    obtain ⟨-, -, -, -, hend, rfl, rfl, -, hmax⟩ := createHistogramIn_edges hrun
    exact EndsAtMax.of_max hmax hend
  | setHistogram hrun =>
    obtain ⟨-, -, -, hend, rfl, rfl, -, hmax⟩ := setHistogram_edges hrun
    exact EndsAtMax.of_max hmax hend

/-- Looking up a value in an accepted histogram cannot fail and finds the bin whose edges contain
it, exactly if the value does not lie past the end of the bins and below the largest value. -/
theorem getBin_consistent {h : Histogram} (hacc : h.Accepted) (hpos : 0 < h.nbin)
    (hw : 0 < h.binWidth) {v tol : ℚ} (htol : 0 ≤ tol) :
    (∃ b, h.getBin v tol = .ok b ∧ h.BinFound v tol b) ↔
      ¬(h.start + h.nbin * h.binWidth < v ∧ v < h.getMax) :=
  getBin_found_iff hpos hw htol hacc.endsAtMax

/-- Four bins of which the last ends at the largest value: the inner edge belongs to the bin
below it. -/
theorem getBin_consistent_edge :
    ∃ h, setHistogram [1, 2, 0, 4] (11 / 100) (1 / 2) (1 / 10) (1 / 10) = .ok h ∧
      ((∃ b, h.getBin (1 / 5) (1 / 20) = .ok b ∧ h.BinFound (1 / 5) (1 / 20) b) ↔
        ¬(h.start + h.nbin * h.binWidth < 1 / 5 ∧ 1 / 5 < h.getMax)) := by
  have hset : setHistogram [1, 2, 0, 4] (11 / 100) (1 / 2) (1 / 10) (1 / 10) =
      .ok { counts := [1, 2, 0, 4], start := 1 / 10, binWidth := 1 / 10, min := (11 / 100 : ℚ),
            max := (1 / 2 : ℚ) } := by
    decide +kernel
  exact ⟨_, hset, getBin_consistent (.setHistogram hset) (by decide) (by norm_num) (by norm_num)⟩

/-- One bin that ends a little below the stored largest value: a value in between has no bin. -/
theorem not_getBin_consistent_mismatch :
    ∃ h, setHistogram [1] 1 (2 + 1 / 1000000000) 1 1 = .ok h ∧ 0 < h.nbin ∧ 0 < h.binWidth ∧
      ¬∃ b, h.getBin (2 + 1 / 2000000000) 0 = .ok b := by
  refine ⟨⟨[1], 1, 1, ((1 : ℚ) : WithTop ℚ), ((2 + 1 / 1000000000 : ℚ) : WithBot ℚ)⟩,
    by decide +kernel, by decide, by norm_num, ?_⟩
  rintro ⟨b, hb⟩
  rw [getBin_gap (by decide) (by norm_num) le_rfl (by norm_num)] at hb
  · cases hb
  · unfold InGap
    norm_num [nbin, getMax]

end Histogram

end Chimbuko
