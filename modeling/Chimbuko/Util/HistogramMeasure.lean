import Chimbuko.Library.UniformMass
import Chimbuko.Util.HistogramBins
import Chimbuko.Util.HistogramCDF

/-!
# The measure of a histogram

Spread over its bins, the counts of a histogram are masses over consecutive cells, if the last bin
ends where the number of bins and their width say. The number of values in a range is then the mass
up to its upper bound less that up to its lower bound, in every branch of the code, so ranges add
up and the empirical distribution function rises from zero to one. Data of one value are a mass in
a point instead.
-/

namespace Chimbuko

namespace Histogram

/-- The bins have extent and end exactly at the largest value. -/
structure Exact (h : Histogram) : Prop where
  binWidth_pos : 0 < h.binWidth
  ends : h.start + h.nbin * h.binWidth = h.getMax

/-- There are bins, and just one if the extremes agree. -/
def HasBins (h : Histogram) : Prop := 0 < h.nbin ∧ (h.getMax = h.getMin → h.nbin = 1)

/-- The number of values up to some value, with those of a bin spread uniformly over it. -/
def mass (h : Histogram) (v : ℚ) : ℚ :=
  UniformMass.upTo (h.counts.map Nat.cast) ((v - h.start) / h.binWidth)

/-- More lies up to a larger value. -/
theorem mass_mono {h : Histogram} (hx : h.Exact) {v v' : ℚ} (hle : v ≤ v') :
    h.mass v ≤ h.mass v' := by
  apply UniformMass.upTo_mono
  · intro c hc
    obtain ⟨n, -, rfl⟩ := List.mem_map.mp hc
    exact Nat.cast_nonneg n
  · exact div_le_div_of_nonneg_right (by linarith) hx.binWidth_pos.le

/-- Nothing lies up to the start. -/
theorem mass_of_le_start {h : Histogram} (hx : h.Exact) {v : ℚ} (hv : v ≤ h.start) :
    h.mass v = 0 := by
  apply UniformMass.upTo_of_nonpos
  exact div_nonpos_of_nonpos_of_nonneg (by linarith) hx.binWidth_pos.le

/-- Everything lies up to the maximum. -/
theorem mass_of_max_le {h : Histogram} (hx : h.Exact) {v : ℚ} (hv : h.getMax ≤ v) :
    h.mass v = h.totalCount := by
  unfold mass
  rw [UniformMass.upTo_of_length_le, ← Nat.cast_list_sum]
  · rfl
  · have hend := hx.ends
    rw [List.length_map, le_div_iff₀ hx.binWidth_pos]
    change (h.nbin : ℚ) * h.binWidth ≤ v - h.start
    linarith

/-- Within a bin: the counts of the bins before it, and the share of its own. -/
theorem mass_of_mem {h : Histogram} (hx : h.Exact) {b : ℕ} (hb : b < h.nbin) {v : ℚ}
    (hlower : h.start + b * h.binWidth ≤ v) (hupper : v ≤ h.start + (b + 1) * h.binWidth) :
    h.mass v = (h.counts.take b).sum + h.binCount b * ((v - (h.start + b * h.binWidth)) /
      h.binWidth) := by
  have hw := hx.binWidth_pos
  have hlt : b < h.counts.length := hb
  have hlength : ((h.counts.take b).map (Nat.cast : ℕ → ℚ)).length = b := by
    rw [List.length_map, List.length_take, min_eq_left hlt.le]
  have hsplit : h.counts.map (Nat.cast : ℕ → ℚ) = (h.counts.take b).map Nat.cast ++
      (h.binCount b : ℚ) :: (h.counts.drop (b + 1)).map Nat.cast := by
    rw [binCount_eq h hlt, ← List.map_cons, ← List.map_append, ← List.drop_eq_getElem_cons,
      List.take_append_drop]
  unfold mass
  rw [hsplit, UniformMass.upTo_of_mem]
  · rw [hlength, ← Nat.cast_list_sum]
    congr 2
    field_simp
    ring
  · rw [hlength, le_div_iff₀ hw]
    linarith
  · rw [hlength, div_le_iff₀ hw]
    linarith

/-- The counts of consecutive bins add up. -/
theorem sum_take_add (h : Histogram) (m k : ℕ) (hk : k + m ≤ h.nbin) :
    (h.counts.take (k + m)).sum =
      (h.counts.take k).sum + ((List.range' k m).map h.binCount).sum := by
  induction m with
  | zero => simp
  | succ m ih =>
    have hlt : k + m < h.counts.length := hk
    rw [List.range'_concat, List.map_append, List.sum_append, ← add_assoc (List.sum _),
      ← ih (by omega), ← add_assoc k, List.take_add_one, List.sum_append,
      List.getElem?_eq_getElem hlt]
    simp [binCount_eq h hlt]

/-- A bound of a range is moved to a value in some bin, which changes nothing about what lies below
it. -/
structure MovedTo (h : Histogram) (v : ℚ) (b : ℕ) (v' : ℚ) : Prop where
  lt : b < h.nbin
  lower : h.start + b * h.binWidth ≤ v'
  upper : v' ≤ h.start + (b + 1) * h.binWidth
  mass : h.mass v' = h.mass v

section Range

variable {h : Histogram} (hx : h.Exact)
include hx

/-- Every inner upper edge, and the last one, lie on the grid. -/
theorem Exact.binEdges_snd (b : ℕ) : (h.binEdges b).2 = h.start + (b + 1) * h.binWidth := by
  by_cases hlast : b + 1 = h.nbin
  · have hcast : (h.nbin : ℚ) = b + 1 := by
      rw [← hlast]
      push_cast
      rfl
    rw [binEdges_snd_last h hlast, ← hx.ends, hcast]
  · rw [binEdges_snd_eq_lower h hlast, binEdgeLower]
    push_cast
    rfl

/-- The bins of an exact histogram end at its maximum. -/
theorem Exact.endsAtMax : h.EndsAtMax := EndsAtMax.of_eq hx.binWidth_pos hx.ends

variable (hpos : 0 < h.nbin)
include hpos

/-- The start lies below the maximum. -/
theorem Exact.start_lt_max : h.start < h.getMax := hx.endsAtMax.start_lt_max hpos hx.binWidth_pos

/-- A value past the first edge and up to the largest value lies in a bin. -/
theorem getBin_exact {v : ℚ} (hstart : h.start < v) (hv : v ≤ h.getMax) :
    ∃ b : ℕ, h.getBin v 0 = .ok (b : ℤ) ∧ h.start + b * h.binWidth < v ∧ h.MovedTo v b v := by
  have hw := hx.binWidth_pos
  have hgap : ¬h.InGap v := by
    rintro ⟨hlt, -⟩
    rw [hx.ends] at hlt
    exact absurd hv (not_le_of_gt hlt)
  cases hv.lt_or_eq with
  | inl hlt =>
    obtain ⟨b, hbin, hb, hlower, hupper⟩ := getBin_inner hpos hw le_rfl hstart hlt hgap
    rw [hx.binEdges_snd] at hupper
    exact ⟨b, hbin, hlower, ⟨hb, hlower.le, hupper, rfl⟩⟩
  | inr heq =>
    have hlower := hx.endsAtMax.lower_lt_max hpos hw
    have hupper := hx.binEdges_snd (h.nbin - 1)
    rw [binEdges_snd_last h (by omega)] at hupper
    refine ⟨h.nbin - 1, ?_, heq ▸ hlower, ⟨by omega, heq ▸ hlower.le, heq ▸ hupper.le, rfl⟩⟩
    rw [getBin_last hpos hw le_rfl hstart (by linarith) heq.ge]
    congr 1
    omega

/-- The bin in which a range starts: a lower bound left of the histogram is moved to the first
edge. -/
theorem lowerBin {l : ℚ} (hl : l ≤ h.getMax) :
    ∃ (lbin : ℤ) (b : ℕ) (l' : ℚ), h.getBin l 0 = .ok lbin ∧ lbin ≠ rightOfHistogram ∧
      (if lbin = leftOfHistogram then h.binEdgeLower 0 else l) = l' ∧
      (if lbin = leftOfHistogram then 0 else lbin.toNat) = b ∧ l' = Max.max l h.start ∧
      (b = 0 ∨ h.start + b * h.binWidth < l') ∧ h.MovedTo l b l' := by
  have hw := hx.binWidth_pos
  cases le_or_gt l h.start with
  | inl hleft =>
    have hmass : h.mass h.start = h.mass l := by
      rw [mass_of_le_start hx le_rfl, mass_of_le_start hx hleft]
    refine ⟨leftOfHistogram, 0, h.start, getBin_left hpos (by linarith), by decide, ?_, rfl,
      (max_eq_right hleft).symm, Or.inl rfl, ⟨hpos, by simp, ?_, hmass⟩⟩
    · rw [if_pos rfl]
      simp [binEdgeLower]
    · rw [Nat.cast_zero]
      linarith
  | inr hstart =>
    obtain ⟨b, hbin, hlower, hmoved⟩ := getBin_exact hx hpos hstart hl
    have hleft : (b : ℤ) ≠ leftOfHistogram := by
      unfold leftOfHistogram
      omega
    have hright : (b : ℤ) ≠ rightOfHistogram := by
      unfold rightOfHistogram
      omega
    refine ⟨b, b, l, hbin, hright, if_neg hleft, ?_, (max_eq_left hstart.le).symm, Or.inr hlower,
      hmoved⟩
    rw [if_neg hleft, Int.toNat_natCast]

/-- The bin in which a range ends: an upper bound right of the histogram is moved to the largest
value. -/
theorem upperBin {u : ℚ} (hu : h.start < u) :
    ∃ (ubin : ℤ) (b : ℕ) (u' : ℚ), h.getBin u 0 = .ok ubin ∧ ubin ≠ leftOfHistogram ∧
      (if ubin = rightOfHistogram then h.getMax else u) = u' ∧
      (if ubin = rightOfHistogram then h.nbin - 1 else ubin.toNat) = b ∧
      u' = Min.min u h.getMax ∧ h.start + b * h.binWidth < u' ∧ h.MovedTo u b u' := by
  have hw := hx.binWidth_pos
  cases lt_or_ge h.getMax u with
  | inl hright =>
    have hlower := hx.endsAtMax.lower_lt_max hpos hw
    have hupper := hx.binEdges_snd (h.nbin - 1)
    rw [binEdges_snd_last h (by omega)] at hupper
    have hmass : h.mass h.getMax = h.mass u := by
      rw [mass_of_max_le hx le_rfl, mass_of_max_le hx hright.le]
    exact ⟨rightOfHistogram, h.nbin - 1, h.getMax,
      getBin_right hpos hw le_rfl hu (by linarith), by decide, if_pos rfl, if_pos rfl,
      (min_eq_right hright.le).symm, hlower, ⟨by omega, hlower.le, hupper.le, hmass⟩⟩
  | inr hmax =>
    obtain ⟨b, hbin, hlower, hmoved⟩ := getBin_exact hx hpos hu hmax
    have hleft : (b : ℤ) ≠ leftOfHistogram := by
      unfold leftOfHistogram
      omega
    have hright : (b : ℤ) ≠ rightOfHistogram := by
      unfold rightOfHistogram
      omega
    refine ⟨b, b, u, hbin, hleft, if_neg hright, ?_, (min_eq_left hmax).symm, hlower, hmoved⟩
    rw [if_neg hright, Int.toNat_natCast]

/-- The number of values in a range is the mass between its bounds, and no assertion fails. -/
theorem uniformCountInRange_eq (hne : h.getMax ≠ h.getMin) {l u : ℚ} (hlu : l < u) :
    h.uniformCountInRange l u = .ok (h.mass u - h.mass l) := by
  have hw := hx.binWidth_pos
  have hstart := hx.start_lt_max hpos
  have hwidth : ∀ b, h.start + ((b : ℕ) + 1) * h.binWidth - (h.binEdges b).1 = h.binWidth := by
    intro b
    change h.start + (b + 1) * h.binWidth - (h.start + b * h.binWidth) = _
    ring
  unfold uniformCountInRange
  rw [if_neg (not_le_of_gt hlu), if_neg hne]
  cases lt_or_ge h.getMax l with
  | inl hright =>
    rw [getBin_right hpos hw le_rfl (hstart.trans hright) (by linarith),
      mass_of_max_le hx hright.le, mass_of_max_le hx (hright.trans hlu).le, sub_self]
    rfl
  | inr hl =>
    obtain ⟨lbin, b, l', hlbin, hlright, hl', hb, hlmax, hbzero, hlmoved⟩ := lowerBin hx hpos hl
    rw [hlbin]
    simp only [bind, Except.bind, if_neg hlright, hl', hb]
    cases le_or_gt u h.start with
    | inl hleft =>
      rw [getBin_left hpos (by linarith), mass_of_le_start hx hleft,
        mass_of_le_start hx (hlu.le.trans hleft), sub_self]
      rfl
    | inr hu =>
      obtain ⟨ubin, b', u', hubin, huleft, hu', hb', humin, hlower, humoved⟩ := upperBin hx hpos hu
      rw [hubin]
      simp only [if_neg huleft, hu', hb', hx.binEdges_snd, hwidth]
      rw [← hlmoved.mass, ← humoved.mass, mass_of_mem hx hlmoved.lt hlmoved.lower hlmoved.upper,
        mass_of_mem hx humoved.lt humoved.lower humoved.upper]
      have hlu' : l' ≤ u' := by
        rw [hlmax, humin]
        exact max_le (le_min hlu.le hl) (le_min hu.le hstart.le)
      by_cases hbb : b = b'
      · subst hbb
        have hassert : ¬(h.binCount b : ℚ) < (u' - l') / h.binWidth * h.binCount b := by
          apply not_lt_of_ge
          apply mul_le_of_le_one_left (Nat.cast_nonneg _)
          rw [div_le_one hw]
          linarith [hlmoved.lower, humoved.upper]
        rw [if_pos rfl, if_neg hassert]
        change Except.ok _ = _
        congr 1
        ring
      · have hlt : b < b' := by
          apply lt_of_le_of_ne _ hbb
          apply Nat.le_of_lt_succ
          cases hbzero with
          | inl hzero => omega
          | inr hlt =>
            have hlast : (b : ℚ) * h.binWidth < (b' + 1) * h.binWidth := by
              linarith [humoved.upper]
            exact_mod_cast lt_of_mul_lt_mul_right hlast hw.le
        have hupper : (h.binEdges b').1 < u' ∧ u' ≤ h.start + (b' + 1) * h.binWidth :=
          ⟨hlower, humoved.upper⟩
        have hlassert : ¬(h.binCount b : ℚ) <
            (h.start + (b + 1) * h.binWidth - l') / h.binWidth * h.binCount b := by
          apply not_lt_of_ge
          apply mul_le_of_le_one_left (Nat.cast_nonneg _)
          rw [div_le_one hw]
          linarith [hlmoved.lower]
        have huassert : ¬(h.binCount b' : ℚ) <
            (u' - (h.binEdges b').1) / h.binWidth * h.binCount b' := by
          apply not_lt_of_ge
          apply mul_le_of_le_one_left (Nat.cast_nonneg _)
          rw [div_le_one hw]
          change u' - (h.start + b' * h.binWidth) ≤ h.binWidth
          linarith [humoved.upper]
        -- the counts before the upper bin are those before the lower one, its own, and the inner
        have hinner := h.sum_take_add (b' - (b + 1)) (b + 1) (by have := humoved.lt; omega)
        have hown := h.sum_take_add 1 b (by have := hlmoved.lt; omega)
        rw [show b + 1 + (b' - (b + 1)) = b' by omega, hown] at hinner
        rw [if_neg hbb, if_neg (not_not.mpr hupper), if_neg hlassert, if_neg huassert, hinner]
        change Except.ok _ = _
        congr 1
        change _ + (u' - (h.start + b' * h.binWidth)) / h.binWidth * _ + _ = _
        simp only [List.range'_one, List.map_cons, List.map_nil, List.sum_singleton]
        push_cast
        field_simp
        ring

end Range

/-- The number of values up to some value. Data of one value are a mass in a point. -/
def countUpTo (h : Histogram) (v : ℚ) : ℚ :=
  if h.getMax = h.getMin then (if h.getMax ≤ v then h.binCount 0 else 0) else h.mass v

section CountUpTo

variable {h : Histogram} (hx : h.Exact) (hbins : h.HasBins)
include hx hbins

/-- The number of values in a range is the difference of those up to its bounds. -/
theorem uniformCountInRange_countUpTo {l u : ℚ} (hlu : l < u) :
    h.uniformCountInRange l u = .ok (h.countUpTo u - h.countUpTo l) := by
  unfold countUpTo
  by_cases hpoint : h.getMax = h.getMin
  · unfold uniformCountInRange
    rw [if_neg (not_le_of_gt hlu), if_pos hpoint, if_neg (not_not.mpr (hbins.2 hpoint)),
      if_pos hpoint, if_pos hpoint]
    change Except.ok _ = _
    by_cases hl : h.getMax ≤ l
    · rw [if_neg (fun hin => absurd hin.1 (not_lt_of_ge hl)), if_pos hl, if_pos (hl.trans hlu.le),
        sub_self]
    · by_cases hu : h.getMax ≤ u
      · rw [if_pos ⟨lt_of_not_ge hl, hu⟩, if_pos hu, if_neg hl, sub_zero]
      · rw [if_neg (fun hin => absurd hin.2 hu), if_neg hu, if_neg hl, sub_zero]
  · rw [if_neg hpoint, if_neg hpoint]
    exact uniformCountInRange_eq hx hbins.1 hpoint hlu

omit hbins in
/-- The interpolated count does not fall. -/
theorem countUpTo_mono {v v' : ℚ} (hle : v ≤ v') : h.countUpTo v ≤ h.countUpTo v' := by
  unfold countUpTo
  split
  · by_cases hv : h.getMax ≤ v
    · rw [if_pos hv, if_pos (hv.trans hle)]
    · rw [if_neg hv]
      split
      · exact Nat.cast_nonneg _
      · exact le_rfl
  · exact mass_mono hx hle

/-- Nothing lies at or below the first edge. -/
theorem countUpTo_of_le_start {v : ℚ} (hv : v ≤ h.start) : h.countUpTo v = 0 := by
  unfold countUpTo
  split
  · exact if_neg (not_le_of_gt (hv.trans_lt (hx.start_lt_max hbins.1)))
  · exact mass_of_le_start hx hv

/-- Everything lies at or below the largest value. -/
theorem countUpTo_of_max_le {v : ℚ} (hv : h.getMax ≤ v) : h.countUpTo v = h.totalCount := by
  unfold countUpTo
  by_cases hpoint : h.getMax = h.getMin
  · obtain ⟨count, hcount⟩ := List.length_eq_one_iff.mp (hbins.2 hpoint)
    rw [if_pos hpoint, if_pos hv, binCount, totalCount, hcount]
    simp
  · rw [if_neg hpoint]
    exact mass_of_max_le hx hv

/-- The interpolated count is not negative. -/
theorem countUpTo_nonneg (v : ℚ) : 0 ≤ h.countUpTo v := by
  rw [← countUpTo_of_le_start hx hbins (min_le_right v h.start)]
  exact countUpTo_mono hx (min_le_left v h.start)

/-- The interpolated count is at most the total count. -/
theorem countUpTo_le_total (v : ℚ) : h.countUpTo v ≤ h.totalCount := by
  rw [← countUpTo_of_max_le hx hbins (le_max_right v h.getMax)]
  exact countUpTo_mono hx (le_max_left v h.getMax)

end CountUpTo

/-- The number of values in a range is a measure: ranges add up, no range holds more than all
values, and one that covers the histogram holds them all. -/
structure Measure (h : Histogram) : Prop where
  additive : ∀ a b c, a < b → b < c → ∃ x y, h.uniformCountInRange a b = .ok x ∧
    h.uniformCountInRange b c = .ok y ∧ h.uniformCountInRange a c = .ok (x + y)
  bounded : ∀ a c, a < c → ∃ x, h.uniformCountInRange a c = .ok x ∧ 0 ≤ x ∧ x ≤ h.totalCount
  total : ∀ a c, a < c → a ≤ h.start → h.getMax ≤ c →
    h.uniformCountInRange a c = .ok (h.totalCount : ℚ)

/-- The empirical distribution function at two values in order: it does not fall, is zero at or
below the first edge and one at or above the largest value. -/
def CdfAt (h : Histogram) (v v' : ℚ) : Prop :=
  ∃ p p', h.empiricalCDF v = .ok p ∧ h.empiricalCDF v' = .ok p' ∧ p ≤ p' ∧
    (v ≤ h.start → p = 0) ∧ (h.getMax ≤ v' → p' = 1)

/-- With bins the interpolated count is a measure. -/
theorem HasBins.measure {h : Histogram} (hx : h.Exact) (hbins : h.HasBins) : h.Measure := by
  refine ⟨?_, ?_, ?_⟩
  · intro a b c hab hbc
    refine ⟨_, _, uniformCountInRange_countUpTo hx hbins hab,
      uniformCountInRange_countUpTo hx hbins hbc, ?_⟩
    rw [uniformCountInRange_countUpTo hx hbins (hab.trans hbc)]
    congr 1
    ring
  · intro a c hac
    refine ⟨_, uniformCountInRange_countUpTo hx hbins hac, ?_, ?_⟩
    · exact sub_nonneg.mpr (countUpTo_mono hx hac.le)
    · exact (sub_le_self _ (countUpTo_nonneg hx hbins a)).trans (countUpTo_le_total hx hbins c)
  · intro a c hac ha hc
    rw [uniformCountInRange_countUpTo hx hbins hac, countUpTo_of_max_le hx hbins hc,
      countUpTo_of_le_start hx hbins ha, sub_zero]

/-- Without bins, or with several of them for data of one value, no range can be looked up. -/
theorem uniformCountInRange_noBins {h : Histogram} (hbins : ¬h.HasBins) {l u : ℚ} (hlu : l < u) :
    ∃ message, h.uniformCountInRange l u = .error message := by
  unfold uniformCountInRange
  rw [if_neg (not_le_of_gt hlu)]
  by_cases hpoint : h.getMax = h.getMin
  · have hnbin : h.nbin ≠ 1 := fun hone => hbins ⟨by omega, fun _ => hone⟩
    rw [if_pos hpoint, if_pos hnbin]
    exact ⟨_, rfl⟩
  · have hnbin : h.nbin = 0 := by
      by_contra hne
      exact hbins ⟨Nat.pos_of_ne_zero hne, fun heq => absurd heq hpoint⟩
    rw [if_neg hpoint, getBin, if_pos hnbin]
    exact ⟨_, rfl⟩

/-- The value of the empirical distribution function above the lowest double. -/
theorem empiricalCDF_eq {h : Histogram} (hx : h.Exact) (hbins : h.HasBins)
    (hstart : -doubleMax ≤ h.start) {v : ℚ} (hv : -doubleMax < v) :
    h.empiricalCDF v = .ok (h.countUpTo v / h.totalCount) := by
  unfold empiricalCDF
  rw [uniformCountInRange_countUpTo hx hbins hv, countUpTo_of_le_start hx hbins hstart, sub_zero]
  rfl

/-- For a histogram whose bins end at its largest value: the number of values in a range is a
measure exactly if there are bins, and a single one if the extremes agree. Then, if it has data,
its empirical distribution function rises from zero at the first edge to one at the largest value,
exactly above the lowest double. -/
theorem measure_cdf_iff {h : Histogram} (hx : h.Exact) (hstart : -doubleMax ≤ h.start) :
    (h.Measure ↔ h.HasBins) ∧ (0 < h.totalCount → ∀ v v', v ≤ v' →
      (h.CdfAt v v' ↔ h.HasBins ∧ -doubleMax < v)) := by
  constructor
  · constructor
    · intro hmeasure
      by_contra hbins
      obtain ⟨x, hx', -⟩ := hmeasure.bounded 0 1 one_pos
      obtain ⟨message, herror⟩ := uniformCountInRange_noBins hbins (one_pos : (0 : ℚ) < 1)
      rw [hx'] at herror
      cases herror
    · exact HasBins.measure hx
  · intro htotal v v' hle
    have htotal' : (0 : ℚ) < h.totalCount := Nat.cast_pos.mpr htotal
    constructor
    · rintro ⟨p, p', hp, -⟩
      unfold empiricalCDF at hp
      have hv : -doubleMax < v := by
        by_contra hlow
        rw [uniformCountInRange, if_pos (le_of_not_gt hlow)] at hp
        cases hp
      refine ⟨?_, hv⟩
      by_contra hbins
      obtain ⟨message, herror⟩ := uniformCountInRange_noBins hbins hv
      rw [herror] at hp
      cases hp
    · rintro ⟨hbins, hv⟩
      refine ⟨_, _, empiricalCDF_eq hx hbins hstart hv,
        empiricalCDF_eq hx hbins hstart (hv.trans_le hle), ?_, ?_, ?_⟩
      · exact div_le_div_of_nonneg_right (countUpTo_mono hx hle) htotal'.le
      · intro hfirst
        rw [countUpTo_of_le_start hx hbins hfirst, zero_div]
      · intro hlast
        rw [countUpTo_of_max_le hx hbins hlast, div_self htotal'.ne']

/-- Three bins of one unit each. -/
def threeBins : Histogram :=
  { counts := [1, 2, 3], start := 0, binWidth := 1, min := (1 : ℚ), max := (3 : ℚ) }

/-- The example is exact. -/
theorem exact_threeBins : threeBins.Exact :=
  ⟨by norm_num [threeBins], by norm_num [threeBins, nbin, getMax]⟩

/-- The largest double is positive. -/
theorem doubleMax_pos : 0 < doubleMax := by
  unfold doubleMax
  norm_num

/-- The example has bins, and so both hold of it. -/
theorem measure_cdf_threeBins : (threeBins.Measure ↔ threeBins.HasBins) ∧
    (threeBins.CdfAt (1 / 2) 2 ↔ threeBins.HasBins ∧ -doubleMax < 1 / 2) := by
  have hboth := measure_cdf_iff exact_threeBins (neg_nonpos.mpr doubleMax_pos.le)
  exact ⟨hboth.1, hboth.2 (by decide) (1 / 2) 2 (by norm_num)⟩

/-- At the lowest double, which lies below the first edge, there is an error. -/
theorem not_cdf_lowest : threeBins.Exact ∧ threeBins.HasBins ∧ 0 < threeBins.totalCount ∧
    -doubleMax ≤ threeBins.start ∧
    threeBins.empiricalCDF (-doubleMax) = .error "Invalid range, require u>l" ∧
    ¬threeBins.CdfAt (-doubleMax) (-doubleMax) := by
  have herror : threeBins.empiricalCDF (-doubleMax) = .error "Invalid range, require u>l" := by
    unfold empiricalCDF
    rw [uniformCountInRange, if_pos le_rfl]
    rfl
  refine ⟨exact_threeBins, ⟨by decide, ?_⟩, by decide, neg_nonpos.mpr doubleMax_pos.le, herror, ?_⟩
  · intro heq
    norm_num [threeBins, getMax, getMin] at heq
  · rintro ⟨p, p', hp, -⟩
    rw [herror] at hp
    cases hp

end Histogram

end Chimbuko
