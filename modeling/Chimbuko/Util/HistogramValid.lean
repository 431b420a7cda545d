import Chimbuko.Util.HistogramExtract
import Mathlib.Algebra.BigOperators.Ring.Finset

/-!
# Valid histograms

What the histograms that the class produces have in common: the smallest value lies in the first
bin and the bins are in order. The variable bin width copy of such a histogram is a chain that
starts at the first edge, ends at the largest value and holds the same counts.
-/

namespace Chimbuko

open IntervalChain

namespace Histogram

/-- The bins have extent and the last one ends past its lower edge. -/
def Extended (h : Histogram) : Prop :=
  0 < h.binWidth ∧ h.binEdgeLower (h.nbin - 1) < h.getMax

/-- There are bins, the smallest value lies in the first of them, and the bins are in order. All
bins may coincide in a point. -/
structure Valid (h : Histogram) : Prop where
  nbin_pos : 0 < h.nbin
  min_eq : h.min = (h.getMin : WithTop ℚ)
  max_eq : h.max = (h.getMax : WithBot ℚ)
  start_le_min : h.start ≤ h.getMin
  min_le_max : h.getMin ≤ h.getMax
  min_le_first : h.getMin ≤ (h.binEdges 0).2
  extent : h.Extended ∨ h.binWidth = 0 ∧ h.getMax = h.start

/-- One bin of a histogram. -/
def bin (h : Histogram) (b : ℕ) : HistogramVBW.Bin :=
  ⟨(h.binEdges b).1, (h.binEdges b).2, h.binCount b⟩

/-- All bins of a histogram. -/
def bins (h : Histogram) : List HistogramVBW.Bin := (List.range h.nbin).map h.bin

/-- There are as many bins as counts. -/
@[simp] theorem bins_length (h : Histogram) : h.bins.length = h.nbin := by
  rw [bins, List.length_map, List.length_range]

/-- There are bins if their number is positive. -/
theorem bins_ne_nil {h : Histogram} (hpos : 0 < h.nbin) : h.bins ≠ [] :=
  List.ne_nil_of_length_pos (by rwa [bins_length])

/-- An inner upper edge is the next lower edge. -/
theorem binEdges_snd_eq_lower (h : Histogram) {b : ℕ} (hb : b + 1 ≠ h.nbin) :
    (h.binEdges b).2 = h.binEdgeLower (b + 1) := by
  simp only [binEdges, if_neg hb, binEdgeLower]
  push_cast
  ring

/-- The last bin ends at the largest value. -/
theorem binEdges_snd_last (h : Histogram) {b : ℕ} (hb : b + 1 = h.nbin) :
    (h.binEdges b).2 = h.getMax := by
  simp only [binEdges, if_pos hb]

/-- The lower edges rise with a positive bin width. -/
theorem binEdgeLower_mono (h : Histogram) (hw : 0 ≤ h.binWidth) {b b' : ℕ} (hb : b ≤ b') :
    h.binEdgeLower b ≤ h.binEdgeLower b' := by
  have hcast : (b : ℚ) ≤ b' := Nat.cast_le.mpr hb
  have := mul_le_mul_of_nonneg_right hcast hw
  simpa only [binEdgeLower, add_le_add_iff_left] using this

/-- The bins start below the largest value. -/
theorem Extended.start_lt_max {h : Histogram} (he : h.Extended) : h.start < h.getMax := by
  have hmono := h.binEdgeLower_mono he.1.le (Nat.zero_le (h.nbin - 1))
  have hzero : h.binEdgeLower 0 = h.start := by simp [binEdgeLower]
  exact (hzero ▸ hmono).trans_lt he.2

/-- The bins from some index on form a chain that ends at the largest value. -/
private theorem linked_range' {h : Histogram} (he : h.Extended) (m k : ℕ)
    (hk : k + m = h.nbin) :
    Linked (h.binEdgeLower k) ((List.range' k m).map h.bin) ∧
      (0 < m → endpoint (h.binEdgeLower k) ((List.range' k m).map h.bin) = h.getMax) := by
  induction m generalizing k with
  | zero => exact ⟨trivial, fun hpos => absurd hpos (lt_irrefl 0)⟩
  | succ m ih =>
    obtain ⟨hlinked, hend⟩ := ih (k + 1) (by omega)
    have hlt : (h.bin k).l < (h.bin k).u := by
      change h.binEdgeLower k < (h.binEdges k).2
      by_cases hlast : k + 1 = h.nbin
      · rw [binEdges_snd_last h hlast]
        have hk' : h.nbin - 1 = k := by omega
        exact hk' ▸ he.2
      · rw [binEdges_snd_eq_lower h hlast]
        have := he.1
        simp only [binEdgeLower]
        push_cast
        linarith
    rw [List.range'_succ, List.map_cons]
    by_cases hm : m = 0
    · subst hm
      refine ⟨⟨rfl, hlt, trivial⟩, fun _ => ?_⟩
      exact binEdges_snd_last h (by omega)
    · have hupper : (h.bin k).u = h.binEdgeLower (k + 1) :=
        binEdges_snd_eq_lower h (by omega)
      refine ⟨⟨rfl, hlt, hupper ▸ hlinked⟩, fun _ => ?_⟩
      rw [endpoint, hupper]
      exact hend (Nat.pos_of_ne_zero hm)

/-- The bins form a chain from the first edge to the largest value. -/
theorem linked_bins {h : Histogram} (hpos : 0 < h.nbin) (he : h.Extended) :
    Linked h.start h.bins ∧ endpoint h.start h.bins = h.getMax := by
  have hzero : h.binEdgeLower 0 = h.start := by simp [binEdgeLower]
  obtain ⟨hlinked, hend⟩ := linked_range' he h.nbin 0 (Nat.zero_add _)
  rw [hzero, ← List.range_eq_range'] at hlinked hend
  exact ⟨hlinked, hend hpos⟩

/-- The count of a bin. -/
theorem binCount_eq (h : Histogram) {b : ℕ} (hb : b < h.counts.length) :
    h.binCount b = h.counts[b] := by
  simp [binCount, List.getElem?_eq_getElem hb]

/-- The chain holds the counts of the histogram. -/
theorem content_bins (h : Histogram) : content h.bins = h.totalCount := by
  have hcounts : (List.range h.nbin).map h.binCount = h.counts := by
    refine List.ext_getElem (by simp [nbin]) fun i hi hi' => ?_
    rw [List.getElem_map, List.getElem_range, binCount_eq h hi']
  rw [content, bins, List.map_map]
  change ((List.range h.nbin).map fun b => (h.binCount b : ℤ)).sum = _
  have hsum : ((List.range h.nbin).map fun b => (h.binCount b : ℤ)) =
      ((List.range h.nbin).map h.binCount).map Nat.cast := by
    rw [List.map_map]
    rfl
  rw [hsum, hcounts, ← Nat.cast_list_sum]
  rfl

/-- Counts are not negative. -/
theorem bins_nonneg (h : Histogram) : ∀ b ∈ h.bins, 0 ≤ b.c := by
  intro b hb
  obtain ⟨i, -, rfl⟩ := List.mem_map.mp hb
  exact Int.natCast_nonneg _

end Histogram

namespace HistogramVBW

open Histogram

/-- Importing appends one bin after another. -/
private theorem importHistogram_loop {h : Histogram} (hw : 0 ≤ h.binWidth)
    (hlast : h.binEdgeLower (h.nbin - 1) ≤ h.getMax) (m k : ℕ) (hk : 0 < k)
    (hkm : k + m = h.nbin) :
    (List.range' k m).foldlM (fun (chain : List Bin × ℚ) b =>
        let be := h.binEdges b
        let prevUpper := chain.2
        let reldiff := 2 * (be.1 - prevUpper) / (be.1 + prevUpper)
        if 1 / 100000000 < |reldiff| then
          throw "Lower bin edge should match upper bin edge of previous bin!"
        else do
          let bins ← insertRight chain.1 (chain.1.length - 1)
            { l := prevUpper, u := be.2, c := h.binCount b }
          pure (bins, be.2))
      (((List.range k).map h.bin, (h.binEdges (k - 1)).2) : List Bin × ℚ) =
      (.ok (h.bins, (h.binEdges (h.nbin - 1)).2) : Except String (List Bin × ℚ)) := by
  induction m generalizing k with
  | zero =>
    obtain rfl : k = h.nbin := by omega
    rfl
  | succ m ih =>
    have hprev : (h.binEdges (k - 1)).2 = (h.binEdges k).1 := by
      have := binEdges_snd_eq_lower h (show k - 1 + 1 ≠ h.nbin by omega)
      rwa [Nat.sub_add_cancel hk] at this
    have hget : ((List.range k).map h.bin)[k - 1]? = some (h.bin (k - 1)) := by
      rw [List.getElem?_map, List.getElem?_range (by omega)]
      rfl
    have hle : (h.binEdges k).1 ≤ (h.binEdges k).2 := by
      change h.binEdgeLower k ≤ _
      by_cases hend : k + 1 = h.nbin
      · rw [binEdges_snd_last h hend]
        have hk' : h.nbin - 1 = k := by omega
        exact hk' ▸ hlast
      · rw [binEdges_snd_eq_lower h hend]
        exact h.binEdgeLower_mono hw (Nat.le_succ k)
    have hinsert : insertRight ((List.range k).map h.bin) (k - 1) (h.bin k) =
        .ok ((List.range (k + 1)).map h.bin) := by
      rw [insertRight, hget]
      have hl : ¬((h.bin k).l < (h.bin (k - 1)).u ∨ (h.bin k).u < (h.bin (k - 1)).u) := by
        change ¬((h.binEdges k).1 < (h.binEdges (k - 1)).2 ∨
          (h.binEdges k).2 < (h.binEdges (k - 1)).2)
        rw [hprev]
        exact fun hor => hor.elim (lt_irrefl _) (not_lt_of_ge hle)
      simp only [if_neg hl]
      have hlength : k - 1 + 1 = ((List.range k).map h.bin).length := by simp; omega
      rw [hlength, List.insertIdx_length_self, List.range_succ, List.map_append]
      rfl
    rw [List.range'_succ, List.foldlM_cons]
    simp only [hprev, sub_self, mul_zero, zero_div, abs_zero, List.length_map, List.length_range]
    rw [if_neg (by norm_num), ← ih (k + 1) (Nat.succ_pos k) (by omega)]
    change (insertRight _ (k - 1) (h.bin k) >>= _) >>= _ = _
    rw [hinsert]
    rfl

/-- The variable bin width copy of a histogram whose bins are in order. -/
theorem importHistogram_ok {h : Histogram} (hpos : 0 < h.nbin) (hw : 0 ≤ h.binWidth)
    (hlast : h.binEdgeLower (h.nbin - 1) ≤ h.getMax) :
    importHistogram h = .ok { bins := h.bins, min := h.getMin, max := h.getMax } := by
  have hloop := importHistogram_loop hw hlast (h.nbin - 1) 1 Nat.one_pos (by omega)
  rw [importHistogram, if_neg hpos.ne']
  change (List.foldlM _ (((List.range 1).map h.bin, (h.binEdges (1 - 1)).2) : List Bin × ℚ)
    (List.range' 1 (h.nbin - 1)) >>= _) = _
  rw [hloop]
  rfl

end HistogramVBW

end Chimbuko
