import Chimbuko.Util.HistogramValid
import Mathlib.Algebra.Order.BigOperators.Group.List

/-!
# Transferring a histogram's counts to new bins

New bins that reach from below a histogram's smallest value to its largest or past it receive all
of its counts, except for what the split at the new first edge rounds to the left of it when that
edge falls inside the first bin. The counts of data without extent are moved as a whole.
-/

namespace Chimbuko

open IntervalChain

namespace HistogramVBW

/-- The count of a data set without extent goes to exactly one of adjacent ranges that cover its
value. -/
theorem extractDelta_ranges (points : List ℚ) {e v last : ℚ} {count : ℤ} (hcount : 0 ≤ count)
    (hasc : Ascending e (points ++ [last])) (he : e < v) (hv : v ≤ last) :
    ∃ out, extractDelta v count (ranges e (points ++ [last])) = .ok (out, true) ∧
      out.length = points.length + 1 ∧ (∀ x ∈ out, 0 ≤ x) ∧ out.sum = count := by
  induction points generalizing e with
  | nil =>
    refine ⟨[count], ?_, rfl, by simpa using hcount, List.sum_singleton⟩
    have hlt : e < last := hasc.1
    rw [List.nil_append, ranges, ranges, extractDelta, if_neg (not_le_of_gt hlt),
      if_pos ⟨he, hv⟩]
    rfl
  | cons u points ih =>
    obtain ⟨heu, hasc⟩ := hasc
    rw [List.cons_append, ranges, extractDelta, if_neg (not_le_of_gt heu)]
    by_cases hvu : v ≤ u
    · refine ⟨count :: List.replicate (points.length + 1) 0, ?_, by simp, ?_, by simp⟩
      · rw [if_pos ⟨he, hvu⟩, ranges_length, List.length_append]
        rfl
      · intro x hx
        rcases List.mem_cons.mp hx with rfl | hx
        · exact hcount
        · exact (List.eq_of_mem_replicate hx).ge
    · obtain ⟨out, hrun, hlength, hnonneg, hsum⟩ := ih hasc (lt_of_not_ge hvu)
      refine ⟨0 :: out, ?_, by simp [hlength], List.forall_mem_cons.mpr ⟨le_rfl, hnonneg⟩,
        by simpa using hsum⟩
      rw [if_neg fun h => hvu h.2, hrun]
      rfl

/-- Bins without negative counts have no negative content. -/
theorem content_nonneg {bins : List Bin} (h : ∀ b ∈ bins, 0 ≤ b.c) :
    0 ≤ content bins := by
  induction bins with
  | nil => exact le_rfl
  | cons b rest ih =>
    exact add_nonneg (h b List.mem_cons_self) (ih fun d hd => h d (List.mem_cons_of_mem _ hd))

/-- Extraction over adjacent ranges that reach to the end of the chain or past it leaves behind
only what lies below the first edge. -/
theorem extractRanges_all {a e last : ℚ} {bins : List Bin} (hlink : Linked a bins)
    (hne : bins ≠ []) (hnonneg : ∀ b ∈ bins, 0 ≤ b.c) (hlast : endpoint a bins ≤ last)
    {points : List ℚ} (hasc : Ascending e (points ++ [last])) :
    ∃ out bins', extractRanges bins 0 none (ranges e (points ++ [last])) = .ok (out, bins') ∧
      out.length = points.length + 1 ∧ (∀ x ∈ out, 0 ≤ x) ∧
      content bins' = content (cut splitCounts e bins).1 ∧
      out.sum + content (cut splitCounts e bins).1 = content bins := by
  have hpart : ∀ (b : Bin) (v : ℚ), 0 ≤ b.c → b.l < v → v < b.u →
      0 ≤ (splitCounts b v).1 ∧ 0 ≤ (splitCounts b v).2 := fun b v => splitCounts_nonneg
  obtain ⟨bins', hrun, hleft⟩ := extractRanges_chain hlink hne hasc
  have hremaining := allot_remaining splitCounts points
    (cut_snd_upper splitCounts e fun b hb => (hlink.upper_le_endpoint hb).trans hlast)
  have hsum := allot_sum splitCounts_conserves (points ++ [last]) (cut splitCounts e bins).2
  rw [hremaining, content_nil, add_zero] at hleft hsum
  refine ⟨_, bins', hrun, by simp, ?_, hleft, ?_⟩
  · exact allot_forall hpart le_rfl (fun _ _ => add_nonneg) _ (cut_forall hpart e hnonneg).2
  · rw [hsum, add_comm, content_cut splitCounts_conserves]

/-- Adding lists adds their sums. -/
private theorem zipWith_add_sum {xs ys : List ℤ} (h : xs.length = ys.length) :
    (List.zipWith (· + ·) xs ys).sum = xs.sum + ys.sum := by
  induction xs generalizing ys with
  | nil =>
    cases ys with
    | nil => rfl
    | cons y ys => cases h
  | cons x xs ih =>
    cases ys with
    | nil => cases h
    | cons y ys =>
      rw [List.zipWith_cons_cons, List.sum_cons, List.sum_cons, List.sum_cons,
        ih (Nat.succ.inj h)]
      ring

/-- Adding lists without negative members gives none. -/
private theorem zipWith_add_nonneg {xs ys : List ℤ} (hxs : ∀ x ∈ xs, 0 ≤ x)
    (hys : ∀ y ∈ ys, 0 ≤ y) : ∀ z ∈ List.zipWith (· + ·) xs ys, 0 ≤ z := by
  intro z hz
  rw [← List.map_uncurry_zip_eq_zipWith] at hz
  obtain ⟨⟨x, y⟩, hxy, rfl⟩ := List.mem_map.mp hz
  exact add_nonneg (hxs x (List.of_mem_zip hxy).1) (hys y (List.of_mem_zip hxy).2)

/-- The whole count of a data set without extent is extracted. -/
theorem extract_delta {l v e last : ℚ} {count : ℤ} (hcount : 0 ≤ count) (hlv : l < v)
    {points : List ℚ} (hasc : Ascending e (points ++ [last])) (he : e < v) (hv : v ≤ last) :
    ∃ out vbw', extractUniformCountInRangesInt { bins := [⟨l, v, count⟩], min := v, max := v }
        (ranges e (points ++ [last])) = .ok (out, vbw') ∧
      out.length = points.length + 1 ∧ (∀ x ∈ out, 0 ≤ x) ∧ vbw'.totalCount = 0 ∧
      out.sum = count := by
  obtain ⟨delta, hdelta, hdeltaLength, hdeltaNonneg, hdeltaSum⟩ :=
    extractDelta_ranges points hcount hasc he hv
  have hlink : Linked l [(⟨l, v, 0⟩ : Bin)] := ⟨rfl, hlv, trivial⟩
  have hzero : ∀ b ∈ [(⟨l, v, 0⟩ : Bin)], 0 ≤ b.c := by simp
  obtain ⟨out, bins', hrun, hlength, hnonneg, hleft, hsum⟩ :=
    extractRanges_all hlink (List.cons_ne_nil _ _) hzero hv hasc
  have hout : 0 ≤ out.sum := List.sum_nonneg hnonneg
  have hcut := content_nonneg
    (cut_forall (fun (b : Bin) (w : ℚ) => splitCounts_nonneg) e hzero).1
  have htotal : content [(⟨l, v, 0⟩ : Bin)] = 0 := rfl
  refine ⟨List.zipWith (· + ·) delta out, { bins := bins', min := v, max := v }, ?_, ?_,
    zipWith_add_nonneg hdeltaNonneg hnonneg, ?_, ?_⟩
  · have hget : getBin [(⟨l, v, count⟩ : Bin)] 0 v = .ok (some 0) := by
      simp [getBin, searchBin, not_le_of_gt hlv, pure, Except.pure]
    rw [extractUniformCountInRangesInt, if_neg (by simp), if_neg (by simp), if_pos rfl]
    change (getBin [(⟨l, v, count⟩ : Bin)] 0 v >>= _) = _
    rw [hget]
    change (extractDelta v count (ranges e (points ++ [last])) >>= _) = _
    rw [hdelta]
    change (extractRanges [(⟨l, v, 0⟩ : Bin)] 0 none (ranges e (points ++ [last])) >>= _) = _
    rw [hrun]
    rfl
  · rw [List.length_zipWith, hdeltaLength, hlength, min_self]
  · change content bins' = 0
    linarith
  · rw [zipWith_add_sum (hdeltaLength.trans hlength.symm), hdeltaSum]
    linarith

end HistogramVBW

namespace Histogram

open HistogramVBW

/-- The count of a histogram that is left of a new first edge. -/
def lost (h : Histogram) (edge : ℚ) : ℤ :=
  if h.getMin = h.getMax then 0 else content (cut splitCounts edge h.bins).1

/-- The share of the first bin that lies left of a new first edge. -/
def firstShare (h : Histogram) (edge : ℚ) : ℚ :=
  (edge - h.start) / ((h.binEdges 0).2 - h.start)

/-- A new first edge takes nothing off the histogram: the data have no extent, or the edge is
not inside the first bin, or the count left of it rounds to zero. -/
def KeepsFirstBin (h : Histogram) (edge : ℚ) : Prop :=
  h.getMin = h.getMax ∨ edge ≤ h.start ∨ h.firstShare edge * h.binCount 0 < 1 / 2 ∨
    h.binCount 0 = 1 ∧ h.firstShare edge = 1 / 2

/-- The first bin comes first. -/
private theorem bins_eq_cons {h : Histogram} (hpos : 0 < h.nbin) :
    ∃ rest, h.bins = h.bin 0 :: rest := by
  refine ⟨(List.range' 1 (h.nbin - 1)).map h.bin, ?_⟩
  rw [bins, List.range_eq_range', ← Nat.sub_add_cancel hpos, List.range'_succ]
  rfl

/-- What a new first edge below the smallest value cuts off comes from the first bin. -/
theorem lost_eq_zero_iff {h : Histogram} (hv : h.Valid) {edge : ℚ} (hedge : edge < h.getMin) :
    h.lost edge = 0 ↔ h.KeepsFirstBin edge := by
  rw [lost, KeepsFirstBin]
  split
  · rename_i hdelta
    simp [hdelta]
  rename_i hdelta
  simp only [hdelta, false_or]
  have he : h.Extended := by
    refine hv.extent.resolve_right fun hpoint => hdelta ?_
    exact le_antisymm hv.min_le_max (hpoint.2.trans_le hv.start_le_min)
  obtain ⟨rest, hbins⟩ := bins_eq_cons hv.nbin_pos
  have hlinked := (linked_bins hv.nbin_pos he).1
  rw [hbins] at hlinked ⊢
  by_cases hle : edge ≤ h.start
  · rw [cut_of_le splitCounts edge hlinked hle]
    simp [hle]
  have hl : (h.bin 0).l < edge := hlinked.1 ▸ lt_of_not_ge hle
  have hu : edge < (h.bin 0).u := hedge.trans_le hv.min_le_first
  rw [cut, if_neg (not_le_of_gt hu), if_pos hl]
  change (splitCounts (h.bin 0) edge).1 + 0 = 0 ↔ _
  rw [add_zero, splitCounts_fst_eq_zero_iff (Int.natCast_nonneg _) hl hu]
  have hshare : fractionBelow (h.bin 0) edge = h.firstShare edge := by
    rw [fractionBelow, hlinked.1]
    rfl
  have hc : (h.bin 0).c = h.binCount 0 := rfl
  rw [hshare, hc, Int.cast_natCast, Nat.cast_eq_one]
  simp [hle]

/-- Data without extent are held in a single bin, as the next one would start past them. -/
theorem bins_of_min_eq_max {h : Histogram} (hv : h.Valid) (he : h.Extended)
    (hdelta : h.getMin = h.getMax) : h.bins = [⟨h.start, h.getMax, h.binCount 0⟩] := by
  have hsingle : h.nbin = 1 := by
    by_contra hn
    have hpos := hv.nbin_pos
    have hfirst := hv.min_le_first
    rw [binEdges_snd_eq_lower h (by omega), hdelta] at hfirst
    exact absurd (hfirst.trans (h.binEdgeLower_mono he.1.le (by omega))) (not_le_of_gt he.2)
  have hbin : h.bin 0 = ⟨h.start, h.getMax, h.binCount 0⟩ := by
    simp [bin, binEdges, hsingle]
  rw [bins, hsingle, ← hbin]
  rfl

/-- Extracting the counts of a histogram over adjacent ranges from below its smallest value to
its largest or past it moves all but what is left of the first edge. -/
theorem extract_ok {h : Histogram} (hv : h.Valid) (he : h.Extended) {points : List ℚ}
    {edge last : ℚ} (hasc : Ascending edge (points ++ [last])) (hedge : edge < h.getMin)
    (hlast : h.getMax ≤ last) :
    ∃ vbw out vbw', importHistogram h = .ok vbw ∧
      extractUniformCountInRangesInt vbw (ranges edge (points ++ [last])) = .ok (out, vbw') ∧
      out.length = points.length + 1 ∧ (∀ x ∈ out, 0 ≤ x) ∧
      vbw'.totalCount = h.lost edge ∧ out.sum + h.lost edge = h.totalCount := by
  obtain ⟨hlinked, hend⟩ := linked_bins hv.nbin_pos he
  have hne := bins_ne_nil hv.nbin_pos
  have himport := importHistogram_ok hv.nbin_pos he.1.le he.2.le
  by_cases hdelta : h.getMin = h.getMax
  · have hbins := bins_of_min_eq_max hv he hdelta
    have hcount := h.content_bins
    rw [hbins] at himport hcount
    rw [hdelta] at himport hedge
    obtain ⟨out, vbw', hrun, hlength, hnonneg, hleft, hsum⟩ :=
      extract_delta (Int.natCast_nonneg (h.binCount 0)) he.start_lt_max hasc hedge hlast
    refine ⟨_, out, vbw', himport, hrun, hlength, hnonneg, ?_, ?_⟩
    · rw [hleft, lost, if_pos hdelta]
    · rw [lost, if_pos hdelta, add_zero, hsum, ← hcount]
      exact (add_zero _).symm
  · obtain ⟨out, bins', hrun, hlength, hnonneg, hleft, hsum⟩ :=
      extractRanges_all hlinked hne h.bins_nonneg (hend.trans_le hlast) hasc
    refine ⟨_, out, { bins := bins', min := h.getMin, max := h.getMax }, himport, ?_, hlength,
      hnonneg, ?_, ?_⟩
    · rw [extractUniformCountInRangesInt, if_neg (by simp), if_neg fun hzero =>
        hne (List.length_eq_zero_iff.mp hzero), if_neg (Ne.symm hdelta)]
      change (extractRanges h.bins 0 none (ranges edge (points ++ [last])) >>= _) = _
      rw [hrun]
      rfl
    · rw [lost, if_neg hdelta]
      exact hleft
    · rw [lost, if_neg hdelta, hsum, h.content_bins]

/-- The copy of a histogram whose bins coincide in a point, in which no search finds the data. -/
theorem importHistogram_point {h : Histogram} (hv : h.Valid)
    (hpoint : h.binWidth = 0 ∧ h.getMax = h.start) :
    importHistogram h = .ok { bins := h.bins, min := h.getMin, max := h.getMax } ∧
      h.getMax = h.getMin ∧ HistogramVBW.getBin h.bins 0 h.getMax = .ok none := by
  have hlast : h.binEdgeLower (h.nbin - 1) ≤ h.getMax := by
    rw [binEdgeLower, hpoint.1, hpoint.2, mul_zero, add_zero]
  refine ⟨importHistogram_ok hv.nbin_pos hpoint.1.ge hlast,
    le_antisymm (hpoint.2.trans_le hv.start_le_min) hv.min_le_max, ?_⟩
  obtain ⟨rest, hbins⟩ := bins_eq_cons hv.nbin_pos
  have hl : (h.bin 0).l = h.start := by simp [bin, binEdges]
  rw [hbins, HistogramVBW.getBin]
  simp [hl, hpoint.2, pure, Except.pure]

/-- A histogram whose bins coincide in a point cannot be extracted from. -/
theorem extract_point {h : Histogram} (hv : h.Valid) (hpoint : h.binWidth = 0 ∧ h.getMax = h.start)
    {edges : List (ℚ × ℚ)} (hedges : edges ≠ []) {vbw : HistogramVBW}
    (himport : importHistogram h = .ok vbw) :
    ∃ message, extractUniformCountInRangesInt vbw edges = .error message := by
  obtain ⟨himport', hdelta, hget⟩ := importHistogram_point hv hpoint
  obtain rfl := Except.ok.inj (himport'.symm.trans himport)
  refine ⟨"undefined: null pointer", ?_⟩
  rw [extractUniformCountInRangesInt, if_neg (by simpa using hedges),
    if_neg fun hzero => bins_ne_nil hv.nbin_pos (List.length_eq_zero_iff.mp hzero),
    if_pos hdelta]
  change (HistogramVBW.getBin h.bins 0 h.getMax >>= _) = _
  rw [hget]
  rfl

end Histogram

end Chimbuko
