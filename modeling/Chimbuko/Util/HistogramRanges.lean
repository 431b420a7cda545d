import Chimbuko.Util.HistogramMergeExact

/-!
# Extraction over many ranges and over one range at a time

The extraction over a list of ranges resumes each bin search where the range before it ended.
For data with extent it does what extraction over each range in turn does: both cut the chain at
the ends of the ranges and clear what lies between. For data without extent the single range
version leaves the bins alone, while the list version goes on to the general loop and divides
the one bin at every end of a range that lies inside it.
-/

namespace Chimbuko

namespace HistogramVBW

open IntervalChain

/-- Extraction over one range after another. -/
def extractEach (h : HistogramVBW) : List (ℚ × ℚ) → Except String (List ℤ × HistogramVBW)
  | [] => pure ([], h)
  | (l, u) :: rest => do
    let (count, h) ← extractUniformCountInRangeInt h l u
    let (out, h) ← extractEach h rest
    pure (count :: out, h)

/-- An extraction over one range after another keeps the bins of data with extent a chain. -/
theorem extractEach_eq {h : HistogramVBW} {a : ℚ} {ranges : List (ℚ × ℚ)}
    (hlink : Linked a h.bins) (hne : h.bins ≠ []) (hextent : h.max ≠ h.min)
    (hranges : ∀ r ∈ ranges, r.1 < r.2) :
    extractEach h ranges = .ok ((extractAll splitCounts ranges h.bins).1,
      { h with bins := (extractAll splitCounts ranges h.bins).2 }) := by
  induction ranges generalizing h with
  | nil => rfl
  | cons r rest ih =>
    obtain ⟨l, u⟩ := r
    have hlu : l < u := hranges (l, u) List.mem_cons_self
    obtain ⟨hlinked, -⟩ := extract_linked splitCounts l u hlink
    have hrest : extractEach { h with bins := (extract splitCounts l u h.bins).2 } rest = _ :=
      ih hlinked (extract_ne_nil hne l u) hextent fun q hq => hranges q (List.mem_cons_of_mem _ hq)
    rw [extractEach, extractUniformCountInRangeInt_eq hlink hne hextent hlu]
    change (extractEach { h with bins := (extract splitCounts l u h.bins).2 } rest >>= _) = _
    rw [hrest]
    rfl

/-- The bins of a data set without extent: one bin that ends at its value. -/
private def point (s v : ℚ) (count : ℤ) : HistogramVBW :=
  { bins := [⟨s, v, count⟩], min := v, max := v }

/-- The value of a point lies in its bin. -/
private theorem getBin_point {s v : ℚ} (hsv : s < v) (count : ℤ) :
    getBin [(⟨s, v, count⟩ : Bin)] 0 v = .ok (some 0) := by
  simp [getBin, searchBin, not_le_of_gt hsv, pure, Except.pure]

/-- A range takes all of a point or nothing. -/
private theorem extractUniformCountInRangeInt_point {s v l u : ℚ} (hsv : s < v) (hlu : l < u)
    (count : ℤ) : extractUniformCountInRangeInt (point s v count) l u =
      if l < v ∧ v ≤ u then .ok (count, point s v 0) else .ok (0, point s v count) := by
  rw [extractUniformCountInRangeInt, if_neg (not_le_of_gt hlu), if_neg (by simp [point]),
    if_pos (show (point s v count).max = (point s v count).min from rfl)]
  change (getBin [(⟨s, v, count⟩ : Bin)] 0 v >>= _) = _
  rw [getBin_point hsv]
  rfl

/-- Nothing is extracted from an empty bin. -/
private theorem extractEach_point_zero {s v : ℚ} (hsv : s < v) {ranges : List (ℚ × ℚ)}
    (hranges : ∀ r ∈ ranges, r.1 < r.2) :
    extractEach (point s v 0) ranges = .ok (List.replicate ranges.length 0, point s v 0) := by
  induction ranges with
  | nil => rfl
  | cons r rest ih =>
    rw [extractEach, extractUniformCountInRangeInt_point hsv (hranges r List.mem_cons_self),
      ite_self]
    change (extractEach (point s v 0) rest >>= _) = _
    rw [ih fun q hq => hranges q (List.mem_cons_of_mem _ hq)]
    rfl

/-- Extraction from data without extent, one range after another: the first range that holds the
value gets the count, and the bin stays whole. -/
private theorem extractEach_point {s v : ℚ} (hsv : s < v) {ranges : List (ℚ × ℚ)}
    (hranges : ∀ r ∈ ranges, r.1 < r.2) (count : ℤ) :
    ∃ out found, extractDelta v count ranges = .ok (out, found) ∧ out.length = ranges.length ∧
      (found = false → ∀ r ∈ ranges, ¬(r.1 < v ∧ v ≤ r.2)) ∧
      extractEach (point s v count) ranges =
        .ok (out, point s v (if found then 0 else count)) := by
  induction ranges with
  | nil => exact ⟨[], false, rfl, rfl, fun _ r hr => absurd hr List.not_mem_nil, rfl⟩
  | cons r rest ih =>
    obtain ⟨l, u⟩ := r
    have hlu : l < u := hranges (l, u) List.mem_cons_self
    have hrest : ∀ r ∈ rest, r.1 < r.2 := fun r hr => hranges r (List.mem_cons_of_mem _ hr)
    rw [extractEach, extractUniformCountInRangeInt_point hsv hlu, extractDelta,
      if_neg (not_le_of_gt hlu)]
    by_cases hheld : l < v ∧ v ≤ u
    · refine ⟨count :: List.replicate rest.length 0, true, if_pos hheld, by simp,
        (fun hfound => Bool.noConfusion hfound), ?_⟩
      rw [if_pos hheld]
      change (extractEach (point s v 0) rest >>= _) = _
      rw [extractEach_point_zero hsv hrest]
      rfl
    · obtain ⟨out, found, hdelta, hlength, hnot, hrun⟩ := ih hrest
      refine ⟨0 :: out, found, ?_, congrArg Nat.succ hlength, fun hfound => ?_, ?_⟩
      · rw [if_neg hheld, hdelta]
        rfl
      · exact List.forall_mem_cons.mpr ⟨hheld, hnot hfound⟩
      · rw [if_neg hheld]
        change (extractEach (point s v count) rest >>= _) = _
        rw [hrun]
        rfl

/-- No end of a range lies strictly inside a bin. -/
def KeepsBins (bins : List Bin) (ranges : List (ℚ × ℚ)) : Prop :=
  ∀ b ∈ bins, ∀ r ∈ ranges, ¬(b.l < r.1 ∧ r.1 < b.u) ∧ ¬(b.l < r.2 ∧ r.2 < b.u)

/-- Extraction over a list of ranges from data without extent: after the count is given to the
range that holds the value, the ranges are extracted once more from what is left. -/
private theorem extractUniformCountInRangesInt_point {s v : ℚ} (hsv : s < v)
    {ranges : List (ℚ × ℚ)} (hne : ranges ≠ []) (hranges : InOrder ranges) {count : ℤ}
    {out : List ℤ} {found : Bool} (hdelta : extractDelta v count ranges = .ok (out, found)) :
    extractUniformCountInRangesInt (point s v count) ranges =
      .ok (List.zipWith (· + ·) out
          (extractAll splitCounts ranges [⟨s, v, if found then 0 else count⟩]).1,
        { point s v count with
          bins := (extractAll splitCounts ranges [⟨s, v, if found then 0 else count⟩]).2 }) := by
  have hlink : Linked s [(⟨s, v, if found then 0 else count⟩ : Bin)] := ⟨rfl, hsv, trivial⟩
  have hrun : extractRanges [⟨s, v, if found then 0 else count⟩] 0 none ranges = _ :=
    extractRanges_eq hlink (List.cons_ne_nil _ _) hranges fun r _ =>
      ⟨rfl, [], _, rfl, List.cons_ne_nil _ _, rfl, Or.inl rfl⟩
  have hbins : (if found then [(⟨s, v, count⟩ : Bin)].set 0 ⟨s, v, 0⟩ else [⟨s, v, count⟩]) =
      [(⟨s, v, if found then 0 else count⟩ : Bin)] := by
    cases found <;> rfl
  rw [extractUniformCountInRangesInt, if_neg (mt List.length_eq_zero_iff.mp hne),
    if_neg (by simp [point]), if_pos (show (point s v count).max = (point s v count).min from rfl)]
  change (getBin [(⟨s, v, count⟩ : Bin)] 0 v >>= _) = _
  rw [getBin_point hsv]
  change (extractDelta v count ranges >>= _) = _
  rw [hdelta]
  change (extractRanges (if found then [(⟨s, v, count⟩ : Bin)].set 0 ⟨s, v, 0⟩
    else [⟨s, v, count⟩]) 0 none ranges >>= _) = _
  rw [hbins, hrun]
  rfl

/-- Adding zeros changes nothing. -/
private theorem zipWith_add_replicate_zero (xs : List ℤ) :
    List.zipWith (· + ·) xs (List.replicate xs.length 0) = xs := by
  induction xs with
  | nil => rfl
  | cons x rest ih =>
    rw [List.length_cons, List.replicate_succ, List.zipWith_cons_cons, ih, add_zero]

/-- For data without extent the two extractions agree exactly when no range ends inside the
bin. -/
private theorem extract_point_agree_iff {s v : ℚ} (hsv : s < v) {ranges : List (ℚ × ℚ)}
    (hranges : InOrder ranges) (count : ℤ) :
    extractUniformCountInRangesInt (point s v count) ranges =
        extractEach (point s v count) ranges ↔ KeepsBins [⟨s, v, count⟩] ranges := by
  by_cases hne : ranges = []
  · subst hne
    exact ⟨fun _ b _ r hr => absurd hr List.not_mem_nil, fun _ => rfl⟩
  obtain ⟨out, found, hdelta, hlength, hnot, heach⟩ := extractEach_point hsv hranges.lt count
  rw [extractUniformCountInRangesInt_point hsv hne hranges hdelta, heach]
  set left : List Bin := [⟨s, v, if found then 0 else count⟩] with hleft
  have hlink : Linked s left := ⟨rfl, hsv, trivial⟩
  constructor
  · intro heq b hb r hr
    have hbins : (extractAll splitCounts ranges left).2 = left :=
      congrArg (fun result => result.2.bins) (Except.ok.inj heq)
    have hedge : ∀ e, e = r.1 ∨ e = r.2 → ¬(s < e ∧ e < v) := by
      rintro e he ⟨hl, hu⟩
      have hmem : e ∈ (extractAll splitCounts ranges left).2.map Bin.u :=
        mem_upper_extractAll hlink hranges.lt (Or.inr ⟨r, hr, he, hl, hu⟩)
      rw [hbins] at hmem
      exact hu.ne (List.mem_singleton.mp hmem)
    rw [List.mem_singleton.mp hb]
    exact ⟨hedge r.1 (Or.inl rfl), hedge r.2 (Or.inr rfl)⟩
  · intro hkeeps
    have hzero : extractAll splitCounts ranges left = (List.replicate ranges.length 0, left) := by
      refine extractAll_of_forall fun r hr => ?_
      obtain ⟨hl, hu⟩ := hkeeps _ (List.mem_singleton.mpr rfl) r hr
      have hlt := hranges.lt r hr
      by_cases hpast : v ≤ r.1
      · exact extract_of_ge fun b hb => by rw [List.mem_singleton.mp hb]; exact hpast
      by_cases hbefore : r.2 ≤ s
      · exact extract_of_le hlink hlt hbefore
      -- the range covers the bin, so the count has been given to it or to one before
      have hls : r.1 ≤ s := le_of_not_gt fun h => hl ⟨h, lt_of_not_ge hpast⟩
      have hvu : v ≤ r.2 := le_of_not_gt fun h => hu ⟨lt_of_not_ge hbefore, h⟩
      have hfound : found = true := by
        by_contra hfalse
        exact hnot (Bool.eq_false_iff.mpr hfalse) r hr ⟨lt_of_not_ge hpast, hvu⟩
      have habove : cut splitCounts r.2 left = (left, []) := cut_of_ge splitCounts r.2
        fun b hb => by rw [List.mem_singleton.mp hb]; exact hvu
      rw [extract, cut_of_le splitCounts r.1 hlink hls, habove, hleft, hfound]
      rfl
    rw [hzero, ← hlength, zipWith_add_replicate_zero]
    rfl

end HistogramVBW

namespace Histogram

open IntervalChain HistogramVBW

/-- Extraction over a list of ranges in order does what extraction over one range after another
does exactly when the data have extent or no range ends strictly inside a bin. -/
theorem extractRanges_agree_iff {h : Histogram} (hh : Produced h) {vbw : HistogramVBW}
    (himport : importHistogram h = .ok vbw) {ranges : List (ℚ × ℚ)} (hranges : InOrder ranges) :
    extractUniformCountInRangesInt vbw ranges = extractEach vbw ranges ↔
      vbw.min ≠ vbw.max ∨ KeepsBins vbw.bins ranges := by
  by_cases hne : ranges = []
  · subst hne
    exact ⟨fun _ => Or.inr fun b _ r hr => absurd hr List.not_mem_nil, fun _ => rfl⟩
  obtain ⟨r, rest, rfl⟩ := List.exists_cons_of_ne_nil hne
  rcases Nat.eq_zero_or_pos h.nbin with hzero | hpos
  · -- there is nothing to extract from, and both versions say so
    rw [importHistogram, if_pos hzero] at himport
    obtain rfl := Except.ok.inj himport
    refine ⟨fun _ => Or.inr fun b hb => absurd hb List.not_mem_nil, fun _ => ?_⟩
    rw [extractEach, extractUniformCountInRangeInt, if_neg (not_le_of_gt hranges.1)]
    rfl
  have hv := hh.valid hpos
  rcases hv.extent with he | hpoint
  · have hvbw := himport.symm.trans (importHistogram_ok hpos he.1.le he.2.le)
    obtain rfl := Except.ok.inj hvbw
    obtain ⟨hlink, -⟩ := linked_bins hpos he
    have hbins := bins_ne_nil hpos
    by_cases hdelta : h.getMin = h.getMax
    · have hsingle := bins_of_min_eq_max hv he hdelta
      rw [hsingle, hdelta]
      exact (extract_point_agree_iff he.start_lt_max hranges _).trans
        ⟨Or.inr, fun h => h.resolve_left (absurd rfl)⟩
    · refine ⟨fun _ => Or.inl hdelta, fun _ => ?_⟩
      have hrun : extractRanges h.bins 0 none (r :: rest) = _ :=
        extractRanges_eq hlink hbins hranges fun r _ =>
          ⟨rfl, [], _, rfl, hbins, rfl, Or.inl rfl⟩
      have heach : extractEach { bins := h.bins, min := h.getMin, max := h.getMax } (r :: rest) =
          _ := extractEach_eq hlink hbins (Ne.symm hdelta) hranges.lt
      rw [heach, extractUniformCountInRangesInt, if_neg (by simp),
        if_neg (mt List.length_eq_zero_iff.mp hbins), if_neg (Ne.symm hdelta), hrun]
      rfl
  · -- the bins coincide in a point, and the search for the value finds none of them
    obtain ⟨himport', hdelta, hget⟩ := importHistogram_point hv hpoint
    obtain rfl := Except.ok.inj (himport'.symm.trans himport)
    have hbins := mt List.length_eq_zero_iff.mp (bins_ne_nil hpos)
    refine ⟨fun _ => Or.inr fun b hb r _ => ?_, fun _ => ?_⟩
    · obtain ⟨i, -, rfl⟩ := List.mem_map.mp hb
      have hl : (h.bin i).l = h.start := by simp [bin, binEdges, hpoint.1]
      have hu : (h.bin i).u = h.start := by simp [bin, binEdges, hpoint]
      rw [hl, hu]
      exact ⟨fun hin => lt_asymm hin.1 hin.2, fun hin => lt_asymm hin.1 hin.2⟩
    · rw [extractEach, extractUniformCountInRangeInt, if_neg (not_le_of_gt hranges.1),
        if_neg hbins, if_pos hdelta, extractUniformCountInRangesInt, if_neg (by simp),
        if_neg hbins, if_pos hdelta]
      change (HistogramVBW.getBin h.bins 0 h.getMax >>= _) =
        ((HistogramVBW.getBin h.bins 0 h.getMax >>= _) >>= _)
      rw [hget]
      rfl

/-- Extraction over two ranges with a gap between them, from bins that both ranges divide. -/
theorem extractRanges_agree_gap :
    ∃ vbw, (setHistogram [4, 6] 0 2 0 1 >>= importHistogram) = .ok vbw ∧
      extractUniformCountInRangesInt vbw [(-1, 1 / 2), (3 / 4, 3 / 2)] =
        extractEach vbw [(-1, 1 / 2), (3 / 4, 3 / 2)] := by
  let h : Histogram := { counts := [4, 6], start := 0, binWidth := 1, min := 0, max := 2 }
  have hh : setHistogram [4, 6] 0 2 0 1 = .ok h := by decide +kernel
  have himport : importHistogram h =
      .ok { bins := [⟨0, 1, 4⟩, ⟨1, 2, 6⟩], min := 0, max := 2 } := by decide +kernel
  refine ⟨{ bins := [⟨0, 1, 4⟩, ⟨1, 2, 6⟩], min := 0, max := 2 }, ?_, ?_⟩
  · rw [hh]
    exact himport
  · have hranges : InOrder [(-1, (1 : ℚ) / 2), (3 / 4, 3 / 2)] := by
      simp [InOrder]
      norm_num
    exact (extractRanges_agree_iff (.setHistogram hh) himport hranges).mpr
      (Or.inl (by norm_num))

/-- Four equal values and a range that ends inside their bin: the list version takes two of them
although the range does not hold the value, and divides the bin. -/
theorem not_extractRanges_agree_point :
    ∃ h vbw, createHistogram [1, 1, 1, 1] (binWidthFixed 1) = .ok h ∧
      importHistogram h = .ok vbw ∧
      extractUniformCountInRangesInt vbw [(0, 1 - 1 / 2000000000000)] ≠
        extractEach vbw [(0, 1 - 1 / 2000000000000)] ∧
      (∃ result ∈ (extractUniformCountInRangesInt vbw [(0, 1 - 1 / 2000000000000)]).toOption,
        result.1 = [2] ∧ result.2.bins.length = 2) ∧
      ∃ result ∈ (extractEach vbw [(0, 1 - 1 / 2000000000000)]).toOption,
        result.1 = [0] ∧ result.2.bins.length = 1 := by
  refine ⟨deltaBin 1 4, { bins := [⟨1 - 1 / 1000000000000, 1, 4⟩], min := 1, max := 1 }, ?_, ?_,
    ?_, ?_, ?_⟩ <;> decide +kernel

end Histogram

end Chimbuko
