import Chimbuko.Library.TransitionSystem
import Chimbuko.Util.HistogramSound

/-!
# The values behind a histogram

A histogram that is made of batches of values, by counting each batch and merging the results, has
the extremes of all the values together. It counts no more values than there are: merging may drop
some of the first bin of an input, and nothing else is lost.
-/

namespace Chimbuko

namespace Histogram

open TransitionSystem

/-- A histogram has no bins if there are no values, and else the extremes of the values. -/
def Spans (h : Histogram) (values : List ℚ) : Prop :=
  values = [] ∧ h.nbin = 0 ∨
    h.Sound ∧ h.getMin ∈ values ∧ h.getMax ∈ values ∧ ∀ v ∈ values, h.getMin ≤ v ∧ v ≤ h.getMax

/-- The empty histogram spans no values. -/
theorem spans_empty : Spans Histogram.empty [] := Or.inl ⟨rfl, rfl⟩

/-- A histogram without bins spans no values. -/
theorem Spans.eq_nil {h : Histogram} {values : List ℚ} (hs : h.Spans values) (hbins : h.nbin = 0) :
    values = [] := by
  rcases hs with ⟨hnil, -⟩ | ⟨hsound, -⟩
  · exact hnil
  · exact absurd hbins hsound.nbin_pos.ne'

/-- A histogram has bins exactly if there is a value. -/
theorem Spans.nbin_ne_zero_iff {h : Histogram} {values : List ℚ} (hs : h.Spans values) :
    h.nbin ≠ 0 ↔ 1 ≤ values.length := by
  rcases hs with ⟨hnil, hbins⟩ | ⟨hsound, hmin, -⟩
  · rw [hnil]
    exact iff_of_false (not_not.mpr hbins) (by decide)
  · exact iff_of_true hsound.nbin_pos.ne' (List.length_pos_of_mem hmin)

/-- A histogram of data has their extremes. -/
theorem createHistogram_spans {rTimes : List ℚ} {bwspec : BinWidthSpecifier} {h : Histogram}
    (hrun : createHistogram rTimes bwspec = .ok h) : h.Spans rTimes := by
  refine Or.inr ⟨createHistogram_sound hrun, ?_⟩
  obtain ⟨lo, hi, hrange, hcases⟩ := createHistogram_cases hrun
  have hne : rTimes ≠ [] := by
    rintro rfl
    cases hrun
  obtain ⟨lo', hi', hrange', hlo, hhi, hbounds⟩ := dataRange_spec hne
  have heq := hrange'.symm.trans hrange
  obtain rfl : lo' = lo := WithTop.coe_injective (congrArg Prod.fst heq)
  obtain rfl : hi' = hi := WithBot.coe_injective (congrArg Prod.snd heq)
  have hextremes : h.getMin = lo' ∧ h.getMax = hi' := by
    cases hcases with
    | inl hdelta =>
      obtain ⟨rfl, rfl⟩ := hdelta
      exact ⟨rfl, rfl⟩
    | inr hfill =>
      obtain ⟨-, w, -, hfill⟩ := hfill
      have hadj := (fillHistogram_adjusted hfill).1
      rw [getMin, hadj.min_eq, getMax, hadj.max_eq]
      exact ⟨rfl, rfl⟩
  rw [hextremes.1, hextremes.2]
  exact ⟨hlo, hhi, hbounds⟩

/-- A merger of two histograms with bins has the extremes of both. -/
theorem mergeNonEmpty_extremes {g l : Histogram} (hg : g.Sound) (hl : l.Sound)
    {bwspec : BinWidthSpecifier} {merged : Merged}
    (hrun : mergeNonEmpty g l bwspec = .ok merged) :
    merged.combined.getMin = mergedMin g l ∧ merged.combined.getMax = mergedMax g l := by
  obtain ⟨w, -, hadj⟩ := mergeNonEmpty_adjusted hg hl hrun
  rw [getMin, hadj.min_eq, getMax, hadj.max_eq]
  exact ⟨rfl, rfl⟩

/-- A merger has the extremes of the values behind both inputs. -/
theorem Spans.merge {g l h : Histogram} {gvalues lvalues : List ℚ} {bwspec : BinWidthSpecifier}
    (hg : g.Spans gvalues) (hl : l.Spans lvalues) (hrun : mergeHistograms g l bwspec = .ok h) :
    h.Spans (gvalues ++ lvalues) := by
  unfold mergeHistograms at hrun
  rcases hg with ⟨hnil, hbins⟩ | ⟨hg, hgmin, hgmax, hgbounds⟩
  · rw [if_pos hbins] at hrun
    cases hrun
    rwa [hnil, List.nil_append]
  rw [if_neg hg.nbin_pos.ne'] at hrun
  rcases hl with ⟨hnil, hbins⟩ | ⟨hl, hlmin, hlmax, hlbounds⟩
  · rw [if_pos hbins] at hrun
    cases hrun
    rw [hnil, List.append_nil]
    exact Or.inr ⟨hg, hgmin, hgmax, hgbounds⟩
  rw [if_neg hl.nbin_pos.ne'] at hrun
  obtain ⟨merged, hmerged, hrun⟩ := bind_eq_ok hrun
  cases hrun
  obtain ⟨hmin, hmax⟩ := mergeNonEmpty_extremes hg hl hmerged
  refine Or.inr ⟨mergeNonEmpty_sound hg hl hmerged, ?_⟩
  rw [hmin, hmax]
  unfold mergedMin mergedMax
  refine ⟨?_, ?_, fun v hv => ?_⟩
  · rcases min_choice l.getMin g.getMin with heq | heq <;> rw [heq]
    · exact List.mem_append_right _ hlmin
    · exact List.mem_append_left _ hgmin
  · rcases max_choice l.getMax g.getMax with heq | heq <;> rw [heq]
    · exact List.mem_append_right _ hlmax
    · exact List.mem_append_left _ hgmax
  · rcases List.mem_append.mp hv with hv | hv
    · exact ⟨(min_le_right _ _).trans (hgbounds v hv).1,
        (hgbounds v hv).2.trans (le_max_right _ _)⟩
    · exact ⟨(min_le_left _ _).trans (hlbounds v hv).1,
        (hlbounds v hv).2.trans (le_max_left _ _)⟩

/-- A histogram that is made of some values: batches of them are counted and the results merged. -/
inductive MadeOf (bwspec : BinWidthSpecifier) : Histogram → List ℚ → Prop
  | empty : MadeOf bwspec Histogram.empty []
  | createHistogram {values : List ℚ} {h : Histogram} :
      createHistogram values bwspec = .ok h → MadeOf bwspec h values
  | mergeHistograms {g l h : Histogram} {gvalues lvalues : List ℚ} :
      MadeOf bwspec g gvalues → MadeOf bwspec l lvalues → mergeHistograms g l bwspec = .ok h →
        MadeOf bwspec h (gvalues ++ lvalues)

namespace MadeOf

variable {bwspec : BinWidthSpecifier} {h : Histogram} {values : List ℚ}

/-- It has the extremes of the values that it is made of. -/
theorem spans (hh : MadeOf bwspec h values) : h.Spans values := by
  induction hh with
  | empty => exact spans_empty
  | createHistogram hrun => exact createHistogram_spans hrun
  | mergeHistograms _ _ hrun ihg ihl => exact ihg.merge ihl hrun

/-- Only no values make no bins. -/
theorem eq_nil (hh : MadeOf bwspec h values) (hbins : h.nbin = 0) : values = [] := by
  rcases hh.spans with ⟨hnil, -⟩ | ⟨hsound, -⟩
  · exact hnil
  · exact absurd hbins hsound.nbin_pos.ne'

/-- It counts no more values than it is made of. -/
theorem totalCount_le (hh : MadeOf bwspec h values) : h.totalCount ≤ values.length := by
  induction hh with
  | empty => exact le_rfl
  | createHistogram hrun => exact (createHistogram_totalCount hrun).le
  | @mergeHistograms g l h gvalues lvalues hg hl hrun ihg ihl =>
    rw [List.length_append]
    unfold Histogram.mergeHistograms at hrun
    split at hrun
    · cases hrun
      exact ihl.trans (Nat.le_add_left _ _)
    split at hrun
    · cases hrun
      exact ihg.trans (Nat.le_add_right _ _)
    rename_i hgbins hlbins
    obtain ⟨merged, hmerged, hrun⟩ := bind_eq_ok hrun
    cases hrun
    have hgs := (hg.spans.resolve_left fun hnone => hgbins hnone.2).1
    have hls := (hl.spans.resolve_left fun hnone => hlbins hnone.2).1
    obtain ⟨w, -, -, -, -, htotal⟩ := mergeNonEmpty_ok hgs.valid hls.valid hmerged
    have hglost := lost_nonneg g (mergedMin g l - getLowerBoundShiftMul * w)
    have hllost := lost_nonneg l (mergedMin g l - getLowerBoundShiftMul * w)
    omega

end MadeOf

end Histogram

end Chimbuko
