import Chimbuko.Library.TransitionSystem
import Chimbuko.Util.HistogramFixedNbin
import Mathlib.Data.List.Perm.Basic

/-!
# Histograms of lists of values

What becomes of values that come list by list: each list makes a histogram, which is merged into
that of the lists before. The order within a list does not matter. With a fixed number of bins
all histograms can be made and merged; other rules for the bin width may fail.
-/

namespace Chimbuko

open TransitionSystem

/-- A rule for the bin width that does not look at the order of the values. -/
def BinWidthSpecifier.Orderless (bw : BinWidthSpecifier) : Prop :=
  ∀ {values values' : List ℚ}, values.Perm values' →
    ∀ min max, bw.binWidth values min max = bw.binWidth values' min max

/-- Scott's rule looks at sums. -/
theorem orderless_binWidthScott [LibM] : binWidthScott.Orderless := by
  intro values values' hperm min max
  have hmean : values.sum / values.length = values'.sum / values'.length := by
    rw [hperm.sum_eq, hperm.length_eq]
  have hsquares := (hperm.map fun v => (v - values.sum / values.length) ^ 2).sum_eq
  change Except.ok (Histogram.scottBinWidth values) = .ok (Histogram.scottBinWidth values')
  unfold Histogram.scottBinWidth
  dsimp only
  rw [← hmean, hsquares, hperm.length_eq]

/-- A fixed number of bins only needs the extremes. -/
theorem orderless_binWidthFixedNbin (nbin : ℤ) : (binWidthFixedNbin nbin).Orderless :=
  fun _ _ _ => rfl

namespace Histogram

/-- A value that is counted has a bin, whose count grows. -/
theorem countValue_eq_ok {h h' : Histogram} {message : String} {v : ℚ} :
    h.countValue message v = .ok h' ↔ ∃ b, h.getBin v 0 = .ok b ∧
      ¬(b = leftOfHistogram ∨ b = rightOfHistogram) ∧
      h' = { h with counts := h.counts.modify b.toNat (· + 1) } := by
  unfold countValue
  cases hbin : h.getBin v 0 with
  | error e =>
    constructor
    · intro hcount
      cases hcount
    · rintro ⟨b, hb, -⟩
      cases hb
  | ok b =>
    change (if b = leftOfHistogram ∨ b = rightOfHistogram then throw message
      else pure { h with counts := h.counts.modify b.toNat (· + 1) }) = Except.ok h' ↔ _
    by_cases hout : b = leftOfHistogram ∨ b = rightOfHistogram
    · rw [if_pos hout]
      constructor
      · intro hcount
        cases hcount
      · rintro ⟨b', hb', hin, -⟩
        cases hb'
        exact absurd hout hin
    · rw [if_neg hout]
      constructor
      · intro hcount
        cases hcount
        exact ⟨b, rfl, hout, rfl⟩
      · rintro ⟨b', hb', -, rfl⟩
        cases hb'
        rfl

/-- The bin of a value does not depend on the counts. -/
theorem getBin_modify (h : Histogram) (i : ℕ) (v tol : ℚ) :
    { h with counts := h.counts.modify i (· + 1) }.getBin v tol = h.getBin v tol := by
  unfold getBin nbin
  rw [List.length_modify]
  rfl

/-- Two values may be counted in either order. -/
theorem countValue_swap {h h' h'' : Histogram} {message : String} {v w : ℚ}
    (hv : h.countValue message v = .ok h') (hw : h'.countValue message w = .ok h'') :
    ∃ g, h.countValue message w = .ok g ∧ g.countValue message v = .ok h'' := by
  obtain ⟨b, hb, hin, rfl⟩ := countValue_eq_ok.mp hv
  obtain ⟨c, hc, hin', rfl⟩ := countValue_eq_ok.mp hw
  rw [getBin_modify] at hc
  refine ⟨_, countValue_eq_ok.mpr ⟨c, hc, hin', rfl⟩, countValue_eq_ok.mpr ⟨b, ?_, hin, ?_⟩⟩
  · rw [getBin_modify, hb]
  · congr 1
    apply List.ext_getElem
    · simp only [List.length_modify]
    · intro i hi hi'
      simp only [List.getElem_modify]
      split <;> split <;> rfl

/-- The extremes of values do not depend on their order. -/
theorem dataRange_perm {values values' : List ℚ} (hperm : values.Perm values') :
    dataRange values = dataRange values' := by
  apply hperm.foldl_eq'
  intro v _ w _ range
  unfold extendRange
  rw [min_right_comm, max_right_comm]

/-- Counting values into bins does not depend on their order. -/
theorem fillHistogram_perm {values values' : List ℚ} (hperm : values.Perm values') {min max w : ℚ}
    {h : Histogram} (hfill : fillHistogram values min max w = .ok h) :
    fillHistogram values' min max w = .ok h := by
  unfold fillHistogram at hfill ⊢
  split at hfill
  · cases hfill
  rename_i hneg
  split at hfill
  · cases hfill
  rename_i hzero
  dsimp only at hfill ⊢
  split at hfill
  · cases hfill
  rename_i hends
  rw [if_neg hneg, if_neg hzero, if_neg hends]
  obtain ⟨filled, hcount, htotal⟩ := bind_eq_ok hfill
  have hswap : ∀ (h : Histogram) v w h' h'',
      h.countValue "Value is outside of histogram" v = .ok h' →
      h'.countValue "Value is outside of histogram" w = .ok h'' →
      ∃ g, h.countValue "Value is outside of histogram" w = .ok g ∧
        g.countValue "Value is outside of histogram" v = .ok h'' :=
    fun _ _ _ _ _ hv hw => countValue_swap hv hw
  have hcount' := foldlM_perm hperm hswap hcount
  rw [hcount']
  change (if filled.totalCount ≠ values'.length then _ else _) = _
  rwa [← hperm.length_eq]

/-- A histogram does not depend on the order of the values. -/
theorem createHistogram_perm {bw : BinWidthSpecifier} (hbw : bw.Orderless)
    {values values' : List ℚ} (hperm : values.Perm values') {h : Histogram}
    (hcreate : createHistogram values bw = .ok h) : createHistogram values' bw = .ok h := by
  cases values with
  | nil => cases hcreate
  | cons first rest =>
    cases values' with
    | nil => exact absurd hperm.length_eq (Nat.succ_ne_zero _)
    | cons first' rest' =>
      rw [createHistogram] at hcreate ⊢
      have hfirst : first' ∈ first :: rest := hperm.mem_iff.mpr List.mem_cons_self
      by_cases hall : (first :: rest).all (· = first)
      · have hsame : first' = first := of_decide_eq_true (List.all_eq_true.mp hall _ hfirst)
        have hall' : (first' :: rest').all (· = first') := by
          rw [← hperm.all_eq, hsame]
          exact hall
        rw [if_pos hall] at hcreate
        rw [if_pos hall', ← hperm.length_eq, hsame]
        exact hcreate
      · have hall' : ¬(first' :: rest').all (· = first') = true := by
          intro hsame'
          rw [← hperm.all_eq] at hsame'
          have hsame : first = first' :=
            of_decide_eq_true (List.all_eq_true.mp hsame' _ List.mem_cons_self)
          rw [← hsame] at hsame'
          exact hall hsame'
        rw [if_neg hall] at hcreate
        rw [if_neg hall', ← dataRange_perm hperm]
        dsimp only at hcreate ⊢
        rw [← hbw hperm]
        obtain ⟨w, hw, hfill⟩ := bind_eq_ok hcreate
        rw [hw]
        exact fillHistogram_perm hperm hfill

/-- Make a histogram of some values and merge it into another one. Without values there is
nothing to merge. -/
def mergeValues (bw : BinWidthSpecifier) (h : Histogram) (values : List ℚ) :
    Except String Histogram :=
  if values = [] then pure h
  else do
    let l ← createHistogram values bw
    mergeHistograms h l bw

/-- The histograms of some lists of values can be made and merged one after another. -/
def Mergeable (bw : BinWidthSpecifier) (lists : List (List ℚ)) : Prop :=
  ∃ h, lists.foldlM (mergeValues bw) empty = .ok h

/-- Merging values does not depend on their order. -/
theorem mergeValues_perm {bw : BinWidthSpecifier} (hbw : bw.Orderless) {values values' : List ℚ}
    (hperm : values.Perm values') {g h : Histogram} (hmerge : mergeValues bw g values = .ok h) :
    mergeValues bw g values' = .ok h := by
  unfold mergeValues at hmerge ⊢
  by_cases hnil : values = []
  · rw [if_pos hnil] at hmerge
    rwa [if_pos (List.perm_nil.mp (hnil ▸ hperm.symm))]
  · have hnil' : values' ≠ [] := fun heq => hnil (List.perm_nil.mp (heq ▸ hperm))
    rw [if_neg hnil] at hmerge
    rw [if_neg hnil']
    obtain ⟨l, hcreate, hmerge⟩ := bind_eq_ok hmerge
    rw [createHistogram_perm hbw hperm hcreate]
    exact hmerge

/-- The order within the lists does not matter. -/
theorem Mergeable.of_perm {bw : BinWidthSpecifier} (hbw : bw.Orderless)
    {lists lists' : List (List ℚ)} (hperm : List.Forall₂ List.Perm lists lists')
    (h : Mergeable bw lists) : Mergeable bw lists' := by
  obtain ⟨merged, h⟩ := h
  refine ⟨merged, ?_⟩
  generalize empty = g at h ⊢
  induction hperm generalizing g with
  | nil => exact h
  | cons hvalues _ ih =>
    rw [List.foldlM_cons] at h ⊢
    obtain ⟨next, hfirst, hrest⟩ := bind_eq_ok h
    rw [mergeValues_perm hbw hvalues hfirst]
    exact ih _ hrest

/-- With a fixed number of bins all values can be merged. -/
theorem mergeable_binWidthFixedNbin {n : ℤ} (hn : 1 ≤ n) (hn' : n ≤ 50000)
    (lists : List (List ℚ)) : Mergeable (binWidthFixedNbin n) lists := by
  have hmerges : ∀ g : Histogram, (g.nbin = 0 ∨ ∃ seen, g.Represents n seen) →
      ∃ h, lists.foldlM (mergeValues (binWidthFixedNbin n)) g = .ok h := by
    induction lists with
    | nil => exact fun g _ => ⟨g, rfl⟩
    | cons values rest ih =>
      intro g hg
      rw [List.foldlM_cons]
      unfold mergeValues
      by_cases hnil : values = []
      · rw [if_pos hnil]
        exact ih g hg
      · obtain ⟨l, hcreate, hl⟩ := createHistogram_represents hn hn' hnil
        have hmerge : ∃ h, mergeHistograms g l (binWidthFixedNbin n) = .ok h ∧
            ∃ seen, h.Represents n seen := by
          rcases hg with hbins | ⟨seen, hg⟩
          · refine ⟨l, ?_, _, hl⟩
            rw [mergeHistograms, if_pos hbins]
            rfl
          · obtain ⟨h, hmerge, hh⟩ := mergeHistograms_represents hn hn' hg hl
            exact ⟨h, hmerge, _, hh⟩
        obtain ⟨h, hmerge, hh⟩ := hmerge
        rw [if_neg hnil, hcreate]
        change ∃ h, (mergeHistograms g l _ >>= _) = Except.ok h
        rw [hmerge]
        exact ih h (Or.inr hh)
  exact hmerges empty (Or.inl rfl)

end Histogram

end Chimbuko
