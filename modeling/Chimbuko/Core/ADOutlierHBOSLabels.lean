import Chimbuko.Core.ADOutlierHBOS
import Chimbuko.Library.TransitionSystem
import Chimbuko.Util.HistogramProduced
import Mathlib.Data.Int.Log

/-!
# Labels and densities

The score of a value falls strictly with the share of all values that its bin holds, and the
threshold lies between the scores of the populated bins or is one of an earlier call. So values
outside the histogram are outliers, and an outlier's bin holds more values than that of any value
that is none. A value in a most populated bin has the smallest score; it is not below the local
threshold if all populated bins hold the same number of values.
-/

namespace Chimbuko

open TransitionSystem

/-- The logarithm rises strictly, and is zero at one. -/
structure LibM.Log2Rises [LibM] : Prop where
  strictMono : StrictMonoOn LibM.log2 (Set.Ioi 0)
  one : LibM.log2 1 = 0

/-- A mathematics library whose logarithm is interpolated between powers of two. -/
@[reducible] def LibM.interpolated : LibM where
  sqrt _ := 0
  pow _ _ := 0
  log2 x := Int.log 2 x + (x / 2 ^ Int.log 2 x - 1)

/-- The interpolated logarithm rises. -/
theorem LibM.log2Rises_interpolated : letI := LibM.interpolated; LibM.Log2Rises := by
  have hbounds : ∀ x : ℚ, 0 < x → (2 : ℚ) ^ Int.log 2 x ≤ x ∧ x < 2 ^ Int.log 2 x * 2 := by
    intro x hx
    have hlt := Int.lt_zpow_succ_log_self one_lt_two x
    rw [Nat.cast_ofNat, zpow_add_one₀ two_ne_zero] at hlt
    exact ⟨Int.zpow_log_le_self one_lt_two hx, hlt⟩
  refine @LibM.Log2Rises.mk LibM.interpolated ?_ ?_
  · intro x hx y hy hxy
    have hx' := hbounds x hx
    have hy' := hbounds y hy
    have hpow : ∀ k : ℤ, (0 : ℚ) < 2 ^ k := fun k => zpow_pos two_pos k
    change (Int.log 2 x : ℚ) + (x / 2 ^ Int.log 2 x - 1) <
      Int.log 2 y + (y / 2 ^ Int.log 2 y - 1)
    cases (Int.log_mono_right hx hxy.le : Int.log 2 x ≤ Int.log 2 y).lt_or_eq with
    | inl hlt =>
      have hcast : (Int.log 2 x : ℚ) + 1 ≤ Int.log 2 y := by exact_mod_cast hlt
      have hbelow : x / 2 ^ Int.log 2 x < 2 := (div_lt_iff₀' (hpow _)).mpr hx'.2
      have habove : 1 ≤ y / 2 ^ Int.log 2 y := (one_le_div₀ (hpow _)).mpr hy'.1
      linarith
    | inr heq =>
      rw [heq]
      have hdiv := div_lt_div_of_pos_right hxy (hpow (Int.log 2 y))
      linarith
  · change (Int.log 2 (1 : ℚ) : ℚ) + (1 / 2 ^ Int.log 2 (1 : ℚ) - 1) = 0
    rw [Int.log_one_right]
    norm_num

namespace Histogram

/-- The bins reach the largest value. -/
def Reaches (h : Histogram) : Prop := h.getMax ≤ h.start + h.nbin * h.binWidth

/-- A value lies outside the histogram by more than 5% of a bin width. -/
def Outside (h : Histogram) (v : ℚ) : Prop :=
  v < h.start - 1 / 20 * h.binWidth ∨ h.getMax + 1 / 20 * h.binWidth < v

/-- A value lies in a bin, or within 5% of a bin width from its edge if that is an outer one. -/
def InBin (h : Histogram) (v : ℚ) (b : ℕ) : Prop := h.getBin v (1 / 20) = .ok b

/-- No bin holds more values. -/
def MostPopulated (h : Histogram) (b : ℕ) : Prop := ∀ b', h.binCount b' ≤ h.binCount b

instance (h : Histogram) (v : ℚ) (b : ℕ) : Decidable (h.InBin v b) :=
  inferInstanceAs (Decidable (_ = _))

/-- Bins do not have a negative width. -/
theorem Valid.binWidth_nonneg {h : Histogram} (hvalid : h.Valid) : 0 ≤ h.binWidth := by
  cases hvalid.extent with
  | inl hextended => exact hextended.1.le
  | inr hpoint => exact hpoint.1.ge

/-- The first bin starts before the maximum. -/
theorem Valid.start_le_max {h : Histogram} (hvalid : h.Valid) : h.start ≤ h.getMax :=
  hvalid.start_le_min.trans hvalid.min_le_max

/-- A value outside the histogram is found to be so. -/
theorem getBin_outside {h : Histogram} (hvalid : h.Valid) {v : ℚ} (hv : h.Outside v) :
    h.getBin v (1 / 20) = .ok leftOfHistogram ∨ h.getBin v (1 / 20) = .ok rightOfHistogram := by
  have hw := hvalid.binWidth_nonneg
  have hstart := hvalid.start_le_max
  unfold getBin
  rw [if_neg hvalid.nbin_pos.ne']
  cases hv with
  | inl hleft =>
    apply Or.inl
    rw [if_pos hleft.le]
    rfl
  | inr hright =>
    apply Or.inr
    have hpast : h.start < v := by linarith
    have hinside : ¬v ≤ h.start - 1 / 20 * h.binWidth := by
      apply not_le_of_gt
      linarith
    rw [if_neg hinside, if_neg (not_le_of_gt hpast), if_pos hright]
    rfl

/-- The bin that a value is found in is one of the histogram. -/
theorem InBin.lt {h : Histogram} {v : ℚ} {b : ℕ} (hb : h.InBin v b) : b < h.nbin := by
  unfold InBin getBin at hb
  split at hb
  · cases hb
  rename_i hn
  have hpos : 0 < h.nbin := Nat.pos_of_ne_zero hn
  split at hb
  · have hb' : leftOfHistogram = (b : ℤ) := Except.ok.inj hb
    unfold leftOfHistogram at hb'
    omega
  split at hb
  · have hb' : (0 : ℤ) = b := Except.ok.inj hb
    omega
  split at hb
  · have hb' : rightOfHistogram = (b : ℤ) := Except.ok.inj hb
    unfold rightOfHistogram at hb'
    omega
  split at hb
  · have hb' : (h.nbin : ℤ) - 1 = b := Except.ok.inj hb
    omega
  · extract_lets bb bin bu_prev adjusted at hb
    split at hb
    · cases hb
    · rename_i hrange
      have hb' : adjusted = (b : ℤ) := Except.ok.inj hb
      omega

/-- Finding the bin of a value cannot fail if the bins reach the largest value. -/
theorem getBin_ok {h : Histogram} (hvalid : h.Valid) (hreaches : h.Reaches) (v : ℚ) :
    ∃ b, h.getBin v (1 / 20) = .ok b := by
  unfold getBin
  rw [if_neg hvalid.nbin_pos.ne']
  split
  · exact ⟨_, rfl⟩
  split
  · exact ⟨_, rfl⟩
  split
  · exact ⟨_, rfl⟩
  split
  · exact ⟨_, rfl⟩
  rename_i hstart _ hmax
  have hlt : h.start < v := lt_of_not_ge hstart
  have hend : v < h.start + h.nbin * h.binWidth := (lt_of_not_ge hmax).trans_le hreaches
  have hw : 0 < h.binWidth := by
    apply lt_of_le_of_ne hvalid.binWidth_nonneg
    intro hzero
    rw [← hzero] at hend
    linarith
  have hpos : 0 < (v - h.start) / h.binWidth := div_pos (sub_pos.mpr hlt) hw
  have hfloor : (0 : ℤ) ≤ ⌊(v - h.start) / h.binWidth⌋ := Int.floor_nonneg.mpr hpos.le
  have hbelow : ⌊(v - h.start) / h.binWidth⌋ < (h.nbin : ℤ) := by
    apply Int.floor_lt.mpr
    rw [div_lt_iff₀ hw]
    push_cast
    linarith
  -- in the first bin the value lies past the lower edge, so the bin is not adjusted
  have hfirst : v ≤ h.start + ⌊(v - h.start) / h.binWidth⌋ * h.binWidth →
      0 < ⌊(v - h.start) / h.binWidth⌋ := by
    intro hle
    apply lt_of_le_of_ne hfloor
    intro hzero
    rw [← hzero, Int.cast_zero, zero_mul, add_zero] at hle
    exact absurd hle (not_le_of_gt hlt)
  have hrange : ¬((if v ≤ h.start + ⌊(v - h.start) / h.binWidth⌋ * h.binWidth then
      ⌊(v - h.start) / h.binWidth⌋ - 1 else ⌊(v - h.start) / h.binWidth⌋) < 0 ∨
      (h.nbin : ℤ) ≤ if v ≤ h.start + ⌊(v - h.start) / h.binWidth⌋ * h.binWidth then
        ⌊(v - h.start) / h.binWidth⌋ - 1 else ⌊(v - h.start) / h.binWidth⌋) := by
    split
    · rename_i hle
      have := hfirst hle
      omega
    · omega
  exact ⟨_, if_neg hrange⟩

/-- The count of a bin is one of the counts. -/
theorem binCount_mem {h : Histogram} {b : ℕ} (hb : b < h.nbin) : h.binCount b ∈ h.counts := by
  rw [binCount_eq h hb]
  exact List.getElem_mem hb

/-- A count of some bin is at most that of a most populated one. -/
theorem MostPopulated.le {h : Histogram} {b : ℕ} (hb : h.MostPopulated b) {c : ℕ}
    (hc : c ∈ h.counts) : c ≤ h.binCount b := by
  obtain ⟨b', hb', rfl⟩ := List.mem_iff_getElem.mp hc
  rw [← binCount_eq h hb']
  exact hb b'

/-- A most populated bin of a histogram with data is populated. -/
theorem MostPopulated.pos {h : Histogram} (hcounts : 0 < h.totalCount) {b : ℕ}
    (hb : h.MostPopulated b) : 0 < h.binCount b := by
  apply Nat.pos_of_ne_zero
  intro hzero
  have hsum : h.totalCount = 0 := by
    unfold totalCount
    rw [List.sum_eq_zero_iff]
    intro c hc
    exact Nat.le_zero.mp (hzero ▸ hb.le hc)
  exact hcounts.ne' hsum

end Histogram

namespace ADOutlierHBOS

open Histogram

section Scores

/-- The share of a bin rises with its count. -/
theorem binProb_le {hist : Histogram} {c c' : ℕ} (h : c ≤ c') :
    binProb hist c ≤ binProb hist c' := by
  unfold binProb
  gcongr

/-- A bin with more counts is more probable. -/
theorem binProb_lt {hist : Histogram} (hcounts : 0 < hist.totalCount) {c c' : ℕ} (h : c < c') :
    binProb hist c < binProb hist c' := by
  unfold binProb
  gcongr

/-- Probabilities are not negative. -/
theorem binProb_nonneg (hist : Histogram) (c : ℕ) : 0 ≤ binProb hist c := by
  unfold binProb
  positivity

/-- A bin has a positive probability exactly if it has counts. -/
theorem binProb_pos {hist : Histogram} (hcounts : 0 < hist.totalCount) {c : ℕ} :
    0 < binProb hist c ↔ 0 < c := by
  constructor
  · intro h
    apply Nat.pos_of_ne_zero
    intro hzero
    rw [hzero, binProb, Nat.cast_zero, zero_div] at h
    exact lt_irrefl 0 h
  · intro h
    have hlt := binProb_lt hcounts h
    rwa [binProb, Nat.cast_zero, zero_div] at hlt

variable [LibM] {self : ADOutlierHBOS}

/-- The score falls strictly with the probability. -/
theorem scoreOf_strictAnti (hlog : LibM.Log2Rises) (halpha : 0 < self.alpha) {p q : ℚ}
    (hp : 0 ≤ p) (hpq : p < q) : self.scoreOf q < self.scoreOf p := by
  have hlt := hlog.strictMono (Set.mem_Ioi.mpr (add_pos_of_nonneg_of_pos hp halpha))
    (Set.mem_Ioi.mpr (add_pos_of_nonneg_of_pos (hp.trans hpq.le) halpha))
    (add_lt_add_left hpq self.alpha)
  unfold scoreOf
  linarith

/-- What is more probable has no higher score. -/
theorem scoreOf_anti (hlog : LibM.Log2Rises) (halpha : 0 < self.alpha) {p q : ℚ} (hp : 0 ≤ p)
    (hpq : p ≤ q) : self.scoreOf q ≤ self.scoreOf p := by
  cases hpq.lt_or_eq with
  | inl hlt => exact (scoreOf_strictAnti hlog halpha hp hlt).le
  | inr heq => rw [heq]

/-- The score of a bin with some count. -/
def binScore (self : ADOutlierHBOS) (hist : Histogram) (c : ℕ) : ℚ :=
  self.scoreOf (binProb hist c)

/-- A bin with more counts has no higher score. -/
theorem binScore_anti (hlog : LibM.Log2Rises) (halpha : 0 < self.alpha) {hist : Histogram}
    {c c' : ℕ} (h : c ≤ c') : self.binScore hist c' ≤ self.binScore hist c :=
  scoreOf_anti hlog halpha (binProb_nonneg hist c) (binProb_le h)

/-- A bin with more counts has a lower score, if there are counts at all. -/
theorem binScore_strictAnti (hlog : LibM.Log2Rises) (halpha : 0 < self.alpha) {hist : Histogram}
    (hcounts : 0 < hist.totalCount) {c c' : ℕ} (h : c < c') :
    self.binScore hist c' < self.binScore hist c :=
  scoreOf_strictAnti hlog halpha (binProb_nonneg hist c) (binProb_lt hcounts h)

/-- No bin has a larger score than a value outside the histogram. -/
theorem binScore_le_max (hlog : LibM.Log2Rises) (halpha : 0 < self.alpha) (hist : Histogram)
    (c : ℕ) : self.binScore hist c ≤ self.maxPossibleScore :=
  scoreOf_anti hlog halpha le_rfl (binProb_nonneg hist c)

/-- The range of scores: both ends are scores of populated bins, and it contains all of these. -/
theorem scoreRange_spec {hist : Histogram} (hcounts : 0 < hist.totalCount) :
    (∃ c ∈ hist.counts, 0 < c ∧ (self.scoreRange hist).1 = self.binScore hist c) ∧
      (∃ c ∈ hist.counts, 0 < c ∧ (self.scoreRange hist).2 = self.binScore hist c) ∧
      ∀ c ∈ hist.counts, 0 < c → (self.scoreRange hist).1 ≤ self.binScore hist c ∧
        self.binScore hist c ≤ (self.scoreRange hist).2 := by
  let populated := hist.counts.filter fun count => 0 < binProb hist count
  have hmem : ∀ c, c ∈ populated ↔ c ∈ hist.counts ∧ 0 < c := by
    intro c
    rw [List.mem_filter, decide_eq_true_iff, binProb_pos hcounts]
  have hne : populated.map (fun c => self.scoreOf (binProb hist c)) ≠ [] := by
    intro hnil
    have hzero : hist.totalCount = 0 := by
      unfold totalCount
      rw [List.sum_eq_zero_iff]
      intro c hc
      by_contra hpos
      have hc' := (hmem c).mpr ⟨hc, Nat.pos_of_ne_zero hpos⟩
      rw [List.map_eq_nil_iff.mp hnil] at hc'
      cases hc'
    exact hcounts.ne' hzero
  obtain ⟨lo, hi, hrange, hlo, hhi, hall⟩ := dataRange_spec hne
  have hscores : self.scoreRange hist = (lo, hi) := by
    change ((dataRange (populated.map fun c => self.scoreOf (binProb hist c))).1.untopD _,
      (dataRange (populated.map fun c => self.scoreOf (binProb hist c))).2.unbotD _) = _
    rw [hrange]
    rfl
  rw [hscores]
  refine ⟨?_, ?_, ?_⟩
  · obtain ⟨c, hc, hscore⟩ := List.mem_map.mp hlo
    exact ⟨c, ((hmem c).mp hc).1, ((hmem c).mp hc).2, hscore.symm⟩
  · obtain ⟨c, hc, hscore⟩ := List.mem_map.mp hhi
    exact ⟨c, ((hmem c).mp hc).1, ((hmem c).mp hc).2, hscore.symm⟩
  · intro c hc hpos
    exact hall _ (List.mem_map_of_mem ((hmem c).mpr ⟨hc, hpos⟩))

/-- A most populated bin has the smallest score. -/
theorem scoreRange_fst {hist : Histogram} (hlog : LibM.Log2Rises) (halpha : 0 < self.alpha)
    (hcounts : 0 < hist.totalCount) {b : ℕ} (hlt : b < hist.nbin) (hb : hist.MostPopulated b) :
    (self.scoreRange hist).1 = self.binScore hist (hist.binCount b) := by
  obtain ⟨⟨c, hc, hpos, hfst⟩, -, hall⟩ := self.scoreRange_spec hcounts
  apply le_antisymm
  · exact (hall _ (binCount_mem hlt) (hb.pos hcounts)).1
  · rw [hfst]
    exact binScore_anti hlog halpha (hb.le hc)

/-- The range of scores is a point just if all populated bins hold the same number of values. -/
theorem scoreRange_lt_iff {hist : Histogram} (hlog : LibM.Log2Rises) (halpha : 0 < self.alpha)
    (hcounts : 0 < hist.totalCount) {b : ℕ} (hlt : b < hist.nbin) (hb : hist.MostPopulated b) :
    (self.scoreRange hist).1 < (self.scoreRange hist).2 ↔
      ∃ c ∈ hist.counts, 0 < c ∧ c ≠ hist.binCount b := by
  obtain ⟨-, ⟨c, hc, hpos, hsnd⟩, hall⟩ := self.scoreRange_spec hcounts
  rw [scoreRange_fst hlog halpha hcounts hlt hb]
  constructor
  · intro h
    refine ⟨c, hc, hpos, ?_⟩
    intro heq
    rw [hsnd, heq] at h
    exact lt_irrefl _ h
  · intro h
    obtain ⟨d, hd, hdpos, hne⟩ := h
    have hd' : d < hist.binCount b := lt_of_le_of_ne (hb.le hd) hne
    exact (binScore_strictAnti hlog halpha hcounts hd').trans_le (hall d hd hdpos).2

end Scores

section Labels

variable [LibM] {self : ADOutlierHBOS}

/-- The threshold that is used with an entry of the model. -/
def usedThreshold (self : ADOutlierHBOS) (fparam : HbosFuncParam) : ℚ :=
  (self.chooseThreshold (self.localThreshold fparam.histogram)
    fparam.internalGlobalThreshold).1

/-- What labeling a data set does: nothing without data, it creates the entry of a model without
bins, and else it labels every element and keeps the threshold if that is enabled. -/
theorem labelData_cases {param : HbosParam} {data : List Elem} {idx : ℕ}
    {r : Labeled HbosParam} (h : self.labelData param data idx = .ok r) :
    (data = [] ∧ r = ⟨param, data, none⟩) ∨
      (data ≠ [] ∧ (param.fparamAt idx).histogram.nbin = 0 ∧
        r = ⟨param.setFparam idx (param.fparamAt idx), data, none⟩) ∨
      (data ≠ [] ∧ 0 < (param.fparamAt idx).histogram.totalCount ∧
        data.mapM (self.labelElem (param.fparamAt idx).histogram
          (self.usedThreshold (param.fparamAt idx))) = .ok r.data ∧
        r.threshold = some (self.usedThreshold (param.fparamAt idx)) ∧
        r.param = param.setFparam idx { param.fparamAt idx with
          internalGlobalThreshold := if self.useGlobalThreshold then
            self.usedThreshold (param.fparamAt idx)
            else (param.fparamAt idx).internalGlobalThreshold }) := by
  unfold labelData at h
  split at h
  · rename_i hdata
    cases h
    exact Or.inl ⟨List.eq_nil_of_length_eq_zero hdata, rfl⟩
  rename_i hdata
  have hne : data ≠ [] := by
    intro hnil
    rw [hnil] at hdata
    exact hdata rfl
  apply Or.inr
  extract_lets fparam hist chosen fparam' at h
  split at h
  · rename_i hbins
    cases h
    exact Or.inl ⟨hne, hbins, rfl⟩
  split at h
  · cases h
  rename_i hcounts
  cases hmap : data.mapM (self.labelElem hist chosen.1) with
  | error e =>
    rw [hmap] at h
    cases h
  | ok data' =>
    rw [hmap] at h
    cases h
    have hkept : chosen.2 = if self.useGlobalThreshold then chosen.1
        else fparam.internalGlobalThreshold := by
      change (self.chooseThreshold _ _).2 = if _ then (self.chooseThreshold _ _).1 else _
      unfold chooseThreshold
      split
      · split <;> rfl
      · rfl
    refine Or.inr ⟨hne, Nat.pos_of_ne_zero hcounts, hmap, rfl, ?_⟩
    change param.setFparam idx { fparam with internalGlobalThreshold := chosen.2 } = _
    rw [hkept]
    rfl

/-- With the global threshold the more stringent one of the two is used. -/
theorem usedThreshold_eq (fparam : HbosFuncParam) :
    self.usedThreshold fparam = if self.useGlobalThreshold then
      max (self.localThreshold fparam.histogram) fparam.internalGlobalThreshold
      else self.localThreshold fparam.histogram := by
  unfold usedThreshold chooseThreshold
  split
  · split
    · rename_i hlt
      rw [max_eq_right hlt.le]
    · rename_i hle
      rw [max_eq_left (le_of_not_gt hle)]
  · rfl

/-- The thresholds that an entry of the model can hold: the default one, the zero of a local model,
what labeling leaves, and the larger of two as the models are merged. -/
inductive StoredThreshold (self : ADOutlierHBOS) : ℚ → Prop
  | new : StoredThreshold self HbosFuncParam.new.internalGlobalThreshold
  | generated : StoredThreshold self 0
  | merged {a b : ℚ} : StoredThreshold self a → StoredThreshold self b →
      StoredThreshold self (max a b)
  | labeled {param : HbosParam} {data : List Elem} {idx : ℕ} {r : Labeled HbosParam} :
      StoredThreshold self (param.fparamAt idx).internalGlobalThreshold →
      self.labelData param data idx = .ok r →
      StoredThreshold self (r.param.fparamAt idx).internalGlobalThreshold

/-- The threshold is a fraction of the range of scores, and the default one is a score, too. -/
structure Proper (alg : ADOutlierHBOS) : Prop where
  alpha_pos : 0 < alg.alpha
  threshold_nonneg : 0 ≤ alg.threshold
  threshold_le_one : alg.threshold ≤ 1
  default_le : HbosFuncParam.new.internalGlobalThreshold ≤ alg.maxPossibleScore

/-- The threshold lies between the lowest and the highest score. -/
theorem localThreshold_eq (hist : Histogram) : self.localThreshold hist =
    (self.scoreRange hist).1 +
      self.threshold * ((self.scoreRange hist).2 - (self.scoreRange hist).1) := rfl

/-- The local threshold is a score between those of the populated bins. -/
theorem localThreshold_bounds (hself : self.Proper) {hist : Histogram}
    (hcounts : 0 < hist.totalCount) :
    (self.scoreRange hist).1 ≤ self.localThreshold hist ∧
      self.localThreshold hist ≤ (self.scoreRange hist).2 := by
  obtain ⟨⟨c, hc, hpos, hfst⟩, -, hall⟩ := self.scoreRange_spec hcounts
  have hle : (self.scoreRange hist).1 ≤ (self.scoreRange hist).2 := by
    rw [hfst]
    exact (hall c hc hpos).2
  have hrange := sub_nonneg.mpr hle
  rw [localThreshold_eq]
  constructor
  · have := mul_nonneg hself.threshold_nonneg hrange
    linarith
  · have := mul_le_mul_of_nonneg_right hself.threshold_le_one hrange
    linarith

/-- The local threshold does not exceed the score of a value outside the histogram. -/
theorem localThreshold_le_max (hlog : LibM.Log2Rises) (hself : self.Proper) {hist : Histogram}
    (hcounts : 0 < hist.totalCount) : self.localThreshold hist ≤ self.maxPossibleScore := by
  obtain ⟨-, ⟨c, -, -, hsnd⟩, -⟩ := self.scoreRange_spec hcounts
  have hle := (localThreshold_bounds hself hcounts).2
  rw [hsnd] at hle
  exact hle.trans (binScore_le_max hlog hself.alpha_pos hist c)

/-- No threshold in use exceeds the score of a value outside the histogram if none kept does. -/
theorem usedThreshold_le_max (hlog : LibM.Log2Rises) (hself : self.Proper) {fparam : HbosFuncParam}
    (hcounts : 0 < fparam.histogram.totalCount)
    (hstored : fparam.internalGlobalThreshold ≤ self.maxPossibleScore) :
    self.usedThreshold fparam ≤ self.maxPossibleScore := by
  have hlocal := localThreshold_le_max hlog hself hcounts
  rw [usedThreshold_eq]
  split
  · exact max_le hlocal hstored
  · exact hlocal

/-- The thresholds that models hold do not exceed the score of a value outside the histogram. -/
theorem StoredThreshold.le_max (hlog : LibM.Log2Rises) (hself : self.Proper) {t : ℚ}
    (h : self.StoredThreshold t) : t ≤ self.maxPossibleScore := by
  have hdefault : (0 : ℚ) < LibM.log2 (100001 / 100000) := by
    rw [← hlog.one]
    apply hlog.strictMono
    · exact Set.mem_Ioi.mpr one_pos
    · exact Set.mem_Ioi.mpr (by norm_num)
    · norm_num
  induction h with
  | new => exact hself.default_le
  | generated => exact hdefault.le.trans hself.default_le
  | merged _ _ iha ihb => exact max_le iha ihb
  | @labeled param data idx r _ hlabel ih =>
    rcases labelData_cases hlabel with ⟨-, rfl⟩ | ⟨-, -, rfl⟩ | ⟨-, hcounts, -, -, hparam⟩
    · exact ih
    · rw [HbosParam.fparamAt_setFparam]
      exact ih
    · rw [hparam, HbosParam.fparamAt_setFparam]
      simp only
      split
      · exact usedThreshold_le_max hlog hself hcounts ih
      · exact ih

/-- What labeling does to one element. -/
theorem labelElem_ok {hist : Histogram} {threshold : ℚ} {e e' : Elem}
    (h : self.labelElem hist threshold e = .ok e') :
    e'.value = e.value ∧ self.adScore hist e.value = .ok e'.score ∧
      e'.label = if threshold ≤ e'.score then .outlier else .normal := by
  unfold labelElem at h
  cases hscore : self.adScore hist e.value with
  | error message =>
    rw [hscore] at h
    cases h
  | ok score =>
    rw [hscore] at h
    cases h
    exact ⟨rfl, rfl, rfl⟩

/-- A value outside the histogram has the largest score. -/
theorem adScore_outside {hist : Histogram} (hvalid : hist.Valid) {v : ℚ} (hv : hist.Outside v) :
    self.adScore hist v = .ok self.maxPossibleScore := by
  unfold adScore
  cases getBin_outside hvalid hv with
  | inl hleft =>
    rw [hleft]
    rfl
  | inr hright =>
    rw [hright]
    rfl

/-- A value in a bin has the score of the bin. -/
theorem adScore_inBin {hist : Histogram} {v : ℚ} {b : ℕ} (hb : hist.InBin v b) :
    self.adScore hist v = .ok (self.binScore hist (hist.binCount b)) := by
  have hlt : b < hist.counts.length := hb.lt
  have houter : ¬((b : ℤ) = leftOfHistogram ∨ (b : ℤ) = rightOfHistogram) := by
    unfold leftOfHistogram rightOfHistogram
    omega
  have hscore : (self.outScores hist).getD b 0 = self.binScore hist (hist.binCount b) := by
    rw [binCount_eq hist hlt, outScores]
    simp [List.getElem?_eq_getElem hlt, binScore]
  unfold adScore
  rw [hb]
  change (if (b : ℤ) = leftOfHistogram ∨ (b : ℤ) = rightOfHistogram then
    Except.ok self.maxPossibleScore else Except.ok ((self.outScores hist).getD b 0)) = _
  rw [if_neg houter, hscore]

/-- Scoring cannot fail if the bins reach the largest value. -/
theorem adScore_ok {hist : Histogram} (hvalid : hist.Valid) (hreaches : hist.Reaches) (v : ℚ) :
    ∃ score, self.adScore hist v = .ok score := by
  obtain ⟨b, hb⟩ := getBin_ok hvalid hreaches v
  unfold adScore
  rw [hb]
  change ∃ score, (if b = leftOfHistogram ∨ b = rightOfHistogram then _ else _) = _
  split
  · exact ⟨_, rfl⟩
  · exact ⟨_, rfl⟩

/-- Labeling cannot fail if the histogram has data and its bins reach the largest value. -/
theorem labelData_ok {param : HbosParam} {data : List Elem} {idx : ℕ}
    (hvalid : (param.fparamAt idx).histogram.Valid)
    (hreaches : (param.fparamAt idx).histogram.Reaches)
    (hcounts : 0 < (param.fparamAt idx).histogram.totalCount) :
    ∃ r, self.labelData param data idx = .ok r := by
  have helem : ∀ e ∈ data, ∃ e', self.labelElem (param.fparamAt idx).histogram
      (self.usedThreshold (param.fparamAt idx)) e = .ok e' := by
    intro e _
    obtain ⟨score, hscore⟩ := self.adScore_ok hvalid hreaches e.value
    unfold labelElem
    rw [hscore]
    exact ⟨_, rfl⟩
  obtain ⟨data', hdata⟩ := mapM_ok helem
  unfold labelData
  split
  · exact ⟨_, rfl⟩
  · extract_lets fparam hist chosen fparam'
    rw [if_neg hvalid.nbin_pos.ne', if_neg hcounts.ne']
    change ∃ r, (data.mapM (self.labelElem (param.fparamAt idx).histogram
      (self.usedThreshold (param.fparamAt idx))) >>= _) = _
    rw [hdata]
    exact ⟨_, rfl⟩

/-- Labels respect the density: what lies outside the histogram is an outlier; with an outlier
everything is one whose bin holds no more values; and what lies in a most populated bin is normal
as long as no threshold above the default one is kept. -/
structure RespectsDensity (alg : ADOutlierHBOS) (fparam : HbosFuncParam) (data : List Elem) :
    Prop where
  outside : ∀ e ∈ data, fparam.histogram.Outside e.value → e.label = .outlier
  denser : ∀ e ∈ data, ∀ e' ∈ data, ∀ b b', fparam.histogram.InBin e.value b →
    fparam.histogram.InBin e'.value b' →
    fparam.histogram.binCount b' ≤ fparam.histogram.binCount b →
    e.label = .outlier → e'.label = .outlier
  typical : 0 < alg.threshold →
    fparam.internalGlobalThreshold ≤ HbosFuncParam.new.internalGlobalThreshold →
    ∀ e ∈ data, ∀ b, fparam.histogram.InBin e.value b → fparam.histogram.MostPopulated b →
      e.label = .normal

/-- If a value lies in a most populated bin then populated bins differ in count, or the score of
that bin lies below the threshold that is kept. -/
def TypicalBelowThreshold (alg : ADOutlierHBOS) (fparam : HbosFuncParam) (data : List Elem) :
    Prop :=
  0 < alg.threshold →
    fparam.internalGlobalThreshold ≤ HbosFuncParam.new.internalGlobalThreshold →
    ∀ e ∈ data, ∀ b, fparam.histogram.InBin e.value b → fparam.histogram.MostPopulated b →
      (∃ c ∈ fparam.histogram.counts, 0 < c ∧ c ≠ fparam.histogram.binCount b) ∨
        alg.useGlobalThreshold = true ∧
          alg.binScore fparam.histogram (fparam.histogram.binCount b) <
            fparam.internalGlobalThreshold

/-- A most populated bin has a score below the threshold just if populated bins differ in count or
the threshold that is kept is larger. -/
theorem binScore_lt_usedThreshold_iff (hlog : LibM.Log2Rises) (hself : self.Proper)
    (hpos : 0 < self.threshold) {fparam : HbosFuncParam}
    (hcounts : 0 < fparam.histogram.totalCount) {b : ℕ} (hlt : b < fparam.histogram.nbin)
    (hb : fparam.histogram.MostPopulated b) :
    self.binScore fparam.histogram (fparam.histogram.binCount b) < self.usedThreshold fparam ↔
      (∃ c ∈ fparam.histogram.counts, 0 < c ∧ c ≠ fparam.histogram.binCount b) ∨
        self.useGlobalThreshold = true ∧
          self.binScore fparam.histogram (fparam.histogram.binCount b) <
            fparam.internalGlobalThreshold := by
  have hlocal : self.binScore fparam.histogram (fparam.histogram.binCount b) <
      self.localThreshold fparam.histogram ↔
      ∃ c ∈ fparam.histogram.counts, 0 < c ∧ c ≠ fparam.histogram.binCount b := by
    rw [← scoreRange_lt_iff hlog hself.alpha_pos hcounts hlt hb, localThreshold_eq,
      ← scoreRange_fst hlog hself.alpha_pos hcounts hlt hb, lt_add_iff_pos_right,
      mul_pos_iff_of_pos_left hpos, sub_pos]
  rw [usedThreshold_eq, ← hlocal]
  by_cases hglobal : self.useGlobalThreshold = true
  · rw [if_pos hglobal, lt_max_iff, and_iff_right hglobal]
  · rw [if_neg hglobal]
    constructor
    · exact Or.inl
    · intro h
      exact h.resolve_right fun hstored => hglobal hstored.1

/-- An element that is labeled has the label that its score gives. -/
private theorem label_of_score {hist : Histogram} {threshold score : ℚ} {e e' : Elem}
    (h : self.labelElem hist threshold e = .ok e')
    (hscore : self.adScore hist e'.value = .ok score) :
    e'.label = if threshold ≤ score then .outlier else .normal := by
  obtain ⟨hvalue, hscore', hlabel⟩ := labelElem_ok h
  rw [← hvalue, hscore] at hscore'
  rw [hlabel, Except.ok.inj hscore']

/-- Labels respect the density just if the values of most populated bins score below the
threshold, and labeling cannot fail if the bins reach the largest value. -/
theorem respectsDensity_iff (hlog : LibM.Log2Rises) (hself : self.Proper) {param : HbosParam}
    {idx : ℕ} (hvalid : (param.fparamAt idx).histogram.Valid)
    (hcounts : 0 < (param.fparamAt idx).histogram.totalCount)
    (hstored : self.StoredThreshold (param.fparamAt idx).internalGlobalThreshold)
    (data : List Elem) :
    ((param.fparamAt idx).histogram.Reaches → ∃ r, self.labelData param data idx = .ok r) ∧
      ∀ r, self.labelData param data idx = .ok r →
        (self.RespectsDensity (param.fparamAt idx) r.data ↔
          self.TypicalBelowThreshold (param.fparamAt idx) data) := by
  refine ⟨fun hreaches => labelData_ok hvalid hreaches hcounts, fun r hr => ?_⟩
  let hist := (param.fparamAt idx).histogram
  let threshold := self.usedThreshold (param.fparamAt idx)
  have hlabeled : data.mapM (self.labelElem hist threshold) = .ok r.data := by
    rcases labelData_cases hr with ⟨rfl, rfl⟩ | ⟨-, hbins, -⟩ | ⟨-, -, hlabeled, -⟩
    · rfl
    · exact absurd hbins hvalid.nbin_pos.ne'
    · exact hlabeled
  -- the label of an element whose score is known
  have hlabel : ∀ e' ∈ r.data, ∀ score, self.adScore hist e'.value = .ok score →
      e'.label = if threshold ≤ score then .outlier else .normal := by
    intro e' he' score hscore
    obtain ⟨e, -, h⟩ := exists_of_mapM hlabeled he'
    exact label_of_score h hscore
  constructor
  · intro hrespects hpos hdefault e he b hb hmost
    obtain ⟨e', he', h⟩ := mem_of_mapM hlabeled he
    have hb' : hist.InBin e'.value b := (labelElem_ok h).1 ▸ hb
    have hnormal := hrespects.typical hpos hdefault e' he' b hb' hmost
    rw [hlabel e' he' _ (adScore_inBin hb')] at hnormal
    apply (binScore_lt_usedThreshold_iff hlog hself hpos hcounts hb.lt hmost).mp
    by_contra hle
    rw [if_pos (le_of_not_gt hle)] at hnormal
    cases hnormal
  · intro htypical
    refine ⟨fun e he hout => ?_, fun e he e' he' b b' hb hb' hcount hout => ?_,
      fun hpos hdefault e he b hb hmost => ?_⟩
    · rw [hlabel e he _ (adScore_outside hvalid hout), if_pos]
      exact usedThreshold_le_max hlog hself hcounts (hstored.le_max hlog hself)
    · rw [hlabel e he _ (adScore_inBin hb)] at hout
      have hle : threshold ≤ self.binScore hist (hist.binCount b) := by
        by_contra hlt
        rw [if_neg hlt] at hout
        cases hout
      rw [hlabel e' he' _ (adScore_inBin hb'), if_pos]
      exact hle.trans (binScore_anti hlog hself.alpha_pos hcount)
    · obtain ⟨e₀, he₀, h⟩ := exists_of_mapM hlabeled he
      have hb₀ : hist.InBin e₀.value b := (labelElem_ok h).1 ▸ hb
      have hlt := (binScore_lt_usedThreshold_iff hlog hself hpos hcounts hb.lt hmost).mpr
        (htypical hpos hdefault e₀ he₀ b hb₀ hmost)
      rw [hlabel e he _ (adScore_inBin hb), if_neg (not_le_of_gt hlt)]

end Labels

/-- The two bins that values between one and two are counted in. -/
private def twoBins (counts : List ℕ) : Histogram :=
  { adjustedBins 1 2 (fixedNbinWidth 2 1 2) with counts := counts }

/-- A model entry with two bins. -/
private def twoBinsEntry [LibM] (counts : List ℕ) : HbosFuncParam :=
  { HbosFuncParam.new with histogram := twoBins counts }

/-- The algorithm with the default threshold and two bins. -/
private def twoBinsAlg : ADOutlierHBOS := ADOutlierHBOS.new (99 / 100) true 2

/-- The histogram with two bins is valid. -/
private theorem valid_twoBins (c d : ℕ) : (twoBins [c, d]).Valid := by
  have hw : 0 < fixedNbinWidth 2 1 2 := by norm_num [fixedNbinWidth, getLowerBoundShiftMul]
  apply (valid_adjustedBins hw one_le_two).congr
  · change 2 = (adjustedBins 1 2 (fixedNbinWidth 2 1 2)).nbin
    decide +kernel
  · rfl
  · rfl
  · rfl
  · rfl

/-- The parameters of the example are proper. -/
private theorem proper_twoBinsAlg : letI := LibM.interpolated; twoBinsAlg.Proper :=
  letI := LibM.interpolated
  { alpha_pos := by decide +kernel
    threshold_nonneg := by decide +kernel
    threshold_le_one := by decide +kernel
    default_le := by decide +kernel }

/-- The first bin is the most populated one if it has as many counts as the second. -/
private theorem mostPopulated_twoBins {c d : ℕ} (hd : d ≤ c) :
    (twoBins [c, d]).MostPopulated 0 := by
  intro b
  match b with
  | 0 => exact le_rfl
  | 1 => exact hd
  | b + 2 => exact Nat.zero_le c

/-- With one value more in the first bin, a value in it is labeled and its label is right. -/
theorem respectsDensity_iff_twoBins :
    letI := LibM.interpolated
    ∃ r, twoBinsAlg.labelData (HbosParam.new.setFparam 5 (twoBinsEntry [2, 1]))
        [Elem.new 1 0] 5 = .ok r ∧
      twoBinsAlg.RespectsDensity (twoBinsEntry [2, 1]) r.data := by
  let _ := LibM.interpolated
  let param := HbosParam.new.setFparam 5 (twoBinsEntry [2, 1])
  have hfparam : param.fparamAt 5 = twoBinsEntry [2, 1] :=
    HbosParam.fparamAt_setFparam _ _ _
  have hvalid : (param.fparamAt 5).histogram.Valid := hfparam ▸ valid_twoBins 2 1
  have hcounts : 0 < (param.fparamAt 5).histogram.totalCount := by
    rw [hfparam]
    decide
  have hreaches : (param.fparamAt 5).histogram.Reaches := by
    rw [hfparam]
    unfold Reaches
    decide +kernel
  obtain ⟨hok, hiff⟩ := respectsDensity_iff LibM.log2Rises_interpolated proper_twoBinsAlg hvalid
    hcounts (hfparam ▸ .new) [Elem.new 1 0]
  obtain ⟨r, hr⟩ := hok hreaches
  refine ⟨r, hr, ?_⟩
  rw [← hfparam]
  apply (hiff r hr).mpr
  rw [hfparam]
  intro _ _ e he b hb _
  rw [List.mem_singleton.mp he] at hb
  have hzero : (twoBins [2, 1]).InBin 1 0 := by decide +kernel
  have hb' : ((b : ℕ) : ℤ) = (0 : ℕ) := Except.ok.inj (hb.symm.trans hzero)
  rw [Int.natCast_inj.mp hb']
  exact Or.inl ⟨1, by decide, by decide, by decide⟩

/-- Two values that differ fill two bins equally, and both are labeled as outliers. -/
theorem not_respectsDensity :
    letI := LibM.interpolated
    Histogram.createHistogram [1, 2] (binWidthFixedNbin 2) = .ok (twoBins [1, 1]) ∧
      ∃ r, twoBinsAlg.labelData (HbosParam.new.setFparam 5 (twoBinsEntry [1, 1]))
          [Elem.new 1 0, Elem.new 2 1] 5 = .ok r ∧
        ¬twoBinsAlg.RespectsDensity (twoBinsEntry [1, 1]) r.data := by
  let _ := LibM.interpolated
  refine ⟨by decide +kernel, ?_⟩
  have hlabels : (twoBinsAlg.labelData (HbosParam.new.setFparam 5 (twoBinsEntry [1, 1]))
      [Elem.new 1 0, Elem.new 2 1] 5).map (fun r => r.data.map fun e => (e.value, e.label)) =
        .ok [(1, .outlier), (2, .outlier)] := by decide +kernel
  cases hr : twoBinsAlg.labelData (HbosParam.new.setFparam 5 (twoBinsEntry [1, 1]))
      [Elem.new 1 0, Elem.new 2 1] 5 with
  | error e =>
    rw [hr] at hlabels
    cases hlabels
  | ok r =>
    rw [hr] at hlabels
    refine ⟨r, rfl, fun hrespects => ?_⟩
    have hdata : (r.data.map fun e => (e.value, e.label)) = [(1, .outlier), (2, .outlier)] :=
      Except.ok.inj hlabels
    have hmem : ((1 : ℚ), EventType.outlier) ∈ r.data.map fun e => (e.value, e.label) := by
      rw [hdata]
      exact List.mem_cons_self
    obtain ⟨e, he, heq⟩ := List.mem_map.mp hmem
    have hvalue : e.value = 1 := congrArg Prod.fst heq
    have hlabel : e.label = .outlier := congrArg Prod.snd heq
    have hnormal := hrespects.typical (by decide +kernel) le_rfl e he 0
      (by rw [hvalue]; decide +kernel) (mostPopulated_twoBins le_rfl)
    rw [hlabel] at hnormal
    cases hnormal

end ADOutlierHBOS

end Chimbuko
