import Chimbuko.Param.ParamInterface
import Chimbuko.Util.HistogramFixedNbin

/-!
# The model of the histogram-based algorithm

`core/param/hbos_param`: a histogram and a threshold for each model index. Histograms are made
and merged with the largest number of bins allowed, so as long as every instance uses the same
number the histograms represent the data exactly in number and extremes.
-/

namespace Chimbuko

open KeyedMap

/-- The histogram and the threshold of one function. -/
structure HbosFuncParam where
  histogram : Histogram
  internalGlobalThreshold : ℚ
deriving DecidableEq

namespace HbosFuncParam

variable [LibM]

/-- An entry without values. -/
def new : HbosFuncParam :=
  { histogram := Histogram.empty, internalGlobalThreshold := LibM.log2 (100001 / 100000) }

/-- Merge the histograms and choose the more stringent threshold. -/
def merge (self other : HbosFuncParam) (bw : BinWidthSpecifier) :
    Except String HbosFuncParam := do
  let histogram ← Histogram.mergeHistograms self.histogram other.histogram bw
  pure { histogram := histogram
         internalGlobalThreshold :=
           Max.max self.internalGlobalThreshold other.internalGlobalThreshold }

end HbosFuncParam

/-- Function parameters for each model index, and the largest number of bins. -/
structure HbosParam where
  hbosstats : ModelMap HbosFuncParam
  maxbins : ℤ

namespace HbosParam

/-- Two models are equal if they have the same entries in the same order. -/
theorem eq_iff (p q : HbosParam) :
    p.hbosstats.entries = q.hbosstats.entries ∧ p.maxbins = q.maxbins ↔ p = q := by
  constructor
  · intro h
    cases p
    cases q
    rw [HbosParam.mk.injEq]
    exact ⟨AList.ext h.1, h.2⟩
  · intro h
    rw [h]
    exact ⟨rfl, rfl⟩

instance : DecidableEq HbosParam := fun p q => decidable_of_iff _ (eq_iff p q)

/-- A model without functions. -/
def new : HbosParam := { hbosstats := ∅, maxbins := 200 }

/-- Forget all functions. -/
def clear (self : HbosParam) : HbosParam := { self with hbosstats := ∅ }

/-- Set the most bins of a histogram. -/
def setMaxBins (self : HbosParam) (b : ℤ) : HbosParam := { self with maxbins := b }

section Update

variable [LibM]

/-- `m_hbosstats[idx].merge(from, bwspec)`; indexing a map creates a missing entry by default. -/
def mergeAt (maxbins : ℤ) (old : Option HbosFuncParam) (other : HbosFuncParam) :
    Except String HbosFuncParam :=
  (old.getD HbosFuncParam.new).merge other (binWidthFixedNbin maxbins)

/-- Merge the entries of another instance, with its largest number of bins. -/
def updateInternal (self other : HbosParam) : Except String HbosParam := do
  let hbosstats ← upsertAll (mergeAt other.maxbins) self.hbosstats other.hbosstats
  pure { hbosstats := hbosstats, maxbins := other.maxbins }

/-- Merge the entries of another model into this one. -/
def update (self other : HbosParam) : Except String HbosParam := self.updateInternal other

/-- Merge the entries of another instance and set its entries to the result. -/
def updateAndReturn (self toFrom : HbosParam) : Except String (HbosParam × HbosParam) := do
  let self ← self.updateInternal toFrom
  let returned := mapEntries (fun idx _ => (self.hbosstats.lookup idx).getD HbosFuncParam.new)
    toFrom.hbosstats
  pure (self, { toFrom with hbosstats := returned })

/-- Take over the entries of another instance. -/
def assign (self other : HbosParam) : HbosParam :=
  { self with hbosstats := other.hbosstats ∪ self.hbosstats }

/-- Set the entry of one model index to the histogram of some values. -/
def generateHistogram (self : HbosParam) (modelId : ℕ) (values : List ℚ)
    (globalThresholdInit : ℚ) : Except String HbosParam :=
  if 0 < values.length then do
    let hist ← Histogram.createHistogram values (binWidthFixedNbin self.maxbins)
    let fparam := { histogram := hist, internalGlobalThreshold := globalThresholdInit }
    pure { self with hbosstats := self.hbosstats.insert modelId fparam }
  else pure self

end Update

/-- `m_hbosstats[idx]`: the entry of a model index, which is a fresh one if there is none. -/
def fparamAt [LibM] (self : HbosParam) (idx : ℕ) : HbosFuncParam :=
  (self.hbosstats.lookup idx).getD HbosFuncParam.new

/-- Set the entry of a model index. -/
def setFparam (self : HbosParam) (idx : ℕ) (fparam : HbosFuncParam) : HbosParam :=
  { self with hbosstats := self.hbosstats.insert idx fparam }

/-- The histogram stored for a model index, without bins where there is no entry. -/
def histogramAt (self : HbosParam) (idx : ℕ) : Histogram :=
  ((self.hbosstats.lookup idx).map HbosFuncParam.histogram).getD Histogram.empty

/-- A histogram has no bins if there are no values, and else represents them. -/
def Stored (n : ℤ) (h : Histogram) (values : List ℚ) : Prop :=
  values = [] ∧ h.nbin = 0 ∨ h.Represents n values

/-- The empty histogram stores no values. -/
theorem stored_empty (n : ℤ) : Stored n Histogram.empty [] := Or.inl ⟨rfl, rfl⟩

/-- Merging histograms of one number of bins stores the values of both. -/
theorem Stored.merge {n : ℤ} (hn : 1 ≤ n) (hn' : n ≤ 50000) {g l : Histogram}
    {gvalues lvalues : List ℚ} (hg : Stored n g gvalues) (hl : Stored n l lvalues) :
    ∃ h, Histogram.mergeHistograms g l (binWidthFixedNbin n) = .ok h ∧
      Stored n h (gvalues ++ lvalues) := by
  rcases hg with ⟨hgvalues, hgn⟩ | hg
  · refine ⟨l, by rw [Histogram.mergeHistograms, if_pos hgn]; rfl, ?_⟩
    rwa [hgvalues, List.nil_append]
  rcases hl with ⟨hlvalues, hln⟩ | hl
  · refine ⟨g, ?_, ?_⟩
    · rw [Histogram.mergeHistograms, if_neg hg.valid.nbin_pos.ne', if_pos hln]
      rfl
    · rw [hlvalues, List.append_nil]
      exact Or.inr hg
  · obtain ⟨h, hrun, hh⟩ := Histogram.mergeHistograms_represents hn hn' hg hl
    exact ⟨h, hrun, Or.inr hh⟩

/-- The values behind every entry of a model. -/
def Holds (n : ℤ) (self : HbosParam) (pushed : ℕ → List ℚ) : Prop :=
  self.maxbins = n ∧ ∀ idx, Stored n (self.histogramAt idx) (pushed idx)

/-- The histogram of a function that has an entry. -/
theorem histogramAt_of_lookup {self : HbosParam} {idx : ℕ} {p : HbosFuncParam}
    (h : self.hbosstats.lookup idx = some p) : self.histogramAt idx = p.histogram := by
  rw [histogramAt, h]
  rfl

/-- A function without an entry has no histogram. -/
theorem histogramAt_of_lookup_none {self : HbosParam} {idx : ℕ}
    (h : self.hbosstats.lookup idx = none) : self.histogramAt idx = Histogram.empty := by
  rw [histogramAt, h]
  rfl

/-- The entry that was set. -/
@[simp] theorem fparamAt_setFparam [LibM] (self : HbosParam) (idx : ℕ) (p : HbosFuncParam) :
    (self.setFparam idx p).fparamAt idx = p := by
  rw [fparamAt, setFparam, AList.lookup_insert]
  rfl

/-- The other entries stay as they are. -/
theorem fparamAt_setFparam_ne [LibM] (self : HbosParam) {idx k : ℕ} (h : k ≠ idx)
    (p : HbosFuncParam) : (self.setFparam idx p).fparamAt k = self.fparamAt k := by
  rw [fparamAt, setFparam, AList.lookup_insert_ne h]
  rfl

/-- A new model holds no values. -/
theorem holds_new (n : ℤ) : Holds n (new.setMaxBins n) fun _ => [] := by
  refine ⟨rfl, fun idx => ?_⟩
  rw [histogramAt_of_lookup_none (AList.lookup_empty idx)]
  exact stored_empty n

/-- A cleared model holds no values. -/
theorem Holds.clear {n : ℤ} {self : HbosParam} {pushed : ℕ → List ℚ} (h : Holds n self pushed) :
    Holds n self.clear fun _ => [] := by
  refine ⟨h.1, fun idx => ?_⟩
  rw [histogramAt_of_lookup_none (AList.lookup_empty idx)]
  exact stored_empty n

/-- An entry without values behind it has no bins. -/
theorem Holds.none {n : ℤ} {self : HbosParam} {pushed : ℕ → List ℚ} (h : Holds n self pushed)
    {idx : ℕ} (hidx : self.hbosstats.lookup idx = none) : pushed idx = [] := by
  have hstored := h.2 idx
  rw [histogramAt_of_lookup_none hidx] at hstored
  rcases hstored with ⟨hvalues, -⟩ | hrep
  · exact hvalues
  · exact absurd hrep.valid.nbin_pos (lt_irrefl 0)

/-- Generating a histogram cannot fail and replaces the values behind one entry. -/
theorem Holds.generateHistogram {n : ℤ} (hn : 1 ≤ n) (hn' : n ≤ 50000) {self : HbosParam}
    {pushed : ℕ → List ℚ} (hself : Holds n self pushed) (idx : ℕ) {values : List ℚ}
    (hne : values ≠ []) (threshold : ℚ) :
    ∃ result, self.generateHistogram idx values threshold = .ok result ∧
      Holds n result (Function.update pushed idx values) := by
  obtain ⟨h, hrun, hh⟩ := Histogram.createHistogram_represents hn hn' hne
  let fparam : HbosFuncParam := { histogram := h, internalGlobalThreshold := threshold }
  refine ⟨{ self with hbosstats := self.hbosstats.insert idx fparam }, ?_, hself.1,
    fun k => ?_⟩
  · rw [HbosParam.generateHistogram, if_pos (List.length_pos_iff.mpr hne), hself.1, hrun]
    rfl
  · by_cases hk : k = idx
    · subst hk
      rw [histogramAt_of_lookup (AList.lookup_insert _), Function.update_self]
      exact Or.inr hh
    · rw [Function.update_of_ne hk, histogramAt, AList.lookup_insert_ne hk]
      exact hself.2 k

section UpdateSpec

variable [LibM]

/-- Updating cannot fail and puts the values of both models together. -/
theorem Holds.update {n : ℤ} (hn : 1 ≤ n) (hn' : n ≤ 50000) {self other : HbosParam}
    {pushed pushed' : ℕ → List ℚ} (hself : Holds n self pushed) (hother : Holds n other pushed') :
    ∃ result, self.update other = .ok result ∧
      Holds n result fun idx => pushed idx ++ pushed' idx := by
  have hmerge : ∀ idx p, other.hbosstats.lookup idx = some p →
      ∃ q, mergeAt other.maxbins (self.hbosstats.lookup idx) p = .ok q ∧
        Stored n q.histogram (pushed idx ++ pushed' idx) := by
    intro idx p hp
    have hp' := hother.2 idx
    rw [histogramAt_of_lookup hp] at hp'
    have hold : ((self.hbosstats.lookup idx).getD HbosFuncParam.new).histogram =
        self.histogramAt idx := by
      cases hs : self.hbosstats.lookup idx with
      | none => rw [histogramAt_of_lookup_none hs]; rfl
      | some q => rw [histogramAt_of_lookup hs]; rfl
    obtain ⟨h, hrun, hh⟩ := Stored.merge hn hn' (hself.2 idx) hp'
    let old := (self.hbosstats.lookup idx).getD HbosFuncParam.new
    refine ⟨⟨h, Max.max old.internalGlobalThreshold p.internalGlobalThreshold⟩, ?_, hh⟩
    rw [mergeAt, HbosFuncParam.merge, hold, hother.1, hrun]
    rfl
  obtain ⟨stats, hrun, hlookup⟩ := upsertAll_ok (mergeAt other.maxbins) self.hbosstats
    other.hbosstats (by
      intro idx p hp
      obtain ⟨q, hq, -⟩ := hmerge idx p hp
      rw [hq]
      rfl)
  refine ⟨{ hbosstats := stats, maxbins := other.maxbins }, ?_, hother.1, fun idx => ?_⟩
  · rw [HbosParam.update, updateInternal, hrun]
    rfl
  have hidx := hlookup idx
  cases hp : other.hbosstats.lookup idx with
  | none =>
    rw [hp] at hidx
    have hsame : (HbosParam.mk stats other.maxbins).histogramAt idx = self.histogramAt idx := by
      rw [histogramAt, hidx]
      rfl
    change Stored n _ (pushed idx ++ pushed' idx)
    rw [hsame, hother.none hp, List.append_nil]
    exact hself.2 idx
  | some p =>
    obtain ⟨q, hq, hstored⟩ := hmerge idx p hp
    rw [hp, upserted, hq] at hidx
    rw [histogramAt_of_lookup hidx]
    exact hstored

/-- Updating and returning also leaves the updated entries in the other model. -/
theorem Holds.updateAndReturn {n : ℤ} (hn : 1 ≤ n) (hn' : n ≤ 50000) {self other : HbosParam}
    {pushed pushed' : ℕ → List ℚ} (hself : Holds n self pushed) (hother : Holds n other pushed') :
    ∃ result returned, self.updateAndReturn other = .ok (result, returned) ∧
      Holds n result (fun idx => pushed idx ++ pushed' idx) ∧
      Holds n returned fun idx =>
        if (other.hbosstats.lookup idx).isSome then pushed idx ++ pushed' idx else [] := by
  obtain ⟨result, hrun, hresult⟩ := hself.update hn hn' hother
  let returned := mapEntries
    (fun idx _ => (result.hbosstats.lookup idx).getD HbosFuncParam.new) other.hbosstats
  refine ⟨result, { other with hbosstats := returned }, ?_, hresult, hother.1, fun idx => ?_⟩
  · rw [HbosParam.updateAndReturn]
    change (self.update other >>= _) = _
    rw [hrun]
    rfl
  · have hlookup := lookup_mapEntries
      (fun idx _ => (result.hbosstats.lookup idx).getD HbosFuncParam.new) other.hbosstats idx
    cases hp : other.hbosstats.lookup idx with
    | none =>
      rw [hp] at hlookup
      rw [histogramAt_of_lookup_none hlookup]
      simp only [hp]
      exact stored_empty n
    | some p =>
      rw [hp] at hlookup
      rw [histogramAt_of_lookup hlookup]
      have hstored := hresult.2 idx
      rw [histogramAt] at hstored
      simp only [hp, Option.isSome_some, if_true]
      cases hr : result.hbosstats.lookup idx with
      | none =>
        rw [hr] at hstored
        exact hstored
      | some r =>
        rw [hr] at hstored
        exact hstored

end UpdateSpec

end HbosParam

end Chimbuko
