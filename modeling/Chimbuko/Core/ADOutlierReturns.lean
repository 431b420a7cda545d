import Chimbuko.Core.ADOutlierHolds
import Chimbuko.Util.HistogramBins
import Chimbuko.Util.HistogramCollect

/-!
# When labeling returns

Labeling a data set returns if each of its values has a score. A value has none if the histogram
of its function cannot tell its bin or the shares of the values on both sides. Which values have
scores does not change as a model is used.

A run also merges the statistics of its data sets into a model that is only read when models are
synchronised. If this fails then so does the run, even if nothing is ever synchronised.
-/

namespace Chimbuko

open KeyedMap TransitionSystem Histogram

/-- An algorithm labels data sets if each value has a score, and labeling leaves the scores as they
are. This is said of models whose histograms have counts if they have bins. -/
structure ReportingAlgorithm.ScoresBy {P J : Type} (A : ReportingAlgorithm P J)
    (Counted : P → Prop) (HasScore : P → ℕ → ℚ → Prop) : Prop where
  returns_labelData : ∀ {p idx} {xs : List (ℚ × ℕ)}, Counted p →
    (Returns (A.labelData p (xs.map fun x => Elem.new x.1 x.2) idx) ↔
      ∀ x ∈ xs, HasScore p idx x.1)
  counted_eq : ∀ {p data idx r}, A.labelData p data idx = .ok r → Counted r.param = Counted p
  hasScore_eq : ∀ {p data idx r}, A.labelData p data idx = .ok r → HasScore r.param = HasScore p

namespace ADOutlierSSTD

variable [LibM] (self : ADOutlierSSTD)

/-- Labeling by the standard deviation cannot fail. -/
theorem returns_labelData (param : SstdParam) (data : List Elem) (idx : ℕ) :
    Returns (self.labelData param data idx) := by
  unfold labelData
  split
  · exact ⟨_, rfl⟩
  · dsimp only
    split <;> exact ⟨_, rfl⟩

/-- Every value has a distance from the mean. -/
theorem scoresBy : self.reporting.ScoresBy (fun _ => True) fun _ _ _ => True :=
  ⟨fun _ => iff_of_true (self.returns_labelData _ _ _) fun _ _ => trivial,
    fun _ => rfl, fun _ => rfl⟩

end ADOutlierSSTD

/-- A histogram that has counts if it has bins. -/
def Histogram.Counted (h : Histogram) : Prop := h.nbin ≠ 0 → h.totalCount ≠ 0

instance (h : Histogram) : Decidable h.Counted := inferInstanceAs (Decidable (_ → _))

namespace ADOutlierHBOS

variable [LibM] (self : ADOutlierHBOS)

/-- A value has a score if its bin can be told, or there are no bins. -/
def HasScore (h : Histogram) (value : ℚ) : Prop :=
  h.nbin = 0 ∨ Returns (h.getBin value (1 / 20))

omit [LibM] in
/-- The bin of a value cannot be told if it lies past the end of the bins but below the largest
value. -/
theorem hasScore_iff {h : Histogram} (hpos : 0 < h.nbin) (hw : 0 < h.binWidth)
    (hend : h.EndsAtMax) {value : ℚ} : HasScore h value ↔ ¬h.InGap value := by
  have htol : (0 : ℚ) ≤ 1 / 20 := by norm_num
  constructor
  · rintro (hbins | ⟨b, hb⟩) hgap
    · exact hpos.ne' hbins
    · have hstart : h.start < value := by
        have hn : 0 ≤ h.nbin * h.binWidth := mul_nonneg (Nat.cast_nonneg _) hw.le
        linarith [hgap.1]
      rw [getBin_gap hpos hw htol hstart hgap] at hb
      cases hb
  · intro hgap
    obtain ⟨b, hb, -⟩ := (getBin_found_iff hpos hw htol hend).mpr hgap
    exact Or.inr ⟨b, hb⟩

/-- A value whose bin can be told is labeled. -/
theorem returns_labelElem (h : Histogram) (threshold : ℚ) (e : Elem) :
    Returns (self.labelElem h threshold e) ↔ Returns (h.getBin e.value (1 / 20)) := by
  have hscore : Returns (self.adScore h e.value) ↔ Returns (h.getBin e.value (1 / 20)) := by
    apply returns_bind_of_returns
    intro b
    split <;> exact ⟨_, rfl⟩
  rw [← hscore]
  exact returns_bind_of_returns fun _ => ⟨_, rfl⟩

/-- Labeling needs the bin of each value. -/
theorem scoresBy : self.reporting.ScoresBy (fun p => ∀ k, (p.fparamAt k).histogram.Counted)
    fun p idx => HasScore (p.fparamAt idx).histogram := by
  refine ⟨?_, ?_, ?_⟩
  · intro p idx xs hcounted
    change Returns (self.labelData p _ idx) ↔ _
    unfold labelData HasScore
    by_cases hnil : xs = []
    · rw [hnil]
      exact iff_of_true ⟨_, rfl⟩ fun x hx => absurd hx List.not_mem_nil
    · have hlength : ¬(xs.map fun x => Elem.new x.1 x.2).length = 0 := by
        rwa [List.length_map, List.length_eq_zero_iff]
      rw [if_neg hlength]
      dsimp only
      by_cases hbins : (p.fparamAt idx).histogram.nbin = 0
      · rw [if_pos hbins]
        exact iff_of_true ⟨_, rfl⟩ fun x _ => Or.inl hbins
      · rw [if_neg hbins, if_neg (hcounted idx hbins)]
        refine (returns_bind_of_returns fun _ => ⟨_, rfl⟩).trans ?_
        rw [returns_mapM, List.forall_mem_map]
        simp only [returns_labelElem, hbins, false_or]
        exact Iff.rfl
  · intro p data idx r h
    simp only [self.histogram_labelData h]
  · intro p data idx r h
    simp only [self.histogram_labelData h]

end ADOutlierHBOS

namespace ADOutlierCOPOD

variable [LibM] (self : ADOutlierCOPOD)

/-- The shares of the values on both sides of a value can be told. -/
def HasTails (h : Histogram) (value : ℚ) : Prop :=
  Returns (h.empiricalCDF value) ∧ Returns (h.negate.empiricalCDF (-value))

/-- A value has a score if its tails and those of all midpoints can be told, or there are no
bins. -/
def HasScore (h : Histogram) (value : ℚ) : Prop :=
  h.nbin = 0 ∨ (∀ b < h.nbin, HasTails h (h.binValue b)) ∧ HasTails h value

/-- A value with tails has a score. -/
theorem returns_copodScore (h : Histogram) (value : ℚ) :
    Returns (self.copodScore h value) ↔ HasTails h value := by
  have hprob : ∀ (g : Histogram) (v : ℚ), Returns (tailedProb g v) ↔ Returns (g.empiricalCDF v) :=
    fun _ _ => returns_bind_of_returns fun _ => ⟨_, rfl⟩
  unfold HasTails
  rw [← hprob, ← hprob]
  constructor
  · intro hscore
    obtain ⟨left, hleft, hscore⟩ := returns_bind.mp hscore
    obtain ⟨right, hright, -⟩ := returns_bind.mp hscore
    exact ⟨⟨left, hleft⟩, ⟨right, hright⟩⟩
  · rintro ⟨⟨left, hleft⟩, ⟨right, hright⟩⟩
    exact returns_bind.mpr ⟨left, hleft, returns_bind.mpr ⟨right, hright, ⟨_, rfl⟩⟩⟩

/-- The threshold is found if all midpoints have tails. -/
theorem returns_localThreshold (h : Histogram) :
    Returns (self.localThreshold h) ↔ ∀ b < h.nbin, HasTails h (h.binValue b) := by
  have hstep : ∀ (range : ℚ × ℚ) (b : ℕ), Returns (do
      let score ← self.copodScore h (h.binValue b)
      pure (Min.min score range.1, Max.max score range.2) : Except String (ℚ × ℚ)) ↔
        HasTails h (h.binValue b) := by
    intro range b
    rw [← self.returns_copodScore]
    exact returns_bind_of_returns fun _ => ⟨_, rfl⟩
  have hrange : Returns (self.scoreRange h) ↔ ∀ b < h.nbin, HasTails h (h.binValue b) := by
    refine (returns_foldlM hstep _ _).trans ?_
    simp only [List.mem_range]
  rw [← hrange]
  exact returns_bind_of_returns fun _ => ⟨_, rfl⟩

/-- Labeling needs the tails of each value, and of all midpoints. -/
theorem scoresBy : self.reporting.ScoresBy (fun p => ∀ k, (p.fparamAt k).histogram.Counted)
    fun p idx => HasScore (p.fparamAt idx).histogram := by
  refine ⟨?_, ?_, ?_⟩
  · intro p idx xs hcounted
    change Returns (self.labelData p _ idx) ↔ _
    unfold labelData HasScore
    by_cases hnil : xs = []
    · rw [hnil]
      exact iff_of_true ⟨_, rfl⟩ fun x hx => absurd hx List.not_mem_nil
    · have hlength : ¬(xs.map fun x => Elem.new x.1 x.2).length = 0 := by
        rwa [List.length_map, List.length_eq_zero_iff]
      rw [if_neg hlength]
      dsimp only
      by_cases hbins : (p.fparamAt idx).histogram.nbin = 0
      · rw [if_pos hbins]
        exact iff_of_true ⟨_, rfl⟩ fun x _ => Or.inl hbins
      · rw [if_neg hbins, if_neg (hcounted idx hbins)]
        have helem : ∀ threshold (e : Elem),
            Returns (self.labelElem (p.fparamAt idx).histogram threshold e) ↔
              HasTails (p.fparamAt idx).histogram e.value := by
          intro threshold e
          rw [← self.returns_copodScore]
          exact returns_bind_of_returns fun _ => ⟨_, rfl⟩
        have helems : ∀ threshold, Returns ((xs.map fun x => Elem.new x.1 x.2).mapM
            (self.labelElem (p.fparamAt idx).histogram threshold)) ↔
              ∀ x ∈ xs, HasTails (p.fparamAt idx).histogram x.1 := by
          intro threshold
          rw [returns_mapM, List.forall_mem_map]
          simp only [helem]
          exact Iff.rfl
        obtain ⟨x, hx⟩ := List.exists_mem_of_ne_nil xs hnil
        constructor
        · intro h
          obtain ⟨lThreshold, hlocal, h⟩ := returns_bind.mp h
          have hdata := (helems _).mp ((returns_bind_of_returns fun _ => ⟨_, rfl⟩).mp h)
          exact fun x hx => Or.inr
            ⟨(self.returns_localThreshold _).mp ⟨lThreshold, hlocal⟩, hdata x hx⟩
        · intro h
          have htails := fun x hx => (h x hx).resolve_left hbins
          obtain ⟨lThreshold, hlocal⟩ := (self.returns_localThreshold _).mpr (htails x hx).1
          refine returns_bind.mpr ⟨lThreshold, hlocal, ?_⟩
          exact (returns_bind_of_returns fun _ => ⟨_, rfl⟩).mpr
            ((helems _).mpr fun x hx => (htails x hx).2)
  · intro p data idx r h
    simp only [self.histogram_labelData h]
  · intro p data idx r h
    simp only [self.histogram_labelData h]

end ADOutlierCOPOD

/-- The functions that have data sets in a run, and their values. -/
structure DataSets where
  fids : List ℕ
  values : ℕ → List ℚ
  nodup : fids.Nodup
  mem_iff : ∀ fid, fid ∈ fids ↔ values fid ≠ []

/-- Put the values of all data sets of a run into statistics, and merge these into the local
model. -/
def ADAlgorithm.updateLocal {P : Type} (A : ADAlgorithm P) (localParam : P) (data : DataSets) :
    Except String P := do
  let param ← data.fids.foldlM (fun param fid => A.addValues param fid (data.values fid)) A.runParam
  A.update localParam param

/-- An algorithm whose models have a histogram for each function with values, made and merged by
a rule for the bin width. Models that are merged into others must be ready, which the statistics of
a run are. -/
structure ADAlgorithm.KeepsHistograms {P : Type} (A : ADAlgorithm P) (bw : BinWidthSpecifier)
    (hist : P → ℕ → Option Histogram) (Ready : P → Prop) : Prop where
  new : ∀ idx, hist A.new idx = none
  runParam : (∀ idx, hist A.runParam idx = none) ∧ Ready A.runParam
  returns_addValues : ∀ {p idx values}, Ready p → Returns (createHistogram values bw) →
    Returns (A.addValues p idx values)
  addValues : ∀ {p q idx values}, Ready p → values ≠ [] → A.addValues p idx values = .ok q →
    Ready q ∧ ∃ h, createHistogram values bw = .ok h ∧
      hist q = Function.update (hist p) idx (some h)
  returns_update : ∀ {p q}, Ready q → (∀ idx h, hist q idx = some h →
    Returns (mergeHistograms ((hist p idx).getD empty) h bw)) → Returns (A.update p q)
  update_of_none : ∀ {p q r idx}, A.update p q = .ok r → hist q idx = none →
    hist r idx = hist p idx
  update_of_some : ∀ {p q r idx h}, Ready q → A.update p q = .ok r → hist q idx = some h →
    ∃ h', mergeHistograms ((hist p idx).getD empty) h bw = .ok h' ∧ hist r idx = some h'

namespace ADAlgorithm.KeepsHistograms

variable {P : Type} {A : ADAlgorithm P} {bw : BinWidthSpecifier} {hist : P → ℕ → Option Histogram}
  {Ready : P → Prop} (hA : A.KeepsHistograms bw hist Ready)

include hA

/-- Functions with values get the histograms of their values. -/
private theorem addAll_spec {values : ℕ → List ℚ} {fids : List ℕ} (hnodup : fids.Nodup)
    (hvalues : ∀ fid ∈ fids, values fid ≠ []) {p q : P} (hp : Ready p)
    (h : fids.foldlM (fun param fid => A.addValues param fid (values fid)) p = .ok q) :
    Ready q ∧ (∀ fid ∈ fids, ∃ h, createHistogram (values fid) bw = .ok h ∧
      hist q fid = some h) ∧ ∀ fid, fid ∉ fids → hist q fid = hist p fid := by
  induction fids generalizing p with
  | nil =>
    cases h
    exact ⟨hp, fun fid hfid => absurd hfid List.not_mem_nil, fun _ _ => rfl⟩
  | cons fid rest ih =>
    rw [List.nodup_cons] at hnodup
    rw [List.forall_mem_cons] at hvalues
    rw [List.foldlM_cons] at h
    obtain ⟨next, hfirst, hrest⟩ := bind_eq_ok h
    obtain ⟨hnext, made, hmade, hhist⟩ := hA.addValues hp hvalues.1 hfirst
    obtain ⟨hq, hmem, hothers⟩ := ih hnodup.2 hvalues.2 hnext hrest
    refine ⟨hq, ?_, fun k hk => ?_⟩
    · rw [List.forall_mem_cons]
      refine ⟨⟨made, hmade, ?_⟩, hmem⟩
      rw [hothers fid hnodup.1, hhist, Function.update_self]
    · rw [List.mem_cons, not_or] at hk
      rw [hothers k hk.2, hhist, Function.update_of_ne hk.1]

/-- Adding values returns if all histograms can be made. -/
private theorem returns_addAll {values : ℕ → List ℚ} {fids : List ℕ}
    (hvalues : ∀ fid ∈ fids, values fid ≠ []) {p : P} (hp : Ready p)
    (h : ∀ fid ∈ fids, Returns (createHistogram (values fid) bw)) :
    Returns (fids.foldlM (fun param fid => A.addValues param fid (values fid)) p) := by
  induction fids generalizing p with
  | nil => exact ⟨p, rfl⟩
  | cons fid rest ih =>
    rw [List.forall_mem_cons] at hvalues h
    rw [List.foldlM_cons, returns_bind]
    obtain ⟨next, hfirst⟩ : Returns (A.addValues p fid (values fid)) :=
      hA.returns_addValues hp h.1
    exact ⟨next, hfirst, ih hvalues.2 (hA.addValues hp hvalues.1 hfirst).1 h.2⟩

/-- A run merges the values of each function into its histogram. -/
theorem mergeValues_of_updateLocal {p r : P} {data : DataSets}
    (h : A.updateLocal p data = .ok r) (idx : ℕ) :
    mergeValues bw ((hist p idx).getD empty) (data.values idx) =
      .ok ((hist r idx).getD empty) := by
  obtain ⟨q, hadd, hupdate⟩ := bind_eq_ok h
  obtain ⟨hq, hmem, hothers⟩ := hA.addAll_spec data.nodup (fun fid => (data.mem_iff fid).mp)
    hA.runParam.2 hadd
  unfold mergeValues
  by_cases hnil : data.values idx = []
  · have hidx : idx ∉ data.fids := fun hidx => (data.mem_iff idx).mp hidx hnil
    rw [if_pos hnil, hA.update_of_none hupdate ((hothers idx hidx).trans (hA.runParam.1 idx))]
    rfl
  · obtain ⟨made, hmade, hhist⟩ := hmem idx ((data.mem_iff idx).mpr hnil)
    obtain ⟨merged, hmerged, hr⟩ := hA.update_of_some hq hupdate hhist
    rw [if_neg hnil, hmade, hr]
    exact hmerged

/-- A run can merge its values if those of each function can be merged. -/
theorem returns_updateLocal (p : P) (data : DataSets) : Returns (A.updateLocal p data) ↔
    ∀ idx, Returns (mergeValues bw ((hist p idx).getD empty) (data.values idx)) := by
  constructor
  · rintro ⟨r, h⟩ idx
    exact ⟨_, hA.mergeValues_of_updateLocal h idx⟩
  · intro h
    have hmerge : ∀ fid ∈ data.fids, ∃ made, createHistogram (data.values fid) bw = .ok made ∧
        Returns (mergeHistograms ((hist p fid).getD empty) made bw) := by
      intro fid hfid
      have hfid' := h fid
      unfold mergeValues at hfid'
      rw [if_neg ((data.mem_iff fid).mp hfid)] at hfid'
      exact returns_bind.mp hfid'
    have hvalues : ∀ fid ∈ data.fids, data.values fid ≠ [] := fun fid => (data.mem_iff fid).mp
    obtain ⟨q, hadd⟩ := hA.returns_addAll hvalues hA.runParam.2 fun fid hfid => by
      obtain ⟨made, hmade, -⟩ := hmerge fid hfid
      exact ⟨made, hmade⟩
    obtain ⟨hq, hmem, hothers⟩ := hA.addAll_spec data.nodup hvalues hA.runParam.2 hadd
    refine returns_bind.mpr ⟨q, hadd, hA.returns_update hq fun idx made hmade => ?_⟩
    by_cases hidx : idx ∈ data.fids
    · obtain ⟨made', hmade', hhist⟩ := hmem idx hidx
      obtain ⟨made'', hmade'', hmerged⟩ := hmerge idx hidx
      obtain rfl := Except.ok.inj (hmade'.symm.trans hmade'')
      obtain rfl := Option.some.inj (hhist.symm.trans hmade)
      exact hmerged
    · rw [hothers idx hidx, hA.runParam.1 idx] at hmade
      cases hmade

/-- Runs can merge their values one after another if those of each function can be merged one
after another. -/
theorem returns_updateLocals (runs : List DataSets) : Returns (runs.foldlM A.updateLocal A.new) ↔
    ∀ idx, Mergeable bw (runs.map fun data => data.values idx) := by
  have hruns : ∀ p, Returns (runs.foldlM A.updateLocal p) ↔ ∀ idx,
      Returns ((runs.map fun data => data.values idx).foldlM (mergeValues bw)
        ((hist p idx).getD empty)) := by
    induction runs with
    | nil => exact fun p => iff_of_true ⟨p, rfl⟩ fun idx => ⟨_, rfl⟩
    | cons data rest ih =>
      intro p
      rw [List.foldlM_cons, returns_bind]
      constructor
      · rintro ⟨r, hfirst, hrest⟩ idx
        rw [List.map_cons, List.foldlM_cons]
        exact returns_bind.mpr ⟨_, hA.mergeValues_of_updateLocal hfirst idx, (ih r).mp hrest idx⟩
      · intro h
        have hparts : ∀ idx, ∃ merged,
            mergeValues bw ((hist p idx).getD empty) (data.values idx) = .ok merged ∧
            Returns ((rest.map fun data => data.values idx).foldlM (mergeValues bw) merged) := by
          intro idx
          have hidx := h idx
          rw [List.map_cons, List.foldlM_cons] at hidx
          exact returns_bind.mp hidx
        obtain ⟨r, hfirst⟩ := (hA.returns_updateLocal p data).mpr fun idx => by
          obtain ⟨merged, hmerged, -⟩ := hparts idx
          exact ⟨merged, hmerged⟩
        refine ⟨r, hfirst, (ih r).mpr fun idx => ?_⟩
        obtain ⟨merged, hmerged, hrest⟩ := hparts idx
        rw [hA.mergeValues_of_updateLocal hfirst idx] at hmerged
        rwa [Except.ok.inj hmerged]
  rw [hruns]
  simp only [hA.new, Option.getD_none]
  exact Iff.rfl

end ADAlgorithm.KeepsHistograms

section Entries

variable {V : Type} (histogram : V → Histogram) {fresh : V}

/-- The histogram of a function that has an entry. -/
def histOf (m : ModelMap V) (idx : ℕ) : Option Histogram := (m.lookup idx).map histogram

variable {histogram}

/-- An entry that is set brings its histogram. -/
private theorem histOf_insert (m : ModelMap V) (idx : ℕ) (v : V) :
    histOf histogram (m.insert idx v) =
      Function.update (histOf histogram m) idx (some (histogram v)) := by
  funext k
  unfold histOf
  by_cases hk : k = idx
  · rw [hk, AList.lookup_insert, Function.update_self]
    rfl
  · rw [AList.lookup_insert_ne hk, Function.update_of_ne hk]

/-- A missing entry counts as a fresh one, which has no bins. -/
private theorem getD_histOf (hfresh : histogram fresh = empty) (m : ModelMap V) (idx : ℕ) :
    (histOf histogram m idx).getD empty = histogram ((m.lookup idx).getD fresh) := by
  unfold histOf
  cases m.lookup idx with
  | none => exact hfresh.symm
  | some v => rfl

variable {bw : BinWidthSpecifier} {f : Option V → V → Except String V} {m m' merged : ModelMap V}

/-- Entries can be merged if their histograms can. -/
private theorem returns_upsertAll (hfresh : histogram fresh = empty)
    (hf : ∀ {old w}, Returns (mergeHistograms (histogram (old.getD fresh)) (histogram w) bw) →
      Returns (f old w))
    (h : ∀ idx h, histOf histogram m' idx = some h →
      Returns (mergeHistograms ((histOf histogram m idx).getD empty) h bw)) :
    Returns (upsertAll f m m') := by
  apply upsertEach_ok (fun _ => f)
  intro idx w hw
  have hone := h idx (histogram w) (congrArg (Option.map histogram) hw)
  rw [getD_histOf hfresh] at hone
  obtain ⟨v, hv⟩ := hf hone
  rw [hv]
  rfl

/-- Functions that have no entry in the second map keep theirs. -/
private theorem histOf_upsertAll_of_none (h : upsertAll f m m' = .ok merged) {idx : ℕ}
    (hnone : histOf histogram m' idx = none) :
    histOf histogram merged idx = histOf histogram m idx := by
  have hrun : upsertEach (fun _ => f) m m' = .ok merged := h
  exact congrArg (Option.map histogram)
    (lookup_upsertEach_of_none hrun (Option.map_eq_none_iff.mp hnone))

/-- The other functions get their histograms merged. -/
private theorem histOf_upsertAll_of_some (hfresh : histogram fresh = empty)
    (hf : ∀ {old w v}, f old w = .ok v →
      mergeHistograms (histogram (old.getD fresh)) (histogram w) bw = .ok (histogram v))
    (h : upsertAll f m m' = .ok merged) {idx : ℕ} {g : Histogram}
    (hsome : histOf histogram m' idx = some g) :
    ∃ h', mergeHistograms ((histOf histogram m idx).getD empty) g bw = .ok h' ∧
      histOf histogram merged idx = some h' := by
  have hrun : upsertEach (fun _ => f) m m' = .ok merged := h
  obtain ⟨w, hw, rfl⟩ := Option.map_eq_some_iff.mp hsome
  obtain ⟨v, hv, hlookup⟩ := lookup_upsertEach hrun hw
  rw [getD_histOf hfresh]
  exact ⟨_, hf hv, congrArg (Option.map histogram) hlookup⟩

end Entries

namespace ADOutlierHBOS

variable [LibM] (self : ADOutlierHBOS)

/-- The algorithm makes and merges histograms with the most bins. -/
theorem keepsHistograms : self.algorithm.KeepsHistograms (binWidthFixedNbin self.maxbins)
    (fun p => histOf HbosFuncParam.histogram p.hbosstats) fun p => p.maxbins = self.maxbins := by
  have hfresh : HbosFuncParam.new.histogram = empty := rfl
  refine ⟨fun idx => rfl, ⟨fun idx => rfl, rfl⟩, ?_, ?_, ?_, ?_, ?_⟩
  · intro p idx values hready hmade
    change Returns (p.generateHistogram idx values 0)
    unfold HbosParam.generateHistogram
    split
    · rw [hready]
      exact (returns_bind_of_returns fun _ => ⟨_, rfl⟩).mpr hmade
    · exact ⟨p, rfl⟩
  · intro p q idx values hready hne hadd
    change p.generateHistogram idx values 0 = .ok q at hadd
    unfold HbosParam.generateHistogram at hadd
    rw [if_pos (List.length_pos_iff.mpr hne), hready] at hadd
    obtain ⟨made, hmade, hadd⟩ := bind_eq_ok hadd
    cases hadd
    exact ⟨rfl, made, hmade, histOf_insert _ _ _⟩
  · intro p q hready hmerge
    rw [← hready] at hmerge
    have hmaps := returns_upsertAll (f := HbosParam.mergeAt q.maxbins) hfresh
      (fun hone => (returns_bind_of_returns fun _ => ⟨_, rfl⟩).mpr hone) hmerge
    exact (returns_bind_of_returns fun _ => ⟨_, rfl⟩).mpr hmaps
  · intro p q r idx hupdate hnone
    obtain ⟨merged, hmerged, hr⟩ := bind_eq_ok hupdate
    cases hr
    exact histOf_upsertAll_of_none hmerged hnone
  · intro p q r idx h hready hupdate hsome
    obtain ⟨merged, hmerged, hr⟩ := bind_eq_ok hupdate
    cases hr
    rw [← hready]
    refine histOf_upsertAll_of_some hfresh (fun {old w v} hv => ?_) hmerged hsome
    obtain ⟨h', hh', hv⟩ := bind_eq_ok hv
    cases hv
    exact hh'

end ADOutlierHBOS

namespace ADOutlierCOPOD

variable [LibM] (self : ADOutlierCOPOD)

/-- The algorithm makes and merges histograms with Scott's rule. -/
theorem keepsHistograms : self.algorithm.KeepsHistograms binWidthScott
    (fun p => histOf CopodFuncParam.histogram p.copodstats) fun _ => True := by
  have hfresh : CopodFuncParam.new.histogram = empty := rfl
  refine ⟨fun idx => rfl, ⟨fun idx => rfl, trivial⟩, ?_, ?_, ?_, ?_, ?_⟩
  · intro p idx values _ hmade
    change Returns (addValues p idx values)
    unfold addValues
    dsimp only
    split
    · exact (returns_bind_of_returns fun _ => ⟨_, rfl⟩).mpr hmade
    · exact ⟨_, rfl⟩
  · intro p q idx values _ hne hadd
    change addValues p idx values = .ok q at hadd
    unfold addValues at hadd
    rw [if_pos (List.length_pos_iff.mpr hne)] at hadd
    obtain ⟨made, hmade, hadd⟩ := bind_eq_ok hadd
    cases hadd
    exact ⟨trivial, made, hmade, histOf_insert _ _ _⟩
  · intro p q _ hmerge
    have hmaps := returns_upsertAll (f := CopodParam.mergeAt) hfresh
      (fun hone => (returns_bind_of_returns fun _ => ⟨_, rfl⟩).mpr hone) hmerge
    exact (returns_bind_of_returns fun _ => ⟨_, rfl⟩).mpr hmaps
  · intro p q r idx hupdate hnone
    obtain ⟨merged, hmerged, hr⟩ := bind_eq_ok hupdate
    cases hr
    exact histOf_upsertAll_of_none hmerged hnone
  · intro p q r idx h _ hupdate hsome
    obtain ⟨merged, hmerged, hr⟩ := bind_eq_ok hupdate
    cases hr
    refine histOf_upsertAll_of_some hfresh (fun {old w v} hv => ?_) hmerged hsome
    obtain ⟨h', hh', hv⟩ := bind_eq_ok hv
    cases hv
    exact hh'

end ADOutlierCOPOD

namespace ADOutlierSSTD

variable [LibM] (self : ADOutlierSSTD)

/-- Statistics can always be merged. -/
theorem returns_updateLocal (p : SstdParam) (data : DataSets) :
    Returns (self.algorithm.updateLocal p data) := by
  have hadd : ∀ (param : SstdParam) fid,
      Returns (self.algorithm.addValues param fid (data.values fid)) ↔ True :=
    fun _ _ => iff_of_true ⟨_, rfl⟩ trivial
  obtain ⟨q, hq⟩ := (returns_foldlM hadd data.fids self.algorithm.runParam).mpr
    fun _ _ => trivial
  exact returns_bind.mpr ⟨q, hq, SstdParam.update_returns p q⟩

/-- The statistics of any runs can be merged. -/
theorem returns_updateLocals (runs : List DataSets) :
    Returns (runs.foldlM self.algorithm.updateLocal self.algorithm.new) :=
  (returns_foldlM (fun p data => iff_of_true (self.returns_updateLocal p data) trivial) runs
    _).mpr fun _ _ => trivial

end ADOutlierSSTD

namespace AlgoParams

/-- Some lists of values of a function, one for each run, can be merged into a local model. -/
def CanMerge [LibM] : AlgoParams → List (List ℚ) → Prop
  | sstd _ => fun _ => True
  | hbos _ _ maxBins => Mergeable (binWidthFixedNbin maxBins)
  | copod _ => Mergeable binWidthScott

variable [LibM]

/-- The histograms of a model have counts if they have bins. -/
def Counted : (algo : AlgoParams) → algo.Param → Prop
  | sstd _ => fun _ => True
  | hbos .. => fun param => ∀ idx, (HbosParam.fparamAt param idx).histogram.Counted
  | copod _ => fun param => ∀ idx, (CopodParam.fparamAt param idx).histogram.Counted

/-- A value has a score by a model. -/
def HasScore : (algo : AlgoParams) → algo.Param → ℕ → ℚ → Prop
  | sstd _ => fun _ _ _ => True
  | hbos .. => fun param idx =>
    ADOutlierHBOS.HasScore (HbosParam.fparamAt param idx).histogram
  | copod _ => fun param idx =>
    ADOutlierCOPOD.HasScore (CopodParam.fparamAt param idx).histogram

/-- Every algorithm labels data sets if each value has a score. -/
theorem scoresBy (algo : AlgoParams) : algo.setAlgorithm.ScoresBy algo.Counted algo.HasScore := by
  cases algo with
  | sstd sigma => exact (ADOutlierSSTD.mk sigma).scoresBy
  | hbos thres globThres maxBins => exact (ADOutlierHBOS.new thres globThres maxBins).scoresBy
  | copod thres => exact (ADOutlierCOPOD.new thres true).scoresBy

/-- Runs can merge their values one after another if those of each function can be. -/
theorem returns_updateLocals (algo : AlgoParams) (runs : List DataSets) :
    Returns (runs.foldlM algo.setAlgorithm.updateLocal algo.setAlgorithm.new) ↔
      ∀ idx, algo.CanMerge (runs.map fun data => data.values idx) := by
  cases algo with
  | sstd sigma =>
    exact iff_of_true ((ADOutlierSSTD.mk sigma).returns_updateLocals runs) fun _ => trivial
  | hbos thres globThres maxBins =>
    exact (ADOutlierHBOS.new thres globThres maxBins).keepsHistograms.returns_updateLocals runs
  | copod thres => exact (ADOutlierCOPOD.new thres true).keepsHistograms.returns_updateLocals runs

/-- The order within the lists of values does not matter. -/
theorem CanMerge.of_perm {algo : AlgoParams} {lists lists' : List (List ℚ)}
    (hperm : List.Forall₂ List.Perm lists lists') (h : algo.CanMerge lists) :
    algo.CanMerge lists' := by
  cases algo with
  | sstd sigma => exact trivial
  | hbos thres globThres maxBins =>
    exact Mergeable.of_perm (orderless_binWidthFixedNbin maxBins) hperm h
  | copod thres => exact Mergeable.of_perm orderless_binWidthScott hperm h

/-- Statistics, and histograms with a fixed number of bins, can always be merged. -/
theorem canMerge {algo : AlgoParams} (hproper : algo.Proper)
    (hcopod : ∀ thres, algo ≠ .copod thres) (lists : List (List ℚ)) : algo.CanMerge lists := by
  cases algo with
  | sstd sigma => exact trivial
  | hbos thres globThres maxBins => exact mergeable_binWidthFixedNbin hproper.1 hproper.2 lists
  | copod thres => exact absurd rfl (hcopod thres)

end AlgoParams

end Chimbuko
