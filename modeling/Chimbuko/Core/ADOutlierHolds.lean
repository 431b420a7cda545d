import Chimbuko.Core.ADOutlierAssess
import Chimbuko.Param.HbosParamRuns
import Chimbuko.Util.HistogramValues

/-!
# The values behind a model

Behind each entry of a model stand the values that went into it. Adding values and merging models
does to the entries what it does to the values behind them, and labeling leaves them as they are.
How much an entry tells about its values depends on the algorithm: the moments, a histogram with a
fixed number of bins that counts them all, or a histogram that has their extremes.

A model is good enough for a function once there are enough values behind its entry. Then labeling
gives every value a label, and before that none.
-/

namespace Chimbuko

open CentralMoments KeyedMap TransitionSystem

/-- An algorithm does to models what it does to the values behind their entries. Models that are
merged into others must be ready, which the statistics of a run are. -/
structure ADAlgorithm.Keeps {P : Type} (A : ADAlgorithm P) (Holds : P → (ℕ → List ℚ) → Prop)
    (Ready : P → Prop) : Prop where
  new : Holds A.new fun _ => []
  runParam : Holds A.runParam (fun _ => []) ∧ Ready A.runParam
  assign_new : ∀ {p pushed}, Holds p pushed → Holds (A.assign (A.clear A.new) p) pushed
  addValues : ∀ {p q pushed idx values}, Holds p pushed → Ready p → pushed idx = [] →
    A.addValues p idx values = .ok q → Holds q (Function.update pushed idx values) ∧ Ready q
  update : ∀ {p q r pushed pushed'}, Holds p pushed → Holds q pushed' → Ready q →
    A.update p q = .ok r → Holds r (fun idx => pushed idx ++ pushed' idx) ∧ Ready r
  clear : ∀ {p}, Ready p → Holds (A.clear p) (fun _ => []) ∧ Ready (A.clear p)
  labelData : ∀ {p data idx r pushed}, Holds p pushed → A.labelData p data idx = .ok r →
    Holds r.param pushed

section Entries

variable {V : Type} {holds : V → List ℚ → Prop} {fresh : V}

/-- The values behind the entries of a map, where a missing entry has none. -/
def HoldsAt (holds : V → List ℚ → Prop) (fresh : V) (m : ModelMap V) (pushed : ℕ → List ℚ) :
    Prop :=
  ∀ idx, holds ((m.lookup idx).getD fresh) (pushed idx)

/-- A model without entries holds no values. -/
theorem holdsAt_empty (hfresh : holds fresh []) : HoldsAt holds fresh ∅ fun _ => [] := by
  intro idx
  rw [AList.lookup_empty]
  exact hfresh

/-- An entry that is set holds its values, and the others hold theirs. -/
theorem HoldsAt.insert {m : ModelMap V} {pushed : ℕ → List ℚ} (h : HoldsAt holds fresh m pushed)
    (idx : ℕ) {v : V} {values : List ℚ} (hv : holds v values) :
    HoldsAt holds fresh (m.insert idx v) (Function.update pushed idx values) := by
  intro k
  by_cases hk : k = idx
  · rw [hk, AList.lookup_insert, Function.update_self]
    exact hv
  · rw [AList.lookup_insert_ne hk, Function.update_of_ne hk]
    exact h k

/-- Merging entry by entry puts the values together. -/
theorem HoldsAt.upsertAll {f : Option V → V → Except String V} {base m result : ModelMap V}
    {pushed pushed' : ℕ → List ℚ} (hbase : HoldsAt holds fresh base pushed)
    (hm : HoldsAt holds fresh m pushed') (hfresh : ∀ xs, holds fresh xs → xs = [])
    (hmerge : ∀ {old w v xs ys}, holds (old.getD fresh) xs → holds w ys → f old w = .ok v →
      holds v (xs ++ ys))
    (h : KeyedMap.upsertAll f base m = .ok result) :
    HoldsAt holds fresh result fun idx => pushed idx ++ pushed' idx := by
  intro idx
  have h' : upsertEach (fun _ => f) base m = .ok result := h
  have hother := hm idx
  cases hw : m.lookup idx with
  | none =>
    rw [hw] at hother
    change holds _ (pushed idx ++ pushed' idx)
    rw [lookup_upsertEach_of_none h' hw, hfresh _ hother, List.append_nil]
    exact hbase idx
  | some w =>
    rw [hw] at hother
    obtain ⟨v, hv, hlookup⟩ := lookup_upsertEach h' hw
    have hv' : f (base.lookup idx) w = .ok v := hv
    rw [hlookup]
    exact hmerge (hbase idx) hother hv'

end Entries

namespace ADOutlierSSTD

variable [LibM] (self : ADOutlierSSTD)

/-- The statistics are those of the values. -/
def Collects (stats : RunStats) (values : List ℚ) : Prop :=
  stats.moments = Moments.ofList values

omit [LibM] in
/-- New statistics collect no values. -/
theorem collects_default : Collects default [] := by
  unfold Collects
  rw [RunStats.moments_default]
  exact ((valid_ofList []).eq_zero (by simp [Moments.ofList])).symm

omit [LibM] in
/-- Statistics count the values that they collect. -/
theorem Collects.count {stats : RunStats} {values : List ℚ} (h : Collects stats values) :
    stats.count = values.length :=
  congrArg Moments.count h

omit [LibM] in
/-- New statistics collect nothing else. -/
theorem Collects.nil {values : List ℚ} (h : Collects default values) : values = [] := by
  have hcount := h.count
  have hzero : ((values.length : ℕ) : ℚ) = 0 := hcount.symm
  exact List.length_eq_zero_iff.mp (Nat.cast_eq_zero.mp hzero)

omit [LibM] in
/-- Values that are pushed are collected. -/
theorem Collects.pushAll {stats : RunStats} {values : List ℚ} (h : Collects stats values)
    (more : List ℚ) : Collects (more.foldl RunStats.push stats) (values ++ more) := by
  induction more generalizing stats values with
  | nil => rwa [List.append_nil]
  | cons x rest ih =>
    have hvalid : stats.Valid := by
      unfold RunStats.Valid
      rw [h]
      exact valid_ofList values
    have hnext : Collects (stats.push x) (values ++ [x]) := by
      unfold Collects
      rw [RunStats.moments_push hvalid, h, ofList_append, ofList_singleton]
    rw [List.foldl_cons, List.append_cons]
    exact ih hnext

/-- The model has the moments of the values. -/
def Holds (param : SstdParam) (pushed : ℕ → List ℚ) : Prop :=
  HoldsAt Collects default param.runstats pushed

/-- The algorithm keeps the moments of the values behind its models. -/
theorem keeps : self.algorithm.Keeps Holds fun _ => True := by
  refine ⟨holdsAt_empty collects_default, ⟨holdsAt_empty collects_default, trivial⟩, ?_, ?_, ?_,
    fun _ => ⟨holdsAt_empty collects_default, trivial⟩, ?_⟩
  · intro p pushed h idx
    change Collects (((p.runstats ∪ ∅).lookup idx).getD default) _
    rw [AList.union_empty]
    exact h idx
  · intro p q pushed idx values h _ hnil hadd
    cases hadd
    have hold := h idx
    rw [hnil] at hold
    have hnew := hold.pushAll values
    rw [List.nil_append] at hnew
    exact ⟨h.insert idx hnew, trivial⟩
  · intro p q r pushed pushed' h h' _ hupdate
    obtain ⟨runstats, hrun, hresult⟩ := bind_eq_ok hupdate
    cases hresult
    refine ⟨HoldsAt.upsertAll h h' (fun _ => Collects.nil) ?_ hrun, trivial⟩
    intro old w v xs ys hold hw hv
    cases hv
    unfold Collects at hold hw ⊢
    rw [RunStats.moments_add, hold, hw, ofList_append]
  · intro p data idx r pushed h hlabel k
    have hstats := congrFun (self.assessesBy.params_eq hlabel) k
    change Collects (statsAt r.param k) _
    rw [hstats]
    exact h k

end ADOutlierSSTD

namespace ADOutlierHBOS

variable [LibM] (self : ADOutlierHBOS)

/-- The histograms represent the values. -/
def Holds (param : HbosParam) (pushed : ℕ → List ℚ) : Prop :=
  HoldsAt (fun fparam : HbosFuncParam => HbosParam.Stored self.maxbins fparam.histogram)
    HbosFuncParam.new param.hbosstats pushed

/-- The histograms have the extremes of the values. -/
def Spans (param : HbosParam) (pushed : ℕ → List ℚ) : Prop :=
  HoldsAt (fun fparam : HbosFuncParam => fparam.histogram.Spans) HbosFuncParam.new param.hbosstats
    pushed

/-- Labeling leaves all histograms as they are. -/
theorem histogram_labelData {p : HbosParam} {data : List Elem} {idx : ℕ} {r : Labeled HbosParam}
    (h : self.labelData p data idx = .ok r) (k : ℕ) :
    (r.param.fparamAt k).histogram = (p.fparamAt k).histogram := by
  have hkept := congrArg HbosFuncParam.histogram (congrFun (self.assessesBy.params_eq h) k)
  rwa [histogram_keepUsed, histogram_keepUsed] at hkept

/-- What is true of histograms without values, is created from data and survives merging with the
most bins, the algorithm keeps. -/
private theorem keepsAt {Q : Histogram → List ℚ → Prop} (hempty : Q Histogram.empty [])
    (hnil : ∀ xs, Q Histogram.empty xs → xs = [])
    (hcreate : ∀ {values h}, Histogram.createHistogram values (binWidthFixedNbin self.maxbins) =
      .ok h → Q h values)
    (hmerge : ∀ {g l h xs ys}, Q g xs → Q l ys →
      Histogram.mergeHistograms g l (binWidthFixedNbin self.maxbins) = .ok h → Q h (xs ++ ys)) :
    self.algorithm.Keeps (fun param => HoldsAt (fun fparam : HbosFuncParam => Q fparam.histogram)
      HbosFuncParam.new param.hbosstats) fun param => param.maxbins = self.maxbins := by
  refine ⟨holdsAt_empty hempty, ⟨holdsAt_empty hempty, rfl⟩, ?_, ?_, ?_,
    fun hready => ⟨holdsAt_empty hempty, hready⟩, ?_⟩
  · intro p pushed h idx
    change Q (((p.hbosstats ∪ ∅).lookup idx).getD HbosFuncParam.new).histogram _
    rw [AList.union_empty]
    exact h idx
  · intro p q pushed idx values h hready hnone hadd
    change p.generateHistogram idx values 0 = .ok q at hadd
    unfold HbosParam.generateHistogram at hadd
    split at hadd
    · obtain ⟨hist, hhist, hadd⟩ := bind_eq_ok hadd
      cases hadd
      rw [hready] at hhist
      exact ⟨h.insert idx (hcreate hhist), hready⟩
    · rename_i hlength
      cases hadd
      have hvalues : values = [] := List.length_eq_zero_iff.mp (Nat.eq_zero_of_not_pos hlength)
      rw [hvalues, ← hnone, Function.update_eq_self]
      exact ⟨h, hready⟩
  · intro p q r pushed pushed' h h' hready hupdate
    obtain ⟨hbosstats, hrun, hresult⟩ := bind_eq_ok hupdate
    cases hresult
    refine ⟨HoldsAt.upsertAll h h' hnil ?_ hrun, hready⟩
    intro old w v xs ys hold hw hv
    obtain ⟨hist, hmerged, hv⟩ := bind_eq_ok hv
    cases hv
    rw [hready] at hmerged
    exact hmerge hold hw hmerged
  · intro p data idx r pushed h hlabel k
    change Q (r.param.fparamAt k).histogram _
    rw [self.histogram_labelData hlabel]
    exact h k

/-- The algorithm keeps the counts of the values behind its models. -/
theorem keeps (hn : 1 ≤ self.maxbins) (hn' : self.maxbins ≤ 50000) :
    self.algorithm.Keeps self.Holds fun param => param.maxbins = self.maxbins := by
  refine self.keepsAt (HbosParam.stored_empty _) (fun xs hxs => ?_) (fun {values h} hrun => ?_)
    fun {g l h xs ys} hg hl hrun => ?_
  · rcases hxs with ⟨hnil, -⟩ | hrep
    · exact hnil
    · exact absurd hrep.valid.nbin_pos (lt_irrefl 0)
  · have hne : values ≠ [] := by
      rintro rfl
      cases hrun
    obtain ⟨hist, hcreate, hrep⟩ := Histogram.createHistogram_represents hn hn' hne
    obtain rfl := Except.ok.inj (hcreate.symm.trans hrun)
    exact Or.inr hrep
  · obtain ⟨hist, hmerge, hstored⟩ := HbosParam.Stored.merge hn hn' hg hl
    obtain rfl := Except.ok.inj (hmerge.symm.trans hrun)
    exact hstored

/-- With any number of bins the algorithm does to histograms what it does to the extremes of the
values. -/
theorem keeps_spans : self.algorithm.Keeps Spans fun param => param.maxbins = self.maxbins :=
  self.keepsAt Histogram.spans_empty (fun _ h => h.eq_nil rfl) Histogram.createHistogram_spans
    Histogram.Spans.merge

end ADOutlierHBOS

namespace ADOutlierCOPOD

variable [LibM] (self : ADOutlierCOPOD)

/-- The histograms have the extremes of the values. -/
def Holds (param : CopodParam) (pushed : ℕ → List ℚ) : Prop :=
  HoldsAt (fun fparam : CopodFuncParam => fparam.histogram.Spans) CopodFuncParam.new
    param.copodstats pushed

/-- Keeping the threshold that was used leaves the histogram as it is. -/
theorem histogram_keepUsed (fparam : CopodFuncParam) :
    (self.keepUsed fparam).histogram = fparam.histogram := by
  rcases self.keepUsed_cases fparam with hkeep | ⟨chosen, -, -, hkeep⟩ <;> rw [hkeep]

/-- The histograms are made of the values. -/
def MadeOf (param : CopodParam) (pushed : ℕ → List ℚ) : Prop :=
  HoldsAt (fun fparam : CopodFuncParam => fparam.histogram.MadeOf binWidthScott) CopodFuncParam.new
    param.copodstats pushed

/-- Labeling leaves all histograms as they are. -/
theorem histogram_labelData {p : CopodParam} {data : List Elem} {idx : ℕ} {r : Labeled CopodParam}
    (h : self.labelData p data idx = .ok r) (k : ℕ) :
    (r.param.fparamAt k).histogram = (p.fparamAt k).histogram := by
  have hkept := congrArg CopodFuncParam.histogram (congrFun (self.assessesBy.params_eq h) k)
  rwa [histogram_keepUsed, histogram_keepUsed] at hkept

/-- What is true of histograms without values, is created from data and survives merging, the
algorithm keeps. -/
private theorem keepsAt {Q : Histogram → List ℚ → Prop} (hempty : Q Histogram.empty [])
    (hnil : ∀ xs, Q Histogram.empty xs → xs = [])
    (hcreate : ∀ {values h}, Histogram.createHistogram values binWidthScott = .ok h → Q h values)
    (hmerge : ∀ {g l h xs ys}, Q g xs → Q l ys →
      Histogram.mergeHistograms g l binWidthScott = .ok h → Q h (xs ++ ys)) :
    self.algorithm.Keeps (fun param => HoldsAt (fun fparam : CopodFuncParam => Q fparam.histogram)
      CopodFuncParam.new param.copodstats) fun _ => True := by
  refine ⟨holdsAt_empty hempty, ⟨holdsAt_empty hempty, trivial⟩, ?_, ?_, ?_,
    fun _ => ⟨holdsAt_empty hempty, trivial⟩, ?_⟩
  · intro p pushed h idx
    change Q (((p.copodstats ∪ ∅).lookup idx).getD CopodFuncParam.new).histogram _
    rw [AList.union_empty]
    exact h idx
  · intro p q pushed idx values h _ hnone hadd
    change addValues p idx values = .ok q at hadd
    unfold addValues at hadd
    split at hadd
    · obtain ⟨hist, hhist, hadd⟩ := bind_eq_ok hadd
      cases hadd
      exact ⟨h.insert idx (hcreate hhist), trivial⟩
    · rename_i hlength
      cases hadd
      refine ⟨h.insert idx ?_, trivial⟩
      have hvalues : values = [] := List.length_eq_zero_iff.mp (Nat.eq_zero_of_not_pos hlength)
      have hold := h idx
      rw [hnone] at hold
      rw [hvalues]
      exact hold
  · intro p q r pushed pushed' h h' _ hupdate
    obtain ⟨copodstats, hrun, hresult⟩ := bind_eq_ok hupdate
    cases hresult
    refine ⟨HoldsAt.upsertAll h h' hnil ?_ hrun, trivial⟩
    intro old w v xs ys hold hw hv
    obtain ⟨hist, hmerged, hv⟩ := bind_eq_ok hv
    cases hv
    exact hmerge hold hw hmerged
  · intro p data idx r pushed h hlabel k
    change Q (r.param.fparamAt k).histogram _
    rw [self.histogram_labelData hlabel]
    exact h k

/-- The algorithm does to histograms what it does to the extremes of the values. -/
theorem keeps : self.algorithm.Keeps Holds fun _ => True :=
  self.keepsAt Histogram.spans_empty (fun _ h => h.eq_nil rfl) Histogram.createHistogram_spans
    Histogram.Spans.merge

/-- The algorithm makes its histograms of the values. -/
theorem keeps_madeOf : self.algorithm.Keeps MadeOf fun _ => True :=
  self.keepsAt .empty (fun _ h => h.eq_nil rfl) .createHistogram .mergeHistograms

end ADOutlierCOPOD

/-- When a model is good enough for a function: before, its values are not labeled, and then all
of them are. It is so once there are enough values behind its entry. -/
structure ReportingAlgorithm.Decides {P J : Type} (A : ReportingAlgorithm P J)
    (Holds : P → (ℕ → List ℚ) → Prop) (assess : P → ℕ → ℚ → Assessment)
    (Usable : P → ℕ → Prop) (enough : ℕ) : Prop where
  enough_pos : 0 < enough
  usable_iff : ∀ {p pushed idx}, Holds p pushed → (Usable p idx ↔ enough ≤ (pushed idx).length)
  undecided : ∀ {p idx}, ¬Usable p idx → ∀ value, assess p idx value = Assessment.none
  decided : ∀ {p idx r} {xs : List (ℚ × ℕ)}, Usable p idx →
    A.labelData p (xs.map fun x => Elem.new x.1 x.2) idx = .ok r →
      ∀ x ∈ xs, (assess p idx x.1).1 ≠ .unassigned
  labelData : ∀ {p data idx r}, A.labelData p data idx = .ok r →
    ∀ k, Usable r.param k ↔ Usable p k

/-- Whether a model is good enough does not depend on how much is said about its values. -/
theorem ReportingAlgorithm.Decides.of_usable_iff {P J : Type} {A : ReportingAlgorithm P J}
    {Holds Holds' : P → (ℕ → List ℚ) → Prop} {assess : P → ℕ → ℚ → Assessment}
    {Usable : P → ℕ → Prop} {enough : ℕ} (h : A.Decides Holds assess Usable enough)
    (hiff : ∀ {p pushed idx}, Holds' p pushed → (Usable p idx ↔ enough ≤ (pushed idx).length)) :
    A.Decides Holds' assess Usable enough :=
  { h with usable_iff := hiff }

/-- A label from comparing with thresholds is one. -/
private theorem decided_ite {c : Prop} [Decidable c] :
    (if c then EventType.outlier else .normal) ≠ .unassigned := by
  split <;> exact EventType.noConfusion

namespace ADOutlierSSTD

variable [LibM] (self : ADOutlierSSTD)

/-- A value is labeled when its function has two values. -/
theorem decides : self.reporting.Decides Holds self.assess
    (fun param idx => ¬(statsAt param idx).count < 2) 2 := by
  refine ⟨two_pos, ?_, ?_, ?_, ?_⟩
  · intro p pushed idx h
    have hcount : (statsAt p idx).count = (pushed idx).length := (h idx).count
    rw [hcount, not_lt]
    exact_mod_cast Iff.rfl
  · intro p idx hnot value
    unfold assess
    rw [if_pos (not_not.mp hnot)]
  · intro p idx r xs husable _ x _
    unfold assess
    rw [if_neg husable]
    exact decided_ite
  · intro p data idx r hlabel k
    have hstats := self.assessesBy.params_eq hlabel
    rw [hstats]

end ADOutlierSSTD

namespace ADOutlierHBOS

variable [LibM] (self : ADOutlierHBOS)

/-- A value is labeled when its function has a value. -/
theorem decides : self.reporting.Decides self.Holds
    (fun param idx => self.assessWith (param.fparamAt idx))
    (fun param idx => (param.fparamAt idx).histogram.nbin ≠ 0) 1 := by
  refine ⟨one_pos, ?_, ?_, ?_, ?_⟩
  · intro p pushed idx h
    rcases h idx with ⟨hnil, hbins⟩ | hrep
    · rw [hnil]
      exact iff_of_false (not_not.mpr hbins) (by decide)
    · exact iff_of_true hrep.valid.nbin_pos.ne' (List.length_pos_of_mem hrep.min_mem)
  · intro p idx hnot value
    unfold assessWith
    rw [if_pos (not_not.mp hnot)]
  · intro p idx r xs husable hlabel x hx
    rcases labelData_cases hlabel with ⟨hnil, -⟩ | ⟨-, hbins, -⟩ | ⟨-, -, hdata, -⟩
    · rw [List.map_eq_nil_iff.mp hnil] at hx
      exact absurd hx List.not_mem_nil
    · exact absurd hbins husable
    · obtain ⟨e, -, he⟩ := mem_of_mapM hdata (List.mem_map_of_mem hx)
      have heq := self.labelElem_eq husable _ _ he
      obtain ⟨score, -, he⟩ := bind_eq_ok he
      cases he
      have hlabel := congrArg Elem.label heq
      change _ = (self.assessWith (p.fparamAt idx) x.1).1 at hlabel
      rw [← hlabel]
      exact decided_ite
  · intro p data idx r hlabel k
    rw [self.histogram_labelData hlabel]

end ADOutlierHBOS

namespace ADOutlierCOPOD

variable [LibM] (self : ADOutlierCOPOD)

/-- A value is labeled when its function has a value. -/
theorem decides : self.reporting.Decides Holds
    (fun param idx => self.assessWith (param.fparamAt idx))
    (fun param idx => (param.fparamAt idx).histogram.nbin ≠ 0) 1 := by
  refine ⟨one_pos, ?_, ?_, ?_, ?_⟩
  · intro p pushed idx h
    exact (h idx).nbin_ne_zero_iff
  · intro p idx hnot value
    unfold assessWith
    rw [if_pos (not_not.mp hnot)]
  · intro p idx r xs husable hlabel x hx
    rcases labelData_cases hlabel with ⟨hnil, -⟩ | ⟨-, hbins, -⟩ |
      ⟨-, -, lThreshold, hlocal, hdata, -⟩
    · rw [List.map_eq_nil_iff.mp hnil] at hx
      exact absurd hx List.not_mem_nil
    · exact absurd hbins husable
    · have hchosen : self.chosenThreshold (p.fparamAt idx) = .ok (self.chooseThreshold lThreshold
          (p.fparamAt idx).internalGlobalThreshold) := by
        unfold chosenThreshold
        rw [hlocal]
        rfl
      obtain ⟨e, -, he⟩ := mem_of_mapM hdata (List.mem_map_of_mem hx)
      have heq := self.labelElem_eq husable hchosen _ _ he
      obtain ⟨score, -, he⟩ := bind_eq_ok he
      cases he
      have hlabel := congrArg Elem.label heq
      change _ = (self.assessWith (p.fparamAt idx) x.1).1 at hlabel
      rw [← hlabel]
      exact decided_ite
  · intro p data idx r hlabel k
    rw [self.histogram_labelData hlabel]

end ADOutlierCOPOD

namespace AlgoParams

/-- The numbers of bins that histograms are made with. -/
def Proper : AlgoParams → Prop
  | hbos _ _ maxBins => 1 ≤ maxBins ∧ maxBins ≤ 50000
  | _ => True

instance (algo : AlgoParams) : Decidable algo.Proper := by
  cases algo <;> unfold Proper <;> infer_instance

/-- How many values a model needs for a function. -/
def enough : AlgoParams → ℕ
  | sstd _ => 2
  | _ => 1

variable [LibM]

/-- The values behind the entries of a model. -/
def Holds : (algo : AlgoParams) → algo.Param → (ℕ → List ℚ) → Prop
  | sstd _ => ADOutlierSSTD.Holds
  | hbos thres globThres maxBins => (ADOutlierHBOS.new thres globThres maxBins).Holds
  | copod _ => ADOutlierCOPOD.Holds

/-- What every algorithm keeps of the values behind the entries of a model, with any number of bins:
the moments are theirs, or the histogram has their extremes. -/
def Spans : (algo : AlgoParams) → algo.Param → (ℕ → List ℚ) → Prop
  | sstd _ => ADOutlierSSTD.Holds
  | hbos .. => ADOutlierHBOS.Spans
  | copod _ => ADOutlierCOPOD.Holds

/-- The values that the entries of a model are made of: the moments are theirs, or the histogram
counts them all, or it is made of them by counting and merging. -/
def MadeOf : (algo : AlgoParams) → algo.Param → (ℕ → List ℚ) → Prop
  | copod _ => ADOutlierCOPOD.MadeOf
  | algo => algo.Holds

/-- A model that others may be updated with. -/
def Ready : (algo : AlgoParams) → algo.Param → Prop
  | hbos _ _ maxBins => fun param : HbosParam => param.maxbins = maxBins
  | _ => fun _ => True

/-- Whether a model is good enough for a function. -/
def Usable : (algo : AlgoParams) → algo.Param → ℕ → Prop
  | sstd _ => fun param idx => ¬(ADOutlierSSTD.statsAt param idx).count < 2
  | hbos .. => fun param idx => (HbosParam.fparamAt param idx).histogram.nbin ≠ 0
  | copod _ => fun param idx => (CopodParam.fparamAt param idx).histogram.nbin ≠ 0

/-- Each algorithm does to the values behind its models what it does to the models. -/
theorem keeps (algo : AlgoParams) (h : algo.Proper) :
    algo.setAlgorithm.toADAlgorithm.Keeps algo.Holds algo.Ready := by
  cases algo with
  | sstd sigma => exact (ADOutlierSSTD.mk sigma).keeps
  | hbos thres globThres maxBins =>
    exact (ADOutlierHBOS.new thres globThres maxBins).keeps h.1 h.2
  | copod thres => exact (ADOutlierCOPOD.new thres true).keeps

/-- Each algorithm does to the extremes of the values behind its models what it does to the
models. -/
theorem keeps_spans (algo : AlgoParams) :
    algo.setAlgorithm.toADAlgorithm.Keeps algo.Spans algo.Ready := by
  cases algo with
  | sstd sigma => exact (ADOutlierSSTD.mk sigma).keeps
  | hbos thres globThres maxBins => exact (ADOutlierHBOS.new thres globThres maxBins).keeps_spans
  | copod thres => exact (ADOutlierCOPOD.new thres true).keeps

/-- Every algorithm makes its models of the values. -/
theorem keeps_madeOf (algo : AlgoParams) (h : algo.Proper) :
    algo.setAlgorithm.toADAlgorithm.Keeps algo.MadeOf algo.Ready := by
  cases algo with
  | sstd sigma => exact (sstd sigma).keeps h
  | hbos thres globThres maxBins => exact (hbos thres globThres maxBins).keeps h
  | copod thres => exact (ADOutlierCOPOD.new thres true).keeps_madeOf

/-- The values that a model is made of are behind its entries. -/
theorem MadeOf.holds {algo : AlgoParams} {param : algo.Param} {pushed : ℕ → List ℚ}
    (h : algo.MadeOf param pushed) : algo.Holds param pushed := by
  cases algo with
  | sstd sigma => exact h
  | hbos thres globThres maxBins => exact h
  | copod thres => exact fun idx => (h idx).spans

/-- How many values a model counts for a function. -/
def countAt : (algo : AlgoParams) → algo.Param → ℕ → ℚ
  | sstd _ => fun param idx => (ADOutlierSSTD.statsAt param idx).count
  | hbos .. => fun param idx => (HbosParam.fparamAt param idx).histogram.totalCount
  | copod _ => fun param idx => (CopodParam.fparamAt param idx).histogram.totalCount

/-- What a model keeps of the values that it is made of: their moments, as many counts and the
extremes, or the extremes and at most as many counts. -/
structure Summarizes (algo : AlgoParams) (param : algo.Param) (pushed : ℕ → List ℚ) : Prop where
  madeOf : algo.MadeOf param pushed
  holds : algo.Holds param pushed
  countAt_le : ∀ idx, algo.countAt param idx ≤ (pushed idx).length

/-- A model that is made of values counts no others. -/
theorem MadeOf.countAt_le {algo : AlgoParams} {param : algo.Param} {pushed : ℕ → List ℚ}
    (h : algo.MadeOf param pushed) (idx : ℕ) : algo.countAt param idx ≤ (pushed idx).length := by
  cases algo with
  | sstd sigma => exact (ADOutlierSSTD.Collects.count (h idx)).le
  | hbos thres globThres maxBins =>
    exact (congrArg Nat.cast (HbosSystem.exact_of_stored (h idx)).total).le
  | copod thres => exact Nat.cast_le.mpr (h idx).totalCount_le

/-- What a model is made of it summarizes. -/
theorem MadeOf.summarizes {algo : AlgoParams} {param : algo.Param} {pushed : ℕ → List ℚ}
    (h : algo.MadeOf param pushed) : algo.Summarizes param pushed :=
  ⟨h, h.holds, h.countAt_le⟩

/-- For each algorithm, what it does to models it does to the values behind them. -/
theorem decides (algo : AlgoParams) :
    algo.setAlgorithm.Decides algo.Holds algo.assess algo.Usable algo.enough := by
  cases algo with
  | sstd sigma => exact (ADOutlierSSTD.mk sigma).decides
  | hbos thres globThres maxBins => exact (ADOutlierHBOS.new thres globThres maxBins).decides
  | copod thres => exact (ADOutlierCOPOD.new thres true).decides

/-- The extremes of the values behind its entries tell when a model is good enough. -/
theorem decides_spans (algo : AlgoParams) :
    algo.setAlgorithm.Decides algo.Spans algo.assess algo.Usable algo.enough := by
  cases algo with
  | sstd sigma => exact (ADOutlierSSTD.mk sigma).decides
  | hbos thres globThres maxBins =>
    exact (ADOutlierHBOS.new thres globThres maxBins).decides.of_usable_iff
      fun {p pushed idx} h => (h idx).nbin_ne_zero_iff
  | copod thres => exact (ADOutlierCOPOD.new thres true).decides

end AlgoParams

end Chimbuko
