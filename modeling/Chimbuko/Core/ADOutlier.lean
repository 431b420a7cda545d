import Chimbuko.Core.ADDataInterface
import Mathlib.Data.Int.Basic

/-!
# Anomaly detection on a rank

`core/ad/ADOutlier`: what the algorithms have in common. A run puts statistics of all data sets
into the local model, which is synchronised with the global model on some calls: it is merged into
the rank's copy of it, or sent to the parameter server, whose reply replaces entries of the copy.
The data sets are then labeled by means of the copy.

Models travel as themselves here, and what the parameter server replies is given to a run.
-/

namespace Chimbuko

/-- A labeled data set, the model after labeling, and the threshold that was used if there is
one. The source only prints the threshold. -/
structure Labeled (P : Type) where
  param : P
  data : List Elem
  threshold : Option ℚ

/-- An algorithm: the operations of its model, and what differs between the algorithms in a run. -/
structure ADAlgorithm (P : Type) where
  new : P
  clear : P → P
  update : P → P → Except String P
  assign : P → P → P
  /-- The model into which the statistics of a run go. -/
  runParam : P
  /-- Add the values of a data set to the statistics. -/
  addValues : P → ℕ → List ℚ → Except String P
  labelData : P → List Elem → ℕ → Except String (Labeled P)

/-- The algorithm with its models, and what it sent. -/
structure ADOutlier (P : Type) where
  useParameterServer : Bool
  /-- The rank's copy of the global model. -/
  param : P
  /-- What was not synchronised yet. -/
  localParam : P
  syncCallCount : ℕ
  /-- How often, in calls, the models are synchronised; never if it is not positive. -/
  globalModelSyncFreq : ℤ
  rank : ℕ
  /-- The local models that were merged or sent so far. -/
  sent : List P
  /-- The thresholds used so far, with the model index of the data set. -/
  thresholds : List (ℕ × ℚ)

/-- A call of `run`: the data, and what the parameter server replies if it is asked. -/
structure RunCall (P I : Type) where
  data : ADDataInterface I
  reply : P

namespace ADOutlier

variable {P : Type} (A : ADAlgorithm P)

/-- An algorithm that has not run. -/
def new (rank : ℕ) (useParameterServer : Bool) : ADOutlier P :=
  { useParameterServer := useParameterServer
    param := A.new, localParam := A.new
    syncCallCount := 0, globalModelSyncFreq := 1, rank := rank
    sent := [], thresholds := [] }

/-- Set how often models are synchronised. -/
def setGlobalModelSyncFrequency (self : ADOutlier P) (freq : ℤ) : ADOutlier P :=
  { self with globalModelSyncFreq := freq }

/-- Overwrite the copy of the global model. -/
def setGlobalParameters (self : ADOutlier P) (param : P) : ADOutlier P :=
  { self with param := A.assign (A.clear self.param) param }

/-- Merge a model into the copy of the global model, or send it and take over the reply. -/
def syncParam (self : ADOutlier P) (param reply : P) : Except String (ADOutlier P) := do
  let merged ← if self.useParameterServer then pure (A.assign self.param reply)
    else A.update self.param param
  pure { self with param := merged, sent := self.sent ++ [param] }

/-- Whether the next call synchronises: apart from the first one, this is staggered by rank. -/
def Syncs (self : ADOutlier P) : Prop :=
  0 < self.globalModelSyncFreq ∧ (self.syncCallCount = 0 ∨
    ((self.syncCallCount + self.rank : ℕ) : ℤ) % self.globalModelSyncFreq = 0)

instance (self : ADOutlier P) : Decidable self.Syncs := inferInstanceAs (Decidable (_ ∧ _))

/-- Synchronise the local model and flush it, if it is time to. -/
def updateGlobalModel (self : ADOutlier P) (reply : P) : Except String (ADOutlier P) := do
  let self ← if self.Syncs then do
      let self ← self.syncParam A self.localParam reply
      pure { self with localParam := A.clear self.localParam }
    else pure self
  pure { self with syncCallCount := self.syncCallCount + 1 }

section Run

variable {I : Type} [DataSource I]

/-- The data sets obtained so far, the statistics of their values, and the interface. -/
structure Gathered (P I : Type) where
  dataVals : List (List Elem)
  param : P
  data : ADDataInterface I

/-- Get a data set and add its values to the statistics. -/
def gather (g : Gathered P I) (dsetIdx : ℕ) : Except String (Gathered P I) := do
  let r ← g.data.getDataSet dsetIdx
  let modelIdx ← r.2.getDataSetModelIndex dsetIdx
  let param ← A.addValues g.param modelIdx (r.1.map Elem.value)
  pure { dataVals := g.dataVals ++ [r.1], param := param, data := r.2 }

/-- Label a data set and record the labels. -/
def labelDataSet (s : ADOutlier P × ADDataInterface I) (dset : List Elem × ℕ) :
    Except String (ADOutlier P × ADDataInterface I) := do
  let modelIdx ← s.2.getDataSetModelIndex dset.2
  let labeled ← A.labelData s.1.param dset.1 modelIdx
  let data ← s.2.recordDataSetLabels labeled.data dset.2
  let used := labeled.threshold.map fun t => (modelIdx, t)
  pure ({ s.1 with param := labeled.param, thresholds := s.1.thresholds ++ used.toList }, data)

/-- Gather the data, synchronise the models, and label each data set. -/
def run (self : ADOutlier P) (data : ADDataInterface I) (reply : P) :
    Except String (ADOutlier P × ADDataInterface I) := do
  let g ← (List.range data.nDataSets).foldlM (gather A)
    { dataVals := [], param := A.runParam, data := data }
  let localParam ← A.update self.localParam g.param
  let self ← { self with localParam := localParam }.updateGlobalModel A reply
  g.dataVals.zipIdx.foldlM (labelDataSet A) (self, g.data)

/-- What a call does to the algorithm. -/
def exec (self : ADOutlier P) (call : RunCall P I) : Except String (ADOutlier P) := do
  let r ← self.run A call.data call.reply
  pure r.1

end Run

/-- A rank before its first call, with some frequency of synchronisation. -/
def start (rank : ℕ) (useParameterServer : Bool) (freq : ℤ) : ADOutlier P :=
  (new A rank useParameterServer).setGlobalModelSyncFrequency freq

variable {A}

/-- Synchronising merges into the copy, takes over the reply, or leaves the copy as it is. -/
theorem updateGlobalModel_cases {self self' : ADOutlier P} {reply : P}
    (h : self.updateGlobalModel A reply = .ok self') :
    self'.thresholds = self.thresholds ∧
      (¬self.Syncs ∧ self'.param = self.param ∧ self'.localParam = self.localParam ∧
          self'.sent = self.sent ∨
        self.Syncs ∧ self'.localParam = A.clear self.localParam ∧
          self'.sent = self.sent ++ [self.localParam] ∧
          (self.useParameterServer = true ∧ self'.param = A.assign self.param reply ∨
            self.useParameterServer = false ∧
              A.update self.param self.localParam = .ok self'.param)) := by
  unfold updateGlobalModel at h
  split at h
  · rename_i hsyncs
    unfold syncParam at h
    by_cases hserver : self.useParameterServer = true
    · rw [if_pos hserver] at h
      cases h
      exact ⟨rfl, Or.inr ⟨hsyncs, rfl, rfl, Or.inl ⟨hserver, rfl⟩⟩⟩
    · rw [if_neg hserver] at h
      cases hmerged : A.update self.param self.localParam with
      | error e =>
        rw [hmerged] at h
        cases h
      | ok merged =>
        rw [hmerged] at h
        cases h
        exact ⟨rfl, Or.inr ⟨hsyncs, rfl, rfl, Or.inr ⟨Bool.eq_false_iff.mpr hserver, rfl⟩⟩⟩
  · rename_i hsyncs
    cases h
    exact ⟨rfl, Or.inl ⟨hsyncs, rfl, rfl, rfl⟩⟩

/-- A model that is frozen stays as it is. -/
theorem updateGlobalModel_frozen {self : ADOutlier P} {reply : P}
    (hfreq : self.globalModelSyncFreq ≤ 0) :
    self.updateGlobalModel A reply = .ok { self with syncCallCount := self.syncCallCount + 1 } := by
  have hnot : ¬self.Syncs := fun hsyncs => absurd hsyncs.1 (Int.not_lt.mpr hfreq)
  unfold updateGlobalModel
  rw [if_neg hnot]
  rfl

section Run

variable {I : Type} [DataSource I]

/-- A data set that can be labeled and recorded is. -/
theorem labelDataSet_returns {s : ADOutlier P × ADDataInterface I} {dset : List Elem × ℕ}
    {modelIdx : ℕ} {labeled : Labeled P} {source : I}
    (hmodel : s.2.getDataSetModelIndex dset.2 = .ok modelIdx)
    (hlabeled : A.labelData s.1.param dset.1 modelIdx = .ok labeled)
    (hrecord : DataSource.recordDataSetLabelsInternal s.2.source labeled.data dset.2 =
      .ok source) :
    ∃ t, labelDataSet A s dset = .ok t ∧ t.2.source = source := by
  unfold labelDataSet ADDataInterface.recordDataSetLabels
  simp only [hmodel, hlabeled, hrecord, bind, Except.bind]
  exact ⟨_, rfl, rfl⟩

/-- What labeling a data set does. -/
theorem labelDataSet_cases {s t : ADOutlier P × ADDataInterface I} {dset : List Elem × ℕ}
    (h : labelDataSet A s dset = .ok t) :
    ∃ modelIdx labeled, s.2.getDataSetModelIndex dset.2 = .ok modelIdx ∧
      A.labelData s.1.param dset.1 modelIdx = .ok labeled ∧
      s.2.recordDataSetLabels labeled.data dset.2 = .ok t.2 ∧
      t.1 = { s.1 with
        param := labeled.param
        thresholds := s.1.thresholds ++
          (labeled.threshold.map fun used => (modelIdx, used)).toList } := by
  unfold labelDataSet at h
  cases hmodel : s.2.getDataSetModelIndex dset.2 with
  | error e =>
    rw [hmodel] at h
    cases h
  | ok modelIdx =>
    rw [hmodel] at h
    cases hlabeled : A.labelData s.1.param dset.1 modelIdx with
    | error e =>
      simp only [bind, Except.bind, hlabeled] at h
      cases h
    | ok labeled =>
      simp only [bind, Except.bind, hlabeled] at h
      cases hdata : s.2.recordDataSetLabels labeled.data dset.2 with
      | error e =>
        rw [hdata] at h
        cases h
      | ok data =>
        rw [hdata] at h
        cases h
        exact ⟨modelIdx, labeled, rfl, hlabeled, hdata, rfl⟩

/-- The parts of a run: gathering, updating the local model, synchronising, and labeling. -/
theorem run_cases {self : ADOutlier P} {data : ADDataInterface I} {reply : P}
    {t : ADOutlier P × ADDataInterface I} (h : self.run A data reply = .ok t) :
    ∃ g localParam synced,
      (List.range data.nDataSets).foldlM (gather A)
        { dataVals := [], param := A.runParam, data := data } = .ok g ∧
      A.update self.localParam g.param = .ok localParam ∧
      { self with localParam := localParam }.updateGlobalModel A reply = .ok synced ∧
      g.dataVals.zipIdx.foldlM (labelDataSet A) (synced, g.data) = .ok t := by
  unfold run at h
  cases hg : (List.range data.nDataSets).foldlM (gather A)
      { dataVals := [], param := A.runParam, data := data } with
  | error e =>
    rw [hg] at h
    cases h
  | ok g =>
    rw [hg] at h
    cases hlocal : A.update self.localParam g.param with
    | error e =>
      simp only [bind, Except.bind, hlocal] at h
      cases h
    | ok localParam =>
      simp only [bind, Except.bind, hlocal] at h
      cases hsynced : { self with localParam := localParam }.updateGlobalModel A reply with
      | error e =>
        rw [hsynced] at h
        cases h
      | ok synced =>
        rw [hsynced] at h
        exact ⟨g, localParam, synced, rfl, hlocal, hsynced, h⟩

/-- A call runs the algorithm. -/
theorem exec_ok {self self' : ADOutlier P} {call : RunCall P I}
    (h : self.exec A call = .ok self') :
    ∃ data, self.run A call.data call.reply = .ok (self', data) := by
  unfold exec at h
  cases hrun : self.run A call.data call.reply with
  | error e =>
    rw [hrun] at h
    cases h
  | ok t =>
    rw [hrun] at h
    cases h
    exact ⟨t.2, rfl⟩

end Run

end ADOutlier

end Chimbuko
