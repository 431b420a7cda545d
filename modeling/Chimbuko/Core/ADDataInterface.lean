import Mathlib.Data.Rat.Defs

/-!
# Data sets for the anomaly detection

`core/ad/ADDataInterface`: what passes between a source of data and an algorithm. A data set is a
list of unlabeled elements for one model; an algorithm returns it with labels and scores, from
which the interface keeps the anomalies, one most normal event, and how many events were labeled.
-/

namespace Chimbuko

/-- The label that an algorithm gives. -/
inductive EventType
  | outlier
  | normal
  | unassigned
deriving DecidableEq

/-- A data point with an identifier, and the label and score that an algorithm assigns. -/
structure Elem where
  value : ℚ
  index : ℕ
  label : EventType
  score : ℚ
deriving DecidableEq

/-- A data point before it is labeled. -/
def Elem.new (v : ℚ) (i : ℕ) : Elem := { value := v, index := i, label := .unassigned, score := -1 }

/-- What is kept about a labeled data set. There is at most one normal event. -/
structure DataSetAnomalies where
  anomalies : List Elem
  normalEvents : List Elem
  labeledEvents : ℕ
deriving DecidableEq

namespace DataSetAnomalies

/-- No events of a data set were recorded. -/
def new : DataSetAnomalies := { anomalies := [], normalEvents := [], labeledEvents := 0 }

/-- Record an event. A normal event overrides the one that is kept if it is more normal. -/
def recordEvent (self : DataSetAnomalies) (event : Elem) : DataSetAnomalies :=
  match event.label with
  | .normal =>
    { self with
      normalEvents := match self.normalEvents with
        | [] => [event]
        | kept :: _ => if event.score < kept.score then [event] else self.normalEvents
      labeledEvents := self.labeledEvents + 1 }
  | .outlier =>
    { self with
      anomalies := self.anomalies ++ [event]
      labeledEvents := self.labeledEvents + 1 }
  | .unassigned => self

/-- The events of a type that are kept. -/
def getEventsRecorded (self : DataSetAnomalies) (type : EventType) : List Elem :=
  if type = .outlier then self.anomalies else self.normalEvents

end DataSetAnomalies

/-- What a source of data provides to the algorithms. Getting a data set may change the source. -/
class DataSource (I : Type) where
  nDataSets : I → ℕ
  getDataSet : I → ℕ → Except String (List Elem × I)
  getDataSetModelIndex : I → ℕ → Except String ℕ
  recordDataSetLabelsInternal : I → List Elem → ℕ → Except String I

/-- A source of data with what was recorded about each of its data sets. -/
structure ADDataInterface (I : Type) where
  source : I
  dsetAnom : List DataSetAnomalies

namespace ADDataInterface

variable {I : Type} [DataSource I]

/-- An interface to a source, before any labels. -/
def new (source : I) : ADDataInterface I :=
  { source := source
    dsetAnom := List.replicate (DataSource.nDataSets source) DataSetAnomalies.new }

/-- The number of data sets. -/
def nDataSets (self : ADDataInterface I) : ℕ := self.dsetAnom.length

/-- What was recorded about a data set, which must be one of the interface. -/
def getResults (self : ADDataInterface I) (dsetIndex : ℕ) : DataSetAnomalies :=
  self.dsetAnom.getD dsetIndex DataSetAnomalies.new

/-- The elements of a data set. -/
def getDataSet (self : ADDataInterface I) (dsetIndex : ℕ) :
    Except String (List Elem × ADDataInterface I) := do
  let r ← DataSource.getDataSet self.source dsetIndex
  pure (r.1, { self with source := r.2 })

/-- The index of a data set in the model. -/
def getDataSetModelIndex (self : ADDataInterface I) (dsetIndex : ℕ) : Except String ℕ :=
  DataSource.getDataSetModelIndex self.source dsetIndex

/-- Record the labels and scores of a data set, also in the source. -/
def recordDataSetLabels (self : ADDataInterface I) (data : List Elem) (dsetIndex : ℕ) :
    Except String (ADDataInterface I) := do
  let source ← DataSource.recordDataSetLabelsInternal self.source data dsetIndex
  pure { source := source
         dsetAnom := self.dsetAnom.modify dsetIndex fun danom =>
           data.foldl DataSetAnomalies.recordEvent danom }

end ADDataInterface

end Chimbuko
