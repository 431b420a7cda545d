import Chimbuko.Library.KeyedMap
import Mathlib.Algebra.Group.Defs

/-!
# Model parameters

The interface that every anomaly detection model offers to the parameter server, from
`core/param`. A model is a map from model index to the parameters of one function. It travels
between processes as a binary archive and is stored between runs as JSON; both formats belong
to a third-party library and enter as an archive with its round trip.
-/

namespace Chimbuko

/-- A map keyed by model index. -/
abbrev ModelMap (V : Type) := AList fun _ : ℕ => V

/-- Archives of a map: the binary form for the network and the JSON form for files. Loading
clears the target first, and the order of the entries need not survive a round trip. -/
structure MapArchive (V Buffer Json : Type) where
  save : ModelMap V → Buffer
  load : Buffer → Except String (ModelMap V)
  loadJson : Json → Except String (ModelMap V)
  load_save : ∀ m, ∃ m', load (save m) = .ok m' ∧ ∀ k, m'.lookup k = m.lookup k

/-- The archive whose stored form is the map itself. -/
def MapArchive.direct {V : Type} : MapArchive V (ModelMap V) (ModelMap V) where
  save m := m
  load m := .ok m
  loadJson m := .ok m
  load_save m := ⟨m, rfl, fun _ => rfl⟩

/-- The operations of a model that the parameter server calls. -/
structure ParamInterface (P Buffer Json : Type) where
  /-- `set_AdParam` for the algorithm in use. -/
  new : P
  clear : P → P
  serialize : P → Buffer
  /-- `update` with an archived model and without returning the result. -/
  updateSerialized : P → Buffer → Except String P
  /-- `update` with another instance. -/
  update : P → P → Except String P
  /-- `deserialize_json`. -/
  deserializeJson : P → Json → Except String P

/-- `update` with several other instances, one after another. -/
def ParamInterface.updateAll {P Buffer Json : Type} (I : ParamInterface P Buffer Json)
    (self : P) (others : List P) : Except String P :=
  others.foldlM I.update self

/-- What the models of an algorithm hold, as elements of a monoid: a fresh model holds nothing, and
updating adds what the archived model or the other instance holds. -/
structure ParamInterface.Holding {P Buffer Json : Type} (I : ParamInterface P Buffer Json)
    (M : Type) [AddMonoid M] where
  Holds : P → M → Prop
  /-- The archives that clients send. -/
  WellFormed : Buffer → Prop
  /-- What an archived model holds. -/
  payload : Buffer → M
  new : Holds I.new 0
  updateSerialized : ∀ {p q x param}, Holds p x → WellFormed param →
    I.updateSerialized p param = .ok q → Holds q (x + payload param)
  update : ∀ {p p' q x x'}, Holds p x → Holds p' x' → I.update p p' = .ok q → Holds q (x + x')

end Chimbuko
