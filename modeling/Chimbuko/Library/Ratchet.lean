import Mathlib.Data.List.Pairwise
import Mathlib.Logic.Function.Basic
import Mathlib.Order.Basic

/-!
# Levels that only rise

A level for every key, and a log of the levels that were in use. If every level that is put on
record is at least the one before, and levels only rise in between, then the recorded levels of
every key rise.
-/

namespace Ratchet

variable {κ β : Type*} [Preorder β]

/-- The recorded levels of every key rise. -/
def Rising (log : List (κ × β)) : Prop := log.Pairwise fun a b => a.1 = b.1 → a.2 ≤ b.2

instance [DecidableEq κ] [DecidableLE β] (log : List (κ × β)) : Decidable (Rising log) :=
  inferInstanceAs (Decidable (List.Pairwise _ _))

/-- The recorded levels rise up to the present ones. -/
structure UpTo (level : κ → β) (log : List (κ × β)) : Prop where
  rising : Rising log
  le : ∀ e ∈ log, e.2 ≤ level e.1

/-- No levels are reached at first. -/
theorem UpTo.nil (level : κ → β) : UpTo level [] :=
  ⟨List.Pairwise.nil, fun _ he => absurd he List.not_mem_nil⟩

/-- The present levels may rise. -/
theorem UpTo.raise {level level' : κ → β} {log : List (κ × β)} (h : UpTo level log)
    (hle : ∀ k, level k ≤ level' k) : UpTo level' log :=
  ⟨h.rising, fun e he => (h.le e he).trans (hle e.1)⟩

/-- A level that is at least the present one may be put on record, and becomes the present one. -/
theorem UpTo.record [DecidableEq κ] {level : κ → β} {log : List (κ × β)} (h : UpTo level log)
    {k : κ} {v : β} (hv : level k ≤ v) : UpTo (Function.update level k v) (log ++ [(k, v)]) := by
  have hraised : UpTo (Function.update level k v) log := by
    apply h.raise
    intro k'
    by_cases hk : k' = k
    · rw [hk, Function.update_self]
      exact hv
    · rw [Function.update_of_ne hk]
  constructor
  · apply List.pairwise_append.mpr
    refine ⟨h.rising, List.pairwise_singleton _ _, ?_⟩
    intro a ha b hb hab
    rw [List.mem_singleton.mp hb] at hab ⊢
    have hle := hraised.le a ha
    rwa [hab, Function.update_self] at hle
  · intro e he
    cases List.mem_append.mp he with
    | inl hold => exact hraised.le e hold
    | inr hnew =>
      rw [List.mem_singleton.mp hnew, Function.update_self]

end Ratchet
