import Mathlib.Data.List.Basic

/-!
# Rounds that go out in batches

Every round hands something in. On some rounds all that was handed in and has not gone out yet
goes out as one batch; on the others it waits. If one of any so many consecutive rounds is such a
round, fewer than that many wait.
-/

namespace Batching

variable {β : Type*}

/-- What was handed in so far, in batches that went out, and what waits. -/
inductive Batched (due : ℕ → Prop) : List β → List (List β) → List β → Prop
  | start : Batched due [] [] []
  | wait {rounds : List β} {batches : List (List β)} {rest : List β} (round : β) :
      Batched due rounds batches rest → ¬due rounds.length →
        Batched due (rounds ++ [round]) batches (rest ++ [round])
  | goOut {rounds : List β} {batches : List (List β)} {rest : List β} (round : β) :
      Batched due rounds batches rest → due rounds.length →
        Batched due (rounds ++ [round]) (batches ++ [rest ++ [round]]) []

variable {due : ℕ → Prop} {rounds : List β} {batches : List (List β)} {rest : List β}

/-- Each round is in exactly one place, and the order is kept. -/
theorem Batched.all (h : Batched due rounds batches rest) : batches.flatten ++ rest = rounds := by
  induction h with
  | start => rfl
  | wait round _ _ ih => rw [← List.append_assoc, ih]
  | goOut round _ _ ih =>
    rw [List.flatten_append, List.flatten_singleton, List.append_nil, ← List.append_assoc, ih]

/-- Since the last batch no round was due. -/
theorem Batched.waiting (h : Batched due rounds batches rest) {k : ℕ} (hk : k < rounds.length)
    (hrest : rounds.length ≤ k + rest.length) : ¬due k := by
  induction h with
  | start => exact absurd hk (Nat.not_lt_zero k)
  | @wait rounds batches rest round hbefore hnot ih =>
    rw [List.length_append, List.length_singleton] at hk hrest
    rw [List.length_append, List.length_singleton] at hrest
    rcases Nat.lt_succ_iff_lt_or_eq.mp hk with hlt | heq
    · apply ih hlt
      omega
    · rwa [heq]
  | goOut round _ _ _ =>
    rw [List.length_nil, Nat.add_zero] at hrest
    exact absurd hk (Nat.not_lt.mpr hrest)

/-- How many of the first rounds have gone out after some rounds. -/
def outBy (due : ℕ → Prop) [DecidablePred due] : ℕ → ℕ
  | 0 => 0
  | k + 1 => if due k then k + 1 else outBy due k

/-- Not more batches are out than there were. -/
theorem outBy_le [DecidablePred due] (n : ℕ) : outBy due n ≤ n := by
  induction n with
  | zero => exact Nat.le_refl 0
  | succ k ih =>
    unfold outBy
    split
    · exact Nat.le_refl _
    · exact Nat.le_succ_of_le ih

/-- Nothing goes out if nothing is due. -/
theorem outBy_eq_zero [DecidablePred due] (h : ∀ k, ¬due k) (n : ℕ) : outBy due n = 0 := by
  induction n with
  | zero => rfl
  | succ k ih => rw [outBy, if_neg (h k), ih]

/-- The batches are the rounds that have gone out. -/
theorem Batched.flatten_eq [DecidablePred due] (h : Batched due rounds batches rest) :
    batches.flatten = rounds.take (outBy due rounds.length) := by
  induction h with
  | start => rfl
  | @wait rounds batches rest round _ hnot ih =>
    rw [List.length_append, List.length_singleton, outBy, if_neg hnot, ih,
      List.take_append_of_le_length (outBy_le _)]
  | @goOut rounds batches rest round hbefore hdue ih =>
    have hlength : (rounds ++ [round]).length = rounds.length + 1 := by
      rw [List.length_append, List.length_singleton]
    rw [hlength, outBy, if_pos hdue, ← hlength, List.take_length, List.flatten_append,
      List.flatten_singleton, ← List.append_assoc, hbefore.all]

/-- Fewer rounds wait than there are from one due round to the next. -/
theorem Batched.length_lt (h : Batched due rounds batches rest) {n : ℕ}
    (hdue : ∀ k, ∃ j < n, due (k + j)) : rest.length < n := by
  obtain ⟨j, hj, hjdue⟩ := hdue (rounds.length - rest.length)
  have hall := congrArg List.length h.all
  rw [List.length_append] at hall
  by_contra hnot
  refine h.waiting ?_ ?_ hjdue <;> omega

end Batching
