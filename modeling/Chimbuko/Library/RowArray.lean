import Mathlib.Data.List.Basic
import Mathlib.Tactic.Ring
import Mathlib.Tactic.Linarith

/-!
# Rows of a flat array

An array of rows of the same length is stored row after row, and a loop goes through it with a
pointer that is advanced by the length of a row. If the loop changes at each step the row it has
come to, and advances its pointer whatever it does there, then every row is changed once and as it
would be by itself.
-/

namespace RowArray

variable {α ε : Type} (dim : ℕ)

/-- A row of the array. -/
def row (data : List α) (i : ℕ) : List α := (data.drop (i * dim)).take dim

variable {dim} {data : List α}

/-- A word of the array, from its row. -/
theorem getElem?_eq_row (i : ℕ) {j : ℕ} (hj : j < dim) :
    data[i * dim + j]? = (row dim data i)[j]? := by
  unfold row
  rw [List.getElem?_take_of_lt hj, List.getElem?_drop]

/-- A row within the array has its full length. -/
theorem length_row {i : ℕ} (hi : (i + 1) * dim ≤ data.length) : (row dim data i).length = dim := by
  rw [Nat.succ_mul] at hi
  unfold row
  rw [List.length_take, List.length_drop]
  omega

/-- Storing a word changes its row. -/
theorem row_set (i k : ℕ) {j : ℕ} (hj : j < dim) (v : α) :
    row dim (data.set (i * dim + j) v) k =
      if k = i then (row dim data i).set j v else row dim data k := by
  unfold row
  rw [List.drop_set]
  rcases lt_trichotomy k i with hk | rfl | hk
  · have hrow : (k + 1) * dim ≤ i * dim := Nat.mul_le_mul_right dim hk
    rw [Nat.succ_mul] at hrow
    rw [if_neg (by omega), if_neg hk.ne, List.take_set, List.set_eq_of_length_le]
    rw [List.length_take]
    omega
  · rw [if_neg (by omega), if_pos rfl, List.take_set, Nat.add_sub_cancel_left]
  · have hrow : (i + 1) * dim ≤ k * dim := Nat.mul_le_mul_right dim hk
    rw [Nat.succ_mul] at hrow
    rw [if_pos (by omega), if_neg hk.ne']

/-- The rows of a concatenation of rows. -/
theorem row_flatMap {β : Type} {rows : β → List α} {bs : List β}
    (hrows : ∀ b ∈ bs, (rows b).length = dim) {k : ℕ} {b : β} (hk : bs[k]? = some b) :
    row dim (bs.flatMap rows) k = rows b := by
  induction bs generalizing k with
  | nil => cases hk
  | cons first rest ih =>
    have hlength := hrows first List.mem_cons_self
    have ih := fun k hk => @ih (fun b hb => hrows b (List.mem_cons_of_mem _ hb)) k hk
    unfold row at ih ⊢
    rw [List.flatMap_cons]
    cases k with
    | zero =>
      rw [List.getElem?_cons_zero, Option.some.injEq] at hk
      rw [Nat.zero_mul, List.drop_zero, List.take_append_of_le_length hlength.ge,
        List.take_of_length_le hlength.le, hk]
    | succ k =>
      rw [List.getElem?_cons_succ] at hk
      have hfirst : (rows first).drop ((k + 1) * dim) = [] := by
        apply List.drop_of_length_le
        rw [hlength]
        exact Nat.le_mul_of_pos_left dim k.succ_pos
      have hrest : (k + 1) * dim - dim = k * dim := by rw [Nat.succ_mul, Nat.add_sub_cancel]
      rw [List.drop_append, hfirst, List.nil_append, hlength, hrest]
      exact ih k hk

section Loop

/-- What a step with a pointer to a word of row `i` does: it succeeds, changes the row alone, and
advances the pointer to the next row. -/
def StepAt (dim off : ℕ) (f : List α → List α) (step : List α × ℕ → ℕ → Except ε (List α × ℕ))
    (i : ℕ) : Prop :=
  ∀ data, (i + 1) * dim ≤ data.length →
    ∃ data', step (data, i * dim + off) i = .ok (data', (i + 1) * dim + off) ∧
      data'.length = data.length ∧
      ∀ k, row dim data' k = if k = i then f (row dim data i) else row dim data k

/-- A loop of such steps changes every row it goes through once. -/
theorem foldlM_rows {off : ℕ} {f : List α → List α}
    {step : List α × ℕ → ℕ → Except ε (List α × ℕ)} (hstep : ∀ i, StepAt dim off f step i) (n : ℕ)
    {data : List α} (hdata : n * dim ≤ data.length) :
    ∃ data', (List.range n).foldlM step (data, off) = .ok (data', n * dim + off) ∧
      data'.length = data.length ∧
      ∀ k, row dim data' k = if k < n then f (row dim data k) else row dim data k := by
  induction n with
  | zero => exact ⟨data, by rw [Nat.zero_mul, Nat.zero_add]; rfl, rfl, fun k => rfl⟩
  | succ n ih =>
    obtain ⟨data₁, hloop, hlength₁, hrows₁⟩ :=
      ih ((Nat.mul_le_mul_right dim n.le_succ).trans hdata)
    obtain ⟨data₂, hlast, hlength₂, hrows₂⟩ := hstep n data₁ (hlength₁ ▸ hdata)
    refine ⟨data₂, ?_, hlength₂.trans hlength₁, fun k => ?_⟩
    · rw [List.range_succ, List.foldlM_append, hloop]
      exact (bind_pure _).trans hlast
    · rw [hrows₂ k]
      by_cases hk : k = n
      · subst hk
        rw [if_pos rfl, if_pos k.lt_succ_self, hrows₁ k, if_neg (lt_irrefl k)]
      · rw [if_neg hk, hrows₁ k]
        exact if_congr (by omega) rfl rfl

end Loop

/-- Store a value in a column of the first `n` rows. -/
def setColumn (dim col : ℕ) (v : α) (n : ℕ) (data : List α) : List α :=
  ((List.range n).foldl (fun s _ => (s.1.set s.2 v, s.2 + dim)) (data, col)).1

/-- Storing a value in a column changes every row once. -/
theorem row_setColumn {col : ℕ} (hcol : col < dim) (v : α) {n : ℕ} (hdata : n * dim ≤ data.length) :
    (setColumn dim col v n data).length = data.length ∧
      ∀ k, row dim (setColumn dim col v n data) k =
        if k < n then (row dim data k).set col v else row dim data k := by
  have hstep : ∀ i, @StepAt α Empty dim col (fun r => r.set col v)
      (fun s _ => pure (s.1.set s.2 v, s.2 + dim)) i := by
    intro i data _
    refine ⟨data.set (i * dim + col) v, ?_, List.length_set, fun k => row_set i k hcol v⟩
    rw [Nat.succ_mul, Nat.add_right_comm]
    rfl
  obtain ⟨data', hloop, hlength, hrows⟩ := foldlM_rows hstep n hdata
  rw [List.foldlM_pure] at hloop
  have hpair := Except.ok.inj hloop
  have hresult : setColumn dim col v n data = data' := congrArg Prod.fst hpair
  rw [hresult]
  exact ⟨hlength, hrows⟩

end RowArray
