import Mathlib.Data.List.Nodup
import Mathlib.Data.List.Perm.Lattice

/-!
# Slot pools

A pool hands out slots and takes them back. A slot that was taken back is handed out again before
a new one is made. Then the slots that were ever made are those handed out together with those
taken back, and there are as many of them as were ever handed out at one time.
-/

namespace SlotPool

/-- The slots that are handed out, those that were taken back, all that were ever made, and the
largest number that was handed out at a time. -/
structure Pool (α : Type*) where
  live : List α
  free : List α
  made : List α
  peak : ℕ

namespace Pool

variable {α : Type*} [DecidableEq α]

/-- A pool that has not made a slot. -/
def empty : Pool α := { live := [], free := [], made := [], peak := 0 }

/-- Hand out a slot, and leave others for later. -/
def handOut (p : Pool α) (slot : α) (rest : List α) : Pool α where
  live := slot :: p.live
  free := rest
  made := p.made.insert slot
  peak := max p.peak (p.live.length + 1)

/-- Take back a slot. -/
def takeBack (p : Pool α) (slot : α) : Pool α :=
  { p with live := p.live.erase slot, free := slot :: p.free }

/-- The slots that were made are handed out or were taken back, each is one of them once, and as
many were handed out at one time. -/
structure Valid (p : Pool α) : Prop where
  made : p.made.Perm (p.live ++ p.free)
  nodup : p.made.Nodup
  peak : p.peak = p.made.length

omit [DecidableEq α] in
/-- An empty pool is valid. -/
theorem valid_empty : (empty : Pool α).Valid := ⟨List.Perm.refl _, List.nodup_nil, rfl⟩

variable {p : Pool α} {slot : α} {rest : List α}

omit [DecidableEq α] in
/-- A slot that was taken back is not handed out. -/
theorem Valid.not_mem_live (h : p.Valid) (hfree : slot ∈ p.free) : slot ∉ p.live := by
  have hnodup := h.made.nodup_iff.mp h.nodup
  exact fun hlive => (List.nodup_append.mp hnodup).2.2 slot hlive slot hfree rfl

omit [DecidableEq α] in
/-- A slot that was made is live or free. -/
theorem Valid.mem_made (h : p.Valid) : slot ∈ p.made ↔ slot ∈ p.live ∨ slot ∈ p.free := by
  rw [h.made.mem_iff, List.mem_append]

/-- A slot that was taken back is handed out again. -/
theorem Valid.reuse (h : p.Valid) (hfree : p.free = slot :: rest) :
    (p.handOut slot rest).Valid := by
  have hmem : slot ∈ p.made := h.mem_made.mpr (Or.inr (hfree ▸ List.mem_cons_self))
  have hmade : p.made.Perm (slot :: p.live ++ rest) := by
    have hperm := h.made
    rw [hfree] at hperm
    exact hperm.trans List.perm_middle
  have hlength := hmade.length_eq
  rw [List.length_append, List.length_cons] at hlength
  constructor
  · rw [handOut, List.insert_of_mem hmem]
    exact hmade
  · rw [handOut, List.insert_of_mem hmem]
    exact h.nodup
  · rw [handOut, List.insert_of_mem hmem, h.peak]
    exact Nat.max_eq_left (by omega)

/-- A new slot is handed out when none is left that was taken back. -/
theorem Valid.make (h : p.Valid) (hfree : p.free = []) (hnew : slot ∉ p.made) :
    (p.handOut slot []).Valid := by
  have hmade := h.made
  rw [hfree, List.append_nil] at hmade
  constructor
  · rw [handOut, List.insert_of_not_mem hnew, List.append_nil]
    exact hmade.cons slot
  · rw [handOut, List.insert_of_not_mem hnew]
    exact List.nodup_cons.mpr ⟨hnew, h.nodup⟩
  · rw [handOut, List.insert_of_not_mem hnew, h.peak, hmade.length_eq]
    exact (Nat.max_eq_right (Nat.le_succ _)).trans (congrArg Nat.succ hmade.length_eq.symm)

/-- A slot that is handed out is taken back. -/
theorem Valid.takeBack (h : p.Valid) (hlive : slot ∈ p.live) : (p.takeBack slot).Valid := by
  refine ⟨?_, h.nodup, h.peak⟩
  have hperm : (p.live ++ p.free).Perm (slot :: p.live.erase slot ++ p.free) :=
    (List.perm_cons_erase hlive).append_right _
  exact (h.made.trans hperm).trans List.perm_middle.symm

end Pool

end SlotPool
