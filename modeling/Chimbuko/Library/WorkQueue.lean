import Mathlib.Algebra.BigOperators.Group.Finset.Basic
import Mathlib.Algebra.Order.Group.Multiset
import Mathlib.Data.Fintype.BigOperators

/-!
# Work queues

Jobs are put into a queue, taken from its front by workers, and done. The books of a queue say
which jobs were submitted, which wait, which were taken and which are done; the jobs that were taken
and are not done are held by workers.
-/

namespace WorkQueue

variable {α : Type*}

/-- The books of a queue. -/
structure Ledger (α : Type*) where
  submitted : List α
  queue : List α
  taken : List α
  held : Multiset α
  done : List α

namespace Ledger

/-- The jobs were taken in the order in which they were submitted, the others wait, and those that
were taken are held or done, each once. -/
structure Balanced (l : Ledger α) : Prop where
  submitted : l.submitted = l.taken ++ l.queue
  taken : (l.taken : Multiset α) = l.held + l.done

variable {l : Ledger α}

/-- A job is put into the queue. -/
theorem Balanced.submit (h : l.Balanced) (job : α) :
    Balanced { l with submitted := l.submitted ++ [job], queue := l.queue ++ [job] } := by
  refine ⟨?_, h.taken⟩
  simp only [h.submitted, List.append_assoc]

/-- The job at the front is taken. -/
theorem Balanced.take (h : l.Balanced) {job : α} {rest : List α} (hqueue : l.queue = job :: rest)
    {held : Multiset α} (hheld : held = l.held + {job}) :
    Balanced { l with queue := rest, taken := l.taken ++ [job], held := held } := by
  refine ⟨?_, ?_⟩
  · simp only [h.submitted, hqueue, List.append_assoc, List.singleton_append]
  · simp only [hheld]
    rw [← Multiset.coe_add, h.taken, Multiset.coe_singleton, add_right_comm]

/-- A job that is held is done. -/
theorem Balanced.finish (h : l.Balanced) {job : α} {held : Multiset α}
    (hheld : l.held = held + {job}) :
    Balanced { l with held := held, done := l.done ++ [job] } := by
  refine ⟨h.submitted, ?_⟩
  rw [h.taken, hheld]
  simp only
  rw [← Multiset.coe_add, Multiset.coe_singleton, add_assoc, add_comm (l.done : Multiset α)]

/-- No job is done more often than it was submitted. -/
theorem Balanced.done_le (h : l.Balanced) :
    (l.done : Multiset α) ≤ (l.submitted : Multiset α) := by
  rw [h.submitted, ← Multiset.coe_add, h.taken]
  exact le_trans (Multiset.le_add_left _ _) (Multiset.le_add_right _ _)

/-- When no job waits and none is held, every job was done once. -/
theorem Balanced.done_perm (h : l.Balanced) (hqueue : l.queue = []) (hheld : l.held = 0) :
    l.done.Perm l.submitted := by
  have htaken := h.taken
  rw [hheld, zero_add] at htaken
  rw [h.submitted, hqueue, List.append_nil]
  exact (Multiset.coe_eq_coe.mp htaken).symm

end Ledger

section Workers

variable {ι σ : Type*} [Fintype ι] [DecidableEq ι] (hold : σ → Multiset α) (workers : ι → σ)

/-- The jobs that the workers hold when one of them takes a step. -/
theorem sum_hold_update (w : ι) (x : σ) :
    ∑ v, hold (Function.update workers w x v) + hold (workers w) =
      ∑ v, hold (workers v) + hold x := by
  rw [← Finset.add_sum_erase _ _ (Finset.mem_univ w), ← Finset.add_sum_erase Finset.univ
    (fun v => hold (workers v)) (Finset.mem_univ w), Function.update_self]
  have hrest : ∑ v ∈ Finset.univ.erase w, hold (Function.update workers w x v) =
      ∑ v ∈ Finset.univ.erase w, hold (workers v) := by
    refine Finset.sum_congr rfl fun v hv => ?_
    rw [Function.update_of_ne (Finset.ne_of_mem_erase hv)]
  rw [hrest, add_right_comm, add_comm (hold x), add_right_comm]

/-- A worker that takes a job holds it. -/
theorem sum_hold_take {w : ι} {x : σ} {job : α} (hbefore : hold (workers w) = 0)
    (hafter : hold x = {job}) :
    ∑ v, hold (Function.update workers w x v) = ∑ v, hold (workers v) + {job} := by
  have h := sum_hold_update hold workers w x
  rwa [hbefore, hafter, add_zero] at h

/-- A worker that is done with a job does not hold it any more. -/
theorem sum_hold_finish {w : ι} {x : σ} {job : α} (hbefore : hold (workers w) = {job})
    (hafter : hold x = 0) :
    ∑ v, hold (workers v) = ∑ v, hold (Function.update workers w x v) + {job} := by
  have h := sum_hold_update hold workers w x
  rw [hbefore, hafter, add_zero] at h
  exact h.symm

/-- A worker that holds what it held before. -/
theorem sum_hold_same {w : ι} {x : σ} (hsame : hold x = hold (workers w)) :
    ∑ v, hold (Function.update workers w x v) = ∑ v, hold (workers v) := by
  have h := sum_hold_update hold workers w x
  rw [hsame] at h
  exact add_right_cancel h

end Workers

end WorkQueue
