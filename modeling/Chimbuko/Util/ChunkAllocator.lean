import Chimbuko.Library.SlotPool
import Chimbuko.Library.TransitionSystem

/-!
# The pool allocator

`chunkAllocator` hands out slots of chunks that it allocates when the last one is used up, and
reuses the slots that were given back to it. It is followed over any calls of `get` and `free` that
give back only slots that are handed out.

The blocks that `malloc` returns are told apart by the order in which they were asked for. `malloc`
is taken to succeed.
-/

namespace Chimbuko

open SlotPool TransitionSystem

/-- A pointer to a slot: its block and its offset there. -/
structure Slot where
  chunk : ℕ
  offset : ℕ
deriving DecidableEq

/-- An allocator of chunks of slots. -/
structure ChunkAllocator where
  chunks : List ℕ
  reuse : List Slot
  chunkCount : ℕ
  off : ℕ

namespace ChunkAllocator

/-- Allocate a block. -/
def allocChunk (self : ChunkAllocator) : ChunkAllocator :=
  { self with chunks := self.chunks ++ [self.chunks.length] }

/-- The last of the chunks. -/
def back (self : ChunkAllocator) : Except String ℕ :=
  match self.chunks.getLast? with
  | none => throw "undefined: back of an empty vector"
  | some chunk => pure chunk

/-- Hand out a slot. -/
def get (self : ChunkAllocator) : Except String (Slot × ChunkAllocator) :=
  match self.reuse.getLast? with
  | some ret => pure (ret, { self with reuse := self.reuse.dropLast })
  | none =>
    if self.off = self.chunkCount then do
      -- no space left in the chunk
      let self := self.allocChunk
      let self := { self with off := 1 }
      let chunk ← self.back
      pure ({ chunk := chunk, offset := 0 }, self)
    else do
      let self := { self with off := self.off + 1 }
      let chunk ← self.back
      pure ({ chunk := chunk, offset := self.off - 1 }, self)

/-- Take back a slot. -/
def free (self : ChunkAllocator) (p : Slot) : ChunkAllocator :=
  { self with reuse := self.reuse ++ [p] }

/-- An allocator with one chunk. -/
def new (chunkCount : ℕ) : ChunkAllocator :=
  allocChunk { chunks := [], reuse := [], chunkCount := chunkCount, off := 0 }

/-- The slots in the part of the chunks that was used so far. -/
def Used (self : ChunkAllocator) (slot : Slot) : Prop :=
  slot.offset < self.chunkCount ∧ (slot.chunk + 1 < self.chunks.length ∨
    slot.chunk + 1 = self.chunks.length ∧ slot.offset < self.off)

/-- There is a last chunk, the chunks are the blocks asked for, and the offset lies in the last
one or at its end. -/
structure Layout (alloc : ChunkAllocator) : Prop where
  chunks : alloc.chunks = List.range alloc.chunks.length
  ne_nil : alloc.chunks ≠ []
  off_le : alloc.off ≤ alloc.chunkCount

/-- A new allocator has its layout. -/
theorem layout_new (chunkCount : ℕ) : (new chunkCount).Layout :=
  ⟨rfl, List.cons_ne_nil _ _, Nat.zero_le _⟩

/-- A new allocator has no used slots. -/
theorem not_used_new (chunkCount : ℕ) (slot : Slot) : ¬ (new chunkCount).Used slot := by
  rintro ⟨-, hchunk | ⟨-, hoff⟩⟩
  · have hone : slot.chunk + 1 < 1 := hchunk
    omega
  · exact Nat.not_lt_zero _ hoff

/-- The last chunk. -/
theorem Layout.back_eq {self : ChunkAllocator} (h : self.Layout) :
    self.back = .ok (self.chunks.length - 1) := by
  unfold back
  have hlength : self.chunks.length ≠ 0 := fun h0 => h.ne_nil (List.length_eq_zero_iff.mp h0)
  rw [h.chunks, List.getLast?_range, if_neg hlength, List.length_range]
  rfl

/-- What `get` does: a slot that was given back comes first, in the reverse order in which the
slots were given back, else a slot of the chunks that was never used. -/
theorem get_cases {self : ChunkAllocator} (h : self.Layout) (hcount : 1 ≤ self.chunkCount) :
    (∃ rest slot, self.reuse = rest ++ [slot] ∧
      self.get = .ok (slot, { self with reuse := rest })) ∨
    (self.reuse = [] ∧ ∃ slot after, self.get = .ok (slot, after) ∧ after.Layout ∧
      after.chunkCount = self.chunkCount ∧ after.reuse = [] ∧ ¬ self.Used slot ∧
        ∀ other, after.Used other ↔ other = slot ∨ self.Used other) := by
  rcases List.eq_nil_or_concat self.reuse with hreuse | ⟨rest, slot, hreuse⟩
  · refine Or.inr ⟨hreuse, ?_⟩
    have hlast : self.reuse.getLast? = none := by rw [hreuse, List.getLast?_nil]
    have hlength : 0 < self.chunks.length := List.length_pos_iff.mpr h.ne_nil
    by_cases hfull : self.off = self.chunkCount
    · -- the slot is the first one of a new chunk
      have hlayout : Layout { self.allocChunk with off := 1 } := by
        refine ⟨?_, List.append_ne_nil_of_right_ne_nil _ (List.cons_ne_nil _ _), hcount⟩
        simp only [allocChunk, List.length_append, List.length_singleton]
        rw [List.range_succ, ← h.chunks]
      refine ⟨{ chunk := self.chunks.length, offset := 0 }, { self.allocChunk with off := 1 }, ?_,
        hlayout, rfl, hreuse, ?_, ?_⟩
      · have hback : back { self.allocChunk with off := 1 } = .ok self.chunks.length := by
          rw [hlayout.back_eq]
          simp only [allocChunk, List.length_append, List.length_singleton, Nat.add_sub_cancel]
        unfold get
        rw [hlast]
        simp only [if_pos hfull, hback]
        rfl
      · rintro ⟨-, hlast | ⟨hlast, -⟩⟩
        · simp only at hlast
          omega
        · simp only at hlast
          omega
      · rintro ⟨chunk, offset⟩
        simp only [Used, allocChunk, List.length_append, List.length_singleton, Slot.mk.injEq]
        omega
    · -- the slot is the next one of the last chunk
      have hlayout : Layout { self with off := self.off + 1 } :=
        ⟨h.chunks, h.ne_nil, Nat.lt_of_le_of_ne h.off_le hfull⟩
      refine ⟨{ chunk := self.chunks.length - 1, offset := self.off },
        { self with off := self.off + 1 }, ?_, hlayout, rfl, hreuse, ?_, ?_⟩
      · have hback := hlayout.back_eq
        unfold get
        rw [hlast]
        simp only [if_neg hfull, hback, Nat.add_sub_cancel]
        rfl
      · rintro ⟨-, hlast | ⟨-, hoff⟩⟩
        · simp only at hlast
          omega
        · exact Nat.lt_irrefl _ hoff
      · rintro ⟨chunk, offset⟩
        have hoff := h.off_le
        simp only [Used, Slot.mk.injEq]
        omega
  · rw [List.concat_eq_append] at hreuse
    refine Or.inl ⟨rest, slot, hreuse, ?_⟩
    unfold get
    rw [hreuse, List.getLast?_concat, List.dropLast_concat]
    rfl

end ChunkAllocator

/-- An operation on an allocator. -/
inductive AllocatorOperation
  | get
  | free (p : Slot)

/-- An allocator with the slots that are handed out, those that were ever handed out, and the
largest number that was handed out at a time. -/
structure AllocatorHistory where
  alloc : ChunkAllocator
  live : List Slot
  created : List Slot
  peak : ℕ

namespace AllocatorHistory

open ChunkAllocator

/-- No slot was given out yet. -/
def start (chunkCount : ℕ) : AllocatorHistory :=
  { alloc := .new chunkCount, live := [], created := [], peak := 0 }

/-- Get a slot, or give one back. -/
def exec (s : AllocatorHistory) : AllocatorOperation → Except String AllocatorHistory
  | .get => do
    let (slot, alloc) ← s.alloc.get
    pure {
      alloc := alloc
      live := slot :: s.live
      created := s.created.insert slot
      peak := max s.peak (s.live.length + 1) }
  | .free p => pure { s with alloc := s.alloc.free p, live := s.live.erase p }

/-- Only slots that are handed out are given back. -/
def FreesLive (s : AllocatorHistory) : AllocatorOperation → Prop
  | .get => True
  | .free p => p ∈ s.live

instance (s : AllocatorHistory) : (a : AllocatorOperation) → Decidable (s.FreesLive a)
  | .get => inferInstanceAs (Decidable True)
  | .free p => inferInstanceAs (Decidable (p ∈ s.live))

/-- The history as a pool of slots. The slot that was given back last is reused first. -/
def pool (s : AllocatorHistory) : Pool Slot :=
  { live := s.live, free := s.alloc.reuse.reverse, made := s.created, peak := s.peak }

/-- The allocator with its history is a pool whose slots are the used part of the chunks. -/
structure Valid (chunkCount : ℕ) (s : AllocatorHistory) : Prop where
  pool : s.pool.Valid
  layout : s.alloc.Layout
  chunkCount : s.alloc.chunkCount = chunkCount
  created : ∀ slot, slot ∈ s.created ↔ s.alloc.Used slot

/-- The start is valid. -/
theorem valid_start (chunkCount : ℕ) : (start chunkCount).Valid chunkCount := by
  refine ⟨Pool.valid_empty, layout_new chunkCount, rfl, fun slot => ?_⟩
  constructor
  · exact fun h => absurd h List.not_mem_nil
  · exact fun h => absurd h (not_used_new chunkCount slot)

/-- What `get` hands out and leaves: the slot of those given back that comes first, or a slot that
was never handed out if there is none. -/
theorem Valid.get {chunkCount : ℕ} (hcount : 1 ≤ chunkCount) {s : AllocatorHistory}
    (h : s.Valid chunkCount) : ∃ slot after, s.alloc.get = .ok (slot, after) ∧
      after.Layout ∧ after.chunkCount = chunkCount ∧
      (∀ other, other = slot ∨ other ∈ s.created ↔ after.Used other) ∧
      ((s.pool.free = slot :: after.reuse.reverse ∧ after = { s.alloc with reuse := after.reuse }) ∨
        s.pool.free = [] ∧ after.reuse = [] ∧ slot ∉ s.created) := by
  rcases get_cases h.layout (h.chunkCount ▸ hcount) with
    ⟨rest, slot, hreuse, hget⟩ | ⟨hreuse, slot, after, hget, hlayout, hsame, hnone, hnew, hused⟩
  · have hfree : s.pool.free = slot :: rest.reverse := by
      rw [AllocatorHistory.pool, hreuse, List.reverse_append]
      rfl
    refine ⟨slot, { s.alloc with reuse := rest }, hget, ⟨h.layout.chunks, h.layout.ne_nil,
      h.layout.off_le⟩, h.chunkCount, fun other => ?_, Or.inl ⟨hfree, rfl⟩⟩
    have hmade : slot ∈ s.created :=
      h.pool.mem_made.mpr (Or.inr (hfree ▸ List.mem_cons_self))
    constructor
    · rintro (rfl | hother)
      · exact (h.created other).mp hmade
      · exact (h.created other).mp hother
    · exact fun hother => Or.inr ((h.created other).mpr hother)
  · refine ⟨slot, after, hget, hlayout, hsame.trans h.chunkCount, fun other => ?_,
      Or.inr ⟨?_, hnone, fun hmade => hnew ((h.created slot).mp hmade)⟩⟩
    · rw [hused other, h.created other]
    · rw [AllocatorHistory.pool, hreuse]
      rfl

/-- Every operation keeps the allocator and its history in step. -/
theorem Valid.exec {chunkCount : ℕ} (hcount : 1 ≤ chunkCount) {s t : AllocatorHistory}
    (h : s.Valid chunkCount) {a : AllocatorOperation} (ha : s.FreesLive a)
    (hstep : s.exec a = .ok t) : t.Valid chunkCount := by
  cases a with
  | get =>
    obtain ⟨slot, after, hget, hlayout, hsame, hused, hslot⟩ := h.get hcount
    rw [AllocatorHistory.exec, hget] at hstep
    cases hstep
    refine ⟨?_, hlayout, hsame, fun other => List.mem_insert_iff.trans (hused other)⟩
    rcases hslot with ⟨hfree, -⟩ | ⟨hfree, hnone, hnew⟩
    · exact h.pool.reuse hfree
    · have hmake := h.pool.make hfree hnew
      simp only [AllocatorHistory.pool, hnone]
      exact hmake
  | free p =>
    cases hstep
    refine ⟨?_, ⟨h.layout.chunks, h.layout.ne_nil, h.layout.off_le⟩, h.chunkCount, h.created⟩
    have htaken := h.pool.takeBack ha
    simp only [AllocatorHistory.pool, ChunkAllocator.free, List.reverse_append,
      List.reverse_singleton]
    exact htaken

/-- A slot that `get` hands out is not handed out already and lies inside a chunk. It is one of
the slots that were given back, as long as there are any. Each slot is created once, and as many
slots are created as were handed out at one time. -/
theorem get_not_live {chunkCount : ℕ} (hcount : 1 ≤ chunkCount) {s : AllocatorHistory}
    (hrun : Runs (StepOf exec) FreesLive (start chunkCount) s) :
    (∃ slot after, s.alloc.get = .ok (slot, after) ∧ slot ∉ s.live ∧
      slot.chunk ∈ after.chunks ∧ slot.offset < chunkCount ∧
      ((∃ p ∈ s.created, p ∉ s.live) → slot ∈ s.created ∧ after.chunks = s.alloc.chunks ∧
        after.off = s.alloc.off)) ∧
      s.created.Nodup ∧ s.created.length = s.peak := by
  have hs : s.Valid chunkCount := hrun.invariant (Valid chunkCount) (valid_start chunkCount)
    fun _ _ _ hs hguard hstep => hs.exec hcount hguard hstep
  refine ⟨?_, hs.pool.nodup, hs.pool.peak.symm⟩
  obtain ⟨slot, after, hget, hlayout, hsame, hused, hslot⟩ := hs.get hcount
  obtain ⟨hoffset, hchunk⟩ := (hused slot).mp (Or.inl rfl)
  refine ⟨slot, after, hget, ?_, ?_, hsame ▸ hoffset, ?_⟩
  · rcases hslot with ⟨hfree, -⟩ | ⟨-, -, hnew⟩
    · exact hs.pool.not_mem_live (hfree ▸ List.mem_cons_self)
    · exact fun hlive => hnew (hs.pool.mem_made.mpr (Or.inl hlive))
  · rw [hlayout.chunks, List.mem_range]
    omega
  · rintro ⟨p, hcreated, hdead⟩
    rcases hslot with ⟨hfree, hafter⟩ | ⟨hfree, -, -⟩
    · refine ⟨hs.pool.mem_made.mpr (Or.inr (hfree ▸ List.mem_cons_self)), ?_, ?_⟩
      · rw [hafter]
      · rw [hafter]
    · rcases hs.pool.mem_made.mp hcreated with hlive | hgiven
      · exact absurd hlive hdead
      · rw [hfree] at hgiven
        exact absurd hgiven List.not_mem_nil

/-- Three slots of chunks of two, and one of them given back. -/
private def threeSlots : List AllocatorOperation :=
  [.get, .get, .get, .free { chunk := 0, offset := 1 }]

/-- The slot that was given back is handed out next. -/
theorem get_not_live_threeSlots : ∃ s,
    runAll exec FreesLive (start 2) threeSlots = some s ∧
      (∃ slot after, s.alloc.get = .ok (slot, after) ∧ slot ∉ s.live ∧
        slot.chunk ∈ after.chunks ∧ slot.offset < 2 ∧
        ((∃ p ∈ s.created, p ∉ s.live) → slot ∈ s.created ∧ after.chunks = s.alloc.chunks ∧
          after.off = s.alloc.off)) ∧
        s.created.Nodup ∧ s.created.length = s.peak := by
  have hrun : (runAll exec FreesLive (start 2) threeSlots).isSome := by decide +kernel
  obtain ⟨s, hs⟩ := Option.isSome_iff_exists.mp hrun
  exact ⟨s, hs, get_not_live (by decide) (runs_of_runAll threeSlots hs)⟩

end AllocatorHistory

end Chimbuko
