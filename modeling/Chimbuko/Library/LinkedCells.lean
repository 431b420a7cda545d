import Mathlib.Data.List.Nodup
import Mathlib.Data.List.Perm.Subperm

/-!
# Doubly linked cells with an end marker

A chain of cells in memory: each cell holds a content and points to its neighbours, the first one
has nothing to its left, and the chain closes with a marker that holds no content and has nothing
to its right. Linking a new cell in on either side of a cell keeps the pointers of the whole chain
in order. Programs over such a memory are compared with programs over lists: they fail in the
same way, or their results are related.
-/

namespace LinkedCells

section Agree

variable {ε α β α' β' : Type}

/-- Results agree: the same error, or related values. -/
def Agree (R : α → β → Prop) : Except ε α → Except ε β → Prop
  | .ok x, .ok y => R x y
  | .error e, .error e' => e = e'
  | _, _ => False

/-- Programs that agree in their first part and, on related values, in the rest. -/
theorem Agree.bind {R : α → β → Prop} {S : α' → β' → Prop} {x : Except ε α} {y : Except ε β}
    (h : Agree R x y) {f : α → Except ε α'} {g : β → Except ε β'}
    (hrest : ∀ a b, R a b → Agree S (f a) (g b)) : Agree S (x >>= f) (y >>= g) := by
  cases x <;> cases y
  · exact h
  · exact h.elim
  · exact h.elim
  · exact hrest _ _ h

/-- Agreement weakens with the relation. -/
theorem Agree.mono {R S : α → β → Prop} {x : Except ε α} {y : Except ε β} (h : Agree R x y)
    (hRS : ∀ a b, R a b → S a b) : Agree S x y := by
  cases x <;> cases y
  · exact h
  · exact h.elim
  · exact h.elim
  · exact hRS _ _ h

/-- A result that agrees with a value is a related value. -/
theorem Agree.of_ok {R : α → β → Prop} {a : α} {y : Except ε β} (h : Agree R (.ok a) y) :
    ∃ b, y = .ok b ∧ R a b := by
  cases y with
  | error e => exact h.elim
  | ok b => exact ⟨b, rfl, h⟩

/-- Loops over the same list agree if their bodies do. -/
theorem Agree.foldlM {γ : Type} {R : α → β → Prop} {f : α → γ → Except ε α}
    {g : β → γ → Except ε β} {xs : List γ}
    (hstep : ∀ x ∈ xs, ∀ a b, R a b → Agree R (f a x) (g b x)) {a : α} {b : β} (h : R a b) :
    Agree R (xs.foldlM f a) (xs.foldlM g b) := by
  induction xs generalizing a b with
  | nil => exact h
  | cons x rest ih =>
    rw [List.foldlM_cons, List.foldlM_cons]
    exact Agree.bind (hstep x List.mem_cons_self a b h) fun a' b' h' =>
      ih (fun y hy => hstep y (List.mem_cons_of_mem _ hy)) h'

end Agree

variable {α : Type}

/-- A cell: its content, the addresses of its neighbours, and whether it is the end marker. -/
structure Cell (α : Type) where
  content : α
  left : Option ℕ
  right : Option ℕ
  isEnd : Bool
deriving DecidableEq

/-- The cells allocated so far; an address is an index. -/
abbrev Memory (α : Type) := List (Cell α)

/-- Link a cell in on the right of another. None if a null pointer is followed. -/
def linkRight (mem : Memory α) (of toins : ℕ) : Option (Memory α) := do
  let c ← mem[of]?
  let next ← c.right
  let mem := mem.modify toins fun d => { d with right := some next }
  let mem := mem.modify next fun d => { d with left := some toins }
  let mem := mem.modify toins fun d => { d with left := some of }
  some (mem.modify of fun d => { d with right := some toins })

/-- Link a cell in on the left of another, which may be the first one or the end marker. -/
def linkLeft (mem : Memory α) (of toins : ℕ) : Option (Memory α) := do
  let c ← mem[of]?
  let mem := mem.modify toins fun d => { d with left := c.left }
  let mem := match c.left with
    | none => mem
    | some p => mem.modify p fun d => { d with right := some toins }
  let mem := mem.modify toins fun d => { d with right := some of }
  some (mem.modify of fun d => { d with left := some toins })

/-- The address of the first cell, or of what follows if there is none. -/
def firstAddress (next : ℕ) : List (ℕ × α) → ℕ
  | [] => next
  | c :: _ => c.1

/-- The address of the last cell, or of what precedes if there is none. -/
def lastAddress (prev : Option ℕ) : List (ℕ × α) → Option ℕ
  | [] => prev
  | c :: rest => lastAddress (some c.1) rest

/-- Cells that point to each other, the first one to `prev` and the last one to `next`. -/
def Segment (mem : Memory α) (prev : Option ℕ) (next : ℕ) : List (ℕ × α) → Prop
  | [] => True
  | c :: rest =>
    mem[c.1]? = some ⟨c.2, prev, some (firstAddress next rest), false⟩ ∧
      Segment mem (some c.1) next rest

/-- The memory holds a chain of given cells that closes with the marker at `e`. -/
structure Represents (mem : Memory α) (e : ℕ) (cells : List (ℕ × α)) : Prop where
  segment : Segment mem none e cells
  marker : ∃ a, mem[e]? = some ⟨a, lastAddress none cells, none, true⟩
  nodup : (cells.map Prod.fst).Nodup

/-- The address of the cell at an index; past the last cell it is the end marker. -/
def address (e : ℕ) (cells : List (ℕ × α)) (i : ℕ) : ℕ := firstAddress e (cells.drop i)

/-- The first of cells and others is that of the cells, if there are any. -/
@[simp] theorem firstAddress_append (next : ℕ) (xs ys : List (ℕ × α)) :
    firstAddress next (xs ++ ys) = firstAddress (firstAddress next ys) xs := by
  cases xs <;> rfl

/-- The last of cells and others is that of the others, if there are any. -/
@[simp] theorem lastAddress_append (prev : Option ℕ) (xs ys : List (ℕ × α)) :
    lastAddress prev (xs ++ ys) = lastAddress (lastAddress prev xs) ys := by
  induction xs generalizing prev with
  | nil => rfl
  | cons c rest ih => exact ih (some c.1)

/-- Cells and others are linked if both are and they meet. -/
theorem segment_append {mem : Memory α} {prev : Option ℕ} {next : ℕ} (xs ys : List (ℕ × α)) :
    Segment mem prev next (xs ++ ys) ↔
      Segment mem prev (firstAddress next ys) xs ∧ Segment mem (lastAddress prev xs) next ys := by
  induction xs generalizing prev with
  | nil => exact ⟨fun h => ⟨trivial, h⟩, fun h => h.2⟩
  | cons c rest ih =>
    rw [List.cons_append, Segment, Segment, ih, firstAddress_append, and_assoc]
    rfl

/-- A segment depends on its own cells only. -/
theorem Segment.congr {mem mem' : Memory α} {prev : Option ℕ} {next : ℕ} {xs : List (ℕ × α)}
    (h : Segment mem prev next xs) (hmem : ∀ c ∈ xs, mem'[c.1]? = mem[c.1]?) :
    Segment mem' prev next xs := by
  induction xs generalizing prev with
  | nil => exact trivial
  | cons c rest ih =>
    exact ⟨(hmem c List.mem_cons_self).trans h.1,
      ih h.2 fun d hd => hmem d (List.mem_cons_of_mem _ hd)⟩

/-- What a cell of a segment holds. -/
theorem Segment.get {mem : Memory α} {prev : Option ℕ} {next : ℕ} {xs : List (ℕ × α)}
    (h : Segment mem prev next xs) {c : ℕ × α} (hc : c ∈ xs) :
    ∃ l r, mem[c.1]? = some ⟨c.2, l, r, false⟩ := by
  induction xs generalizing prev with
  | nil => exact absurd hc List.not_mem_nil
  | cons d rest ih =>
    rcases List.mem_cons.mp hc with rfl | hc
    · exact ⟨_, _, h.1⟩
    · exact ih h.2 hc

/-- The end marker is not one of the cells. -/
theorem Represents.marker_ne {mem : Memory α} {e : ℕ} {cells : List (ℕ × α)}
    (h : Represents mem e cells) {c : ℕ × α} (hc : c ∈ cells) : c.1 ≠ e := by
  intro heq
  obtain ⟨l, r, hget⟩ := h.segment.get hc
  obtain ⟨a, hend⟩ := h.marker
  rw [heq, hend] at hget
  exact Bool.noConfusion (congrArg Cell.isEnd (Option.some.inj hget))

/-- The cells of a chain have different addresses. -/
theorem Represents.ne_of_append {mem : Memory α} {e : ℕ} {xs ys : List (ℕ × α)}
    (h : Represents mem e (xs ++ ys)) {c d : ℕ × α} (hc : c ∈ xs) (hd : d ∈ ys) : c.1 ≠ d.1 := by
  have hnodup := h.nodup
  rw [List.map_append] at hnodup
  exact fun heq => (List.nodup_append.mp hnodup).2.2 _ (List.mem_map_of_mem hc) _
    (List.mem_map_of_mem hd) heq

/-- Segments that start at one address and end at the marker are the same. -/
theorem Segment.unique {mem : Memory α} {e : ℕ} {prev prev' : Option ℕ} {a : α} {l r : Option ℕ}
    (hmarker : mem[e]? = some ⟨a, l, r, true⟩) {xs ys : List (ℕ × α)} (hx : Segment mem prev e xs)
    (hy : Segment mem prev' e ys) (hfirst : firstAddress e xs = firstAddress e ys) : xs = ys := by
  have hne : ∀ {c : ℕ × α} {l' r' : Option ℕ}, mem[c.1]? = some ⟨c.2, l', r', false⟩ → c.1 ≠ e := by
    rintro c l' r' hget rfl
    rw [hmarker] at hget
    exact Bool.noConfusion (congrArg Cell.isEnd (Option.some.inj hget))
  induction xs generalizing ys prev prev' with
  | nil =>
    cases ys with
    | nil => rfl
    | cons d ys => exact absurd hfirst.symm (hne hy.1)
  | cons c xs ih =>
    cases ys with
    | nil => exact absurd hfirst (hne hx.1)
    | cons d ys =>
      obtain ⟨p, a⟩ := c
      obtain ⟨q, b⟩ := d
      obtain rfl : p = q := hfirst
      have hcell := Option.some.inj (hx.1.symm.trans hy.1)
      obtain rfl : a = b := congrArg Cell.content hcell
      have hnext := Option.some.inj (congrArg Cell.right hcell)
      rw [ih hx.2 hy.2 hnext]

/-- The memory holds one chain from a given first cell to a given marker. -/
theorem Represents.unique {mem : Memory α} {e : ℕ} {xs ys : List (ℕ × α)}
    (hx : Represents mem e xs) (hy : Represents mem e ys)
    (hfirst : address e xs 0 = address e ys 0) : xs = ys := by
  obtain ⟨a, hmarker⟩ := hx.marker
  exact hx.segment.unique hmarker hy.segment hfirst

/-- There are more cells in memory than in a chain. -/
theorem Represents.length_lt {mem : Memory α} {e : ℕ} {cells : List (ℕ × α)}
    (h : Represents mem e cells) : cells.length < mem.length := by
  have hnodup : (e :: cells.map Prod.fst).Nodup := by
    refine List.nodup_cons.mpr ⟨fun hmem => ?_, h.nodup⟩
    obtain ⟨c, hc, hce⟩ := List.mem_map.mp hmem
    exact h.marker_ne hc hce
  have hsubset : e :: cells.map Prod.fst ⊆ List.range mem.length := by
    intro x hx
    rw [List.mem_range]
    rcases List.mem_cons.mp hx with rfl | hx
    · obtain ⟨a, hmarker⟩ := h.marker
      exact (List.getElem?_eq_some_iff.mp hmarker).1
    · obtain ⟨c, hc, rfl⟩ := List.mem_map.mp hx
      obtain ⟨l, r, hget⟩ := h.segment.get hc
      exact (List.getElem?_eq_some_iff.mp hget).1
  have hle := (List.subperm_of_subset hnodup hsubset).length_le
  rw [List.length_cons, List.length_map, List.length_range] at hle
  exact hle

/-- A segment whose first cell gets another left neighbour. -/
theorem Segment.relink {mem mem' : Memory α} {prev prev' : Option ℕ} {next : ℕ}
    {xs : List (ℕ × α)} (h : Segment mem prev next xs)
    (hfirst : ∀ c ∈ xs.head?, mem'[c.1]? = mem[c.1]?.map fun d => { d with left := prev' })
    (htail : ∀ c ∈ xs.tail, mem'[c.1]? = mem[c.1]?) : Segment mem' prev' next xs := by
  cases xs with
  | nil => exact trivial
  | cons c rest =>
    refine ⟨?_, h.2.congr htail⟩
    rw [hfirst c rfl, h.1]
    rfl

/-- What linking in on the right changes: the pointers of the cell, of the new one and of its
right neighbour. -/
theorem linkRight_get {mem : Memory α} {p q next : ℕ} {c : Cell α} (hp : mem[p]? = some c)
    (hnext : c.right = some next) (hpq : p ≠ q) (hnq : next ≠ q) (hpn : p ≠ next) :
    ∃ mem', linkRight mem p q = some mem' ∧ mem'[p]? = some { c with right := some q } ∧
      mem'[q]? = mem[q]?.map (fun d => { d with left := some p, right := some next }) ∧
      mem'[next]? = mem[next]?.map (fun d => { d with left := some q }) ∧
      ∀ x, x ≠ p → x ≠ q → x ≠ next → mem'[x]? = mem[x]? := by
  refine ⟨_, by rw [linkRight, hp]; simp only [Option.bind_eq_bind, Option.bind_some, hnext]; rfl,
    ?_, ?_, ?_, fun x hxp hxq hxn => ?_⟩
  · simp [hp, hpq.symm, hpn.symm]
  · simp [hpq, hnq, Function.comp_def]
  · simp [hnq.symm, hpn]
  · simp [hxp.symm, hxq.symm, hxn.symm]

/-- Linking a new cell in on the right of a cell of a chain puts it there. -/
theorem Represents.linkRight {mem : Memory α} {e p q : ℕ} {a b : α} {pre post : List (ℕ × α)}
    {l r : Option ℕ} (h : Represents mem e (pre ++ (p, a) :: post))
    (hq : mem[q]? = some ⟨b, l, r, false⟩) (hfresh : ∀ c ∈ pre ++ (p, a) :: post, c.1 ≠ q) :
    ∃ mem', linkRight mem p q = some mem' ∧
      Represents mem' e (pre ++ (p, a) :: (q, b) :: post) := by
  obtain ⟨hpre, hp, hpost⟩ := (segment_append pre _).mp h.segment
  obtain ⟨d, hmarker⟩ := h.marker
  have hqe : e ≠ q := by
    rintro rfl
    rw [hmarker] at hq
    exact Bool.noConfusion (congrArg Cell.isEnd (Option.some.inj hq))
  have hpq : p ≠ q := hfresh (p, a) (by simp)
  have hpe : p ≠ e := h.marker_ne (c := (p, a)) (by simp)
  -- the address of what follows is neither the new cell nor the one before
  have hnext : firstAddress e post ≠ q ∧ p ≠ firstAddress e post := by
    cases post with
    | nil => exact ⟨hqe, hpe⟩
    | cons c rest =>
      refine ⟨hfresh c (by simp), ?_⟩
      rw [List.append_cons] at h
      exact h.ne_of_append (c := (p, a)) (by simp) List.mem_cons_self
  obtain ⟨mem', hlink, hget, hgetq, hgetn, hother⟩ :=
    linkRight_get hp rfl hpq hnext.1 hnext.2
  have hpre' : ∀ c ∈ pre, mem'[c.1]? = mem[c.1]? := by
    intro c hc
    refine hother c.1 (h.ne_of_append hc List.mem_cons_self)
      (hfresh c (List.mem_append_left _ hc)) ?_
    cases post with
    | nil => exact h.marker_ne (List.mem_append_left _ hc)
    | cons d rest => exact h.ne_of_append hc (List.mem_cons_of_mem _ List.mem_cons_self)
  have htail : ∀ c ∈ post.tail, mem'[c.1]? = mem[c.1]? := by
    cases post with
    | nil => exact fun c hc => absurd hc List.not_mem_nil
    | cons d rest =>
      intro c hc
      have hc' : c ∈ rest := hc
      refine hother c.1 ?_ (hfresh c (by simp [hc'])) ?_
      · rw [List.append_cons] at h
        exact (h.ne_of_append (c := (p, a)) (by simp) (List.mem_cons_of_mem _ hc)).symm
      · rw [List.append_cons, List.append_cons] at h
        exact (h.ne_of_append (c := d) (by simp) hc).symm
  refine ⟨mem', hlink, ⟨?_, ?_, ?_⟩⟩
  · refine (segment_append pre _).mpr ⟨hpre.congr hpre', hget, ?_, ?_⟩
    · rw [hgetq, hq]
      rfl
    · refine hpost.relink (fun c hc => ?_) htail
      cases post with
      | nil => exact absurd hc (Option.not_mem_none c)
      | cons d rest =>
        obtain rfl := Option.some.inj hc
        exact hgetn
  · refine ⟨d, ?_⟩
    cases post with
    | nil =>
      rw [lastAddress_append]
      refine hgetn.trans ?_
      change mem[e]?.map _ = _
      rw [hmarker]
      rfl
    | cons c rest =>
      rw [hother e hpe.symm hqe (h.marker_ne (c := c) (by simp)).symm, hmarker, lastAddress_append,
        lastAddress_append]
      rfl
  · have hnodup := h.nodup
    rw [List.append_cons, List.map_append, List.map_cons, List.nodup_middle, ← List.map_append,
      ← List.append_cons, List.nodup_cons]
    refine ⟨fun hmem => ?_, hnodup⟩
    obtain ⟨c, hc, hcq⟩ := List.mem_map.mp hmem
    exact hfresh c hc hcq

/-- What linking in on the left of a cell without left neighbour changes. -/
theorem linkLeft_get {mem : Memory α} {p q : ℕ} {c : Cell α} (hp : mem[p]? = some c)
    (hleft : c.left = none) (hpq : p ≠ q) :
    ∃ mem', linkLeft mem p q = some mem' ∧ mem'[p]? = some { c with left := some q } ∧
      mem'[q]? = mem[q]?.map (fun d => { d with left := none, right := some p }) ∧
      ∀ x, x ≠ p → x ≠ q → mem'[x]? = mem[x]? := by
  refine ⟨_, by rw [linkLeft, hp]; simp only [Option.bind_eq_bind, Option.bind_some, hleft]; rfl,
    ?_, ?_, fun x hxp hxq => ?_⟩
  · simp [hp, hpq.symm]
  · simp [hpq, Function.comp_def]
  · simp [hxp.symm, hxq.symm]

/-- Linking a new cell in on the left of the first cell of a chain, or of the marker of an empty
one, puts it in front. -/
theorem Represents.linkLeft {mem : Memory α} {e q : ℕ} {b : α} {cells : List (ℕ × α)}
    {l r : Option ℕ} (h : Represents mem e cells) (hq : mem[q]? = some ⟨b, l, r, false⟩)
    (hfresh : ∀ c ∈ cells, c.1 ≠ q) :
    ∃ mem', linkLeft mem (firstAddress e cells) q = some mem' ∧
      Represents mem' e ((q, b) :: cells) := by
  obtain ⟨d, hmarker⟩ := h.marker
  have hqe : e ≠ q := by
    rintro rfl
    rw [hmarker] at hq
    exact Bool.noConfusion (congrArg Cell.isEnd (Option.some.inj hq))
  have hnodup : (((q, b) :: cells).map Prod.fst).Nodup := by
    refine List.nodup_cons.mpr ⟨fun hmem => ?_, h.nodup⟩
    obtain ⟨c, hc, hcq⟩ := List.mem_map.mp hmem
    exact hfresh c hc hcq
  cases cells with
  | nil =>
    obtain ⟨mem', hlink, hget, hgetq, -⟩ := linkLeft_get hmarker rfl hqe
    refine ⟨mem', hlink, ⟨⟨?_, trivial⟩, ⟨d, hget⟩, hnodup⟩⟩
    rw [hgetq, hq]
    rfl
  | cons c rest =>
    obtain ⟨mem', hlink, hget, hgetq, hother⟩ :=
      linkLeft_get h.segment.1 rfl (hfresh c List.mem_cons_self)
    refine ⟨mem', hlink, ⟨⟨?_, h.segment.relink (fun c' hc' => ?_) fun c' hc' => ?_⟩, ⟨d, ?_⟩,
      hnodup⟩⟩
    · rw [hgetq, hq]
      rfl
    · obtain rfl := Option.some.inj hc'
      rw [hget, h.segment.1]
      rfl
    · have hsplit : Represents mem e ([c] ++ rest) := h
      have hne : c.1 ≠ c'.1 := hsplit.ne_of_append List.mem_cons_self hc'
      exact hother c'.1 hne.symm (hfresh c' (List.mem_cons_of_mem _ hc'))
    · rw [hother e (h.marker_ne List.mem_cons_self).symm hqe, hmarker]
      rfl

/-- Changing the content of a cell of a chain changes nothing else. -/
theorem Represents.setContent {mem : Memory α} {e p : ℕ} {a : α} {pre post : List (ℕ × α)}
    (h : Represents mem e (pre ++ (p, a) :: post)) (a' : α) :
    Represents (mem.modify p fun c => { c with content := a' }) e (pre ++ (p, a') :: post) := by
  obtain ⟨hpre, hp, hpost⟩ := (segment_append pre _).mp h.segment
  have hother : ∀ x, x ≠ p →
      (mem.modify p fun c => { c with content := a' })[x]? = mem[x]? := fun x hx =>
    List.getElem?_modify_ne _ _ hx.symm
  refine ⟨(segment_append pre _).mpr ⟨?_, ?_, ?_⟩, ?_, ?_⟩
  · exact hpre.congr fun c hc => hother c.1 (h.ne_of_append hc List.mem_cons_self)
  · rw [List.getElem?_modify_eq]
    exact (congrArg (Option.map _) hp).trans rfl
  · refine hpost.congr fun c hc => hother c.1 ?_
    rw [List.append_cons] at h
    exact (h.ne_of_append (c := (p, a)) (by simp) hc).symm
  · obtain ⟨d, hmarker⟩ := h.marker
    refine ⟨d, ?_⟩
    rw [hother e (h.marker_ne (c := (p, a)) (by simp)).symm, hmarker,
      lastAddress_append, lastAddress_append]
    rfl
  · have hnodup := h.nodup
    rw [List.map_append, List.map_cons] at hnodup ⊢
    exact hnodup

/-- A new cell is not part of the chain. -/
theorem Represents.alloc {mem : Memory α} {e : ℕ} {cells : List (ℕ × α)}
    (h : Represents mem e cells) (c : Cell α) :
    Represents (mem ++ [c]) e cells ∧ (mem ++ [c])[mem.length]? = some c ∧
      ∀ d ∈ cells, d.1 ≠ mem.length := by
  have hlt : ∀ {x : ℕ} {d : Cell α}, mem[x]? = some d → x < mem.length := fun hget =>
    (List.getElem?_eq_some_iff.mp hget).1
  have hmem : ∀ {x : ℕ} {d : Cell α}, mem[x]? = some d → (mem ++ [c])[x]? = mem[x]? := fun hget =>
    List.getElem?_append_left (hlt hget)
  refine ⟨⟨h.segment.congr fun d hd => ?_, ?_, h.nodup⟩, by simp, fun d hd => ?_⟩
  · obtain ⟨l, r, hget⟩ := h.segment.get hd
    exact hmem hget
  · obtain ⟨d, hmarker⟩ := h.marker
    exact ⟨d, (hmem hmarker).trans hmarker⟩
  · obtain ⟨l, r, hget⟩ := h.segment.get hd
    exact Nat.ne_of_lt (hlt hget)

end LinkedCells
