import Mathlib.Algebra.BigOperators.Group.Finset.Piecewise
import Mathlib.Algebra.Order.BigOperators.Group.Finset

/-!
# Call forests

Nested calls on any number of threads, each with a stack of open calls. Calls name their parents
by an identifier, and a call keeps the number of its children and its exclusive time while they
come and go: a child counts when it starts, and its runtime is subtracted when it ends.
-/

namespace CallForest

open Finset

/-- A call. Its exit and runtime are zero until it ends. -/
structure Node (κ τ : Type*) where
  id : κ
  parent : κ
  thread : τ
  entry : ℤ
  exit : ℤ
  runtime : ℤ
  exclusive : ℤ
  nChildren : ℕ

end CallForest

/-- Numbered calls and the open calls of each thread, the innermost first. -/
structure CallForest (κ τ : Type*) where
  node : ℕ → CallForest.Node κ τ
  size : ℕ
  stack : τ → List ℕ

namespace CallForest

open Finset

variable {κ τ : Type*} [DecidableEq κ] [DecidableEq τ]

/-- The calls whose parent a call is. -/
def children (F : CallForest κ τ) (x : ℕ) : Finset ℕ :=
  (range F.size).filter fun z => (F.node z).parent = (F.node x).id

/-- The total runtime of a call's children. -/
def childTime (F : CallForest κ τ) (x : ℕ) : ℤ := ∑ z ∈ F.children x, (F.node z).runtime

/-- Change one call. -/
def modify (F : CallForest κ τ) (x : ℕ) (f : Node κ τ → Node κ τ) : CallForest κ τ :=
  { F with node := Function.update F.node x (f (F.node x)) }

/-- Start a call on top of the open calls of a thread. -/
def push (F : CallForest κ τ) (root id : κ) (thr : τ) (t : ℤ) : CallForest κ τ :=
  let stack := F.stack thr
  let parent := (stack.head?.map fun top => (F.node top).id).getD root
  let F' := match stack with
    | [] => F
    | top :: _ => F.modify top fun p => { p with nChildren := p.nChildren + 1 }
  { node := Function.update F'.node F.size
      { id := id, parent := parent, thread := thr, entry := t, exit := 0, runtime := 0,
        exclusive := 0, nChildren := 0 }
    size := F.size + 1
    stack := Function.update F.stack thr (F.size :: stack) }

/-- End a call that is at the top of its thread's stack. -/
def close (F : CallForest κ τ) (thr : τ) (x : ℕ) (rest : List ℕ) (t : ℤ) : CallForest κ τ :=
  let runtime := t - (F.node x).entry
  { F.modify x fun d => { d with
      exit := t, runtime := runtime, exclusive := d.exclusive + runtime } with
    stack := Function.update F.stack thr rest }

/-- End the innermost open call of a thread and tell the call below it its runtime. -/
def pop (F : CallForest κ τ) (thr : τ) (x : ℕ) (rest : List ℕ) (t : ℤ) : CallForest κ τ :=
  match rest with
  | [] => F.close thr x rest t
  | top :: _ => (F.close thr x rest t).modify top fun p =>
      { p with exclusive := p.exclusive - (t - (F.node x).entry) }

/-- Each of some open calls is the parent of the one before it, and the last has the root as its
parent. -/
def Chain (F : CallForest κ τ) (root : κ) : List ℕ → Prop
  | [] => True
  | x :: rest =>
    (F.node x).parent = (rest.head?.map fun y => (F.node y).id).getD root ∧ F.Chain root rest

/-- What happened below some open calls is over: the children of the first one have ended by a
given time and took no longer than its own time so far, and those of the others have ended
before the open call above them started. -/
def Settled (F : CallForest κ τ) : ℤ → List ℕ → Prop
  | _, [] => True
  | now, x :: rest =>
    (F.node x).entry ≤ now ∧ (∀ z ∈ F.children x, (F.node z).exit ≤ now) ∧
      F.childTime x ≤ now - (F.node x).entry ∧ F.Settled (F.node x).entry rest

/-- The invariant of call forests. Identifiers in use satisfy a predicate, and each thread has a
latest time. -/
structure Valid (F : CallForest κ τ) (root : κ) (used : κ → Prop) (now : τ → ℤ) : Prop where
  id_used : ∀ x < F.size, used (F.node x).id
  id_inj : ∀ x < F.size, ∀ y < F.size, (F.node x).id = (F.node y).id → x = y
  id_ne_root : ∀ x < F.size, (F.node x).id ≠ root
  parent_eq : ∀ x < F.size, (F.node x).parent = root ∨
    ∃ y < F.size, (F.node x).parent = (F.node y).id ∧ (F.node y).entry ≤ (F.node x).entry
  entry_nonneg : ∀ x < F.size, 0 ≤ (F.node x).entry
  stack_lt : ∀ thr, ∀ x ∈ F.stack thr, x < F.size ∧ (F.node x).thread = thr
  stack_nodup : ∀ thr, (F.stack thr).Nodup
  chain : ∀ thr, F.Chain root (F.stack thr)
  nChildren_eq : ∀ x < F.size, (F.node x).nChildren = (F.children x).card
  exclusive_eq : ∀ x < F.size, (F.node x).exclusive = (F.node x).runtime - F.childTime x
  open_zero : ∀ thr, ∀ x ∈ F.stack thr, (F.node x).runtime = 0 ∧ (F.node x).exit = 0
  done : ∀ x < F.size, x ∉ F.stack (F.node x).thread →
    (F.node x).entry ≤ (F.node x).exit ∧
      (F.node x).runtime = (F.node x).exit - (F.node x).entry ∧
      (∀ z ∈ F.children x, (F.node z).exit ≤ (F.node x).exit) ∧
      F.childTime x ≤ (F.node x).runtime
  settled : ∀ thr, F.Settled (now thr) (F.stack thr)

omit [DecidableEq κ] [DecidableEq τ] in
/-- A node that is changed to itself does not change. -/
theorem modify_eq_self (F : CallForest κ τ) (x : ℕ) : (F.modify x fun _ => F.node x) = F := by
  rw [modify, Function.update_eq_self]

omit [DecidableEq τ] in
/-- The children of a node are those whose parent it is. -/
theorem mem_children {F : CallForest κ τ} {x z : ℕ} :
    z ∈ F.children x ↔ z < F.size ∧ (F.node z).parent = (F.node x).id := by
  rw [children, mem_filter, mem_range]

omit [DecidableEq τ] in
/-- Later times settle no less. -/
theorem Settled.mono {F : CallForest κ τ} {now now' : ℤ} (hle : now ≤ now') {xs : List ℕ}
    (h : F.Settled now xs) : F.Settled now' xs := by
  cases xs with
  | nil => trivial
  | cons x rest =>
    obtain ⟨h1, h2, h3, h4⟩ := h
    exact ⟨h1.trans hle, fun z hz => (h2 z hz).trans hle, by omega, h4⟩

omit [DecidableEq κ] [DecidableEq τ] in
/-- A chain depends only on the parents and identifiers of its calls. -/
theorem Chain.congr {F F' : CallForest κ τ} {root : κ} {xs : List ℕ} (h : F.Chain root xs)
    (hparent : ∀ x ∈ xs, (F'.node x).parent = (F.node x).parent)
    (hid : ∀ x ∈ xs, (F'.node x).id = (F.node x).id) : F'.Chain root xs := by
  induction xs with
  | nil => trivial
  | cons x rest ih =>
    refine ⟨?_, ih h.2 (fun y hy => hparent y (List.mem_cons_of_mem _ hy))
      fun y hy => hid y (List.mem_cons_of_mem _ hy)⟩
    rw [hparent x List.mem_cons_self, h.1]
    cases rest with
    | nil => rfl
    | cons y ys =>
      change (F.node y).id = (F'.node y).id
      rw [hid y (List.mem_cons_of_mem _ List.mem_cons_self)]

omit [DecidableEq τ] in
/-- What is settled depends only on the entries of the calls and on their ended children. -/
theorem Settled.congr {F F' : CallForest κ τ} {now : ℤ} {xs : List ℕ} (h : F.Settled now xs)
    (hnow : 0 ≤ now)
    (hentry : ∀ x ∈ xs, (F'.node x).entry = (F.node x).entry ∧ 0 ≤ (F.node x).entry)
    (hexit : ∀ x ∈ xs, ∀ z ∈ F'.children x,
      z ∈ F.children x ∧ (F'.node z).exit = (F.node z).exit ∨ (F'.node z).exit = 0)
    (htime : ∀ x ∈ xs, F'.childTime x = F.childTime x) : F'.Settled now xs := by
  induction xs generalizing now with
  | nil => trivial
  | cons x rest ih =>
    obtain ⟨h1, h2, h3, h4⟩ := h
    obtain ⟨hx, hpos⟩ := hentry x List.mem_cons_self
    refine ⟨hx.trans_le h1, fun z hz => ?_, ?_, ?_⟩
    · rcases hexit x List.mem_cons_self z hz with ⟨hz', heq⟩ | hzero
      · exact heq.trans_le (h2 z hz')
      · exact hzero.trans_le hnow
    · rw [htime x List.mem_cons_self, hx]
      exact h3
    · rw [hx]
      exact ih h4 hpos (fun y hy => hentry y (List.mem_cons_of_mem _ hy))
        (fun y hy => hexit y (List.mem_cons_of_mem _ hy))
        fun y hy => htime y (List.mem_cons_of_mem _ hy)

section Spec

variable {F : CallForest κ τ} {root : κ} {used : κ → Prop} {now : τ → ℤ}

omit [DecidableEq τ] in
/-- A forest without calls satisfies the invariant. -/
theorem valid_empty (hsize : F.size = 0) (hstack : ∀ thr, F.stack thr = []) :
    F.Valid root used now := by
  have hlt : ∀ x, ¬x < F.size := fun x hx => Nat.not_lt_zero x (hsize ▸ hx)
  have hmem : ∀ thr x, x ∉ F.stack thr := fun thr x hx => List.not_mem_nil (hstack thr ▸ hx)
  refine { id_used := fun x hx => absurd hx (hlt x), id_inj := fun x hx => absurd hx (hlt x),
           id_ne_root := fun x hx => absurd hx (hlt x),
           parent_eq := fun x hx => absurd hx (hlt x),
           entry_nonneg := fun x hx => absurd hx (hlt x),
           stack_lt := fun thr x hx => absurd hx (hmem thr x), stack_nodup := fun thr => ?_,
           chain := fun thr => ?_, nChildren_eq := fun x hx => absurd hx (hlt x),
           exclusive_eq := fun x hx => absurd hx (hlt x),
           open_zero := fun thr x hx => absurd hx (hmem thr x),
           done := fun x hx => absurd hx (hlt x), settled := fun thr => ?_ }
  · rw [hstack]
    exact List.nodup_nil
  · rw [hstack]
    trivial
  · rw [hstack]
    trivial

omit [DecidableEq τ] in
/-- More identifiers may be in use, and times may be later. -/
theorem Valid.mono {used' : κ → Prop} {now' : τ → ℤ} (h : F.Valid root used now)
    (hused : ∀ k, used k → used' k) (hnow : ∀ thr, now thr ≤ now' thr) :
    F.Valid root used' now' :=
  { h with
    id_used := fun x hx => hused _ (h.id_used x hx)
    settled := fun thr => (h.settled thr).mono (hnow thr) }

omit [DecidableEq τ] in
/-- No call has a negative runtime. -/
theorem Valid.runtime_nonneg (h : F.Valid root used now) {x : ℕ} (hx : x < F.size) :
    0 ≤ (F.node x).runtime := by
  by_cases hopen : x ∈ F.stack (F.node x).thread
  · exact (h.open_zero _ x hopen).1.ge
  · obtain ⟨hle, hrun, -⟩ := h.done x hx hopen
    omega

omit [DecidableEq τ] in
/-- The exclusive time of an ended call is between zero and its runtime. -/
theorem Valid.exclusive_bounds (h : F.Valid root used now) {x : ℕ} (hx : x < F.size)
    (hdone : x ∉ F.stack (F.node x).thread) :
    0 ≤ (F.node x).exclusive ∧ (F.node x).exclusive ≤ (F.node x).runtime := by
  have htime : 0 ≤ F.childTime x :=
    sum_nonneg fun z hz => h.runtime_nonneg (mem_children.mp hz).1
  obtain ⟨-, -, -, hle⟩ := h.done x hx hdone
  rw [h.exclusive_eq x hx]
  constructor <;> omega

omit [DecidableEq τ] in
/-- The parent that a new call gets is the call on top of the stack, if there is one. -/
theorem Valid.head_id_eq (h : F.Valid root used now) {xs : List ℕ} (hxs : ∀ y ∈ xs, y < F.size)
    {x : ℕ} (hx : x < F.size) :
    (xs.head?.map fun y => (F.node y).id).getD root = (F.node x).id ↔ xs.head? = some x := by
  cases xs with
  | nil => simpa using (h.id_ne_root x hx).symm
  | cons y rest =>
    have hy := hxs y List.mem_cons_self
    simp only [List.head?_cons, Option.map_some, Option.getD_some, Option.some.injEq]
    exact ⟨h.id_inj y hy x hx, fun heq => heq ▸ rfl⟩

section Push

variable (F root) (id : κ) (thr : τ) (t : ℤ)

omit [DecidableEq κ] in
/-- A call that is pushed has the top of the stack as its parent. -/
theorem push_node_size : (F.push root id thr t).node F.size =
    { id := id, parent := ((F.stack thr).head?.map fun top => (F.node top).id).getD root,
      thread := thr, entry := t, exit := 0, runtime := 0, exclusive := 0, nChildren := 0 } :=
  Function.update_self ..

omit [DecidableEq κ] in
/-- Starting a call changes the number of children of the top call and nothing else. -/
theorem push_node_of_lt {x : ℕ} (hx : x < F.size) : (F.push root id thr t).node x =
    { F.node x with nChildren := (F.node x).nChildren +
        if (F.stack thr).head? = some x then 1 else 0 } := by
  have hne : x ≠ F.size := hx.ne
  rw [push]
  cases F.stack thr with
  | nil =>
    simp only [Function.update_of_ne hne]
    rfl
  | cons top rest =>
    simp only [Function.update_of_ne hne, modify, List.head?_cons, Option.some.injEq]
    by_cases heq : top = x
    · subst heq
      rw [Function.update_self, if_pos rfl]
    · rw [Function.update_of_ne (Ne.symm heq), if_neg heq]
      rfl

end Push

/-- A new call is a child of the top call. -/
theorem Valid.push_children (h : F.Valid root used now) (id : κ) (thr : τ) (t : ℤ) {x : ℕ}
    (hx : x < F.size) : (F.push root id thr t).children x =
      if (F.stack thr).head? = some x then insert F.size (F.children x) else F.children x := by
  have hsize : (F.push root id thr t).size = F.size + 1 := rfl
  ext z
  rw [mem_children, hsize, push_node_of_lt F root id thr t hx]
  by_cases hz : z = F.size
  · subst hz
    have hnot : F.size ∉ F.children x := fun hmem => (mem_children.mp hmem).1.false
    rw [push_node_size, h.head_id_eq (fun y hy => (h.stack_lt thr y hy).1) hx]
    split
    · rename_i htop
      simp [htop]
    · rename_i htop
      simp [htop, hnot]
  · have hiff : z ∈ F.children x ↔ z < F.size + 1 ∧ ((F.push root id thr t).node z).parent =
        (F.node x).id := by
      rw [mem_children]
      constructor
      · rintro ⟨hlt, hparent⟩
        rw [push_node_of_lt F root id thr t hlt]
        exact ⟨by omega, hparent⟩
      · rintro ⟨hlt, hparent⟩
        have hlt' : z < F.size := by omega
        rw [push_node_of_lt F root id thr t hlt'] at hparent
        exact ⟨hlt', hparent⟩
    rw [← hiff]
    split
    · rw [mem_insert]
      exact ⟨Or.inr, fun hor => hor.resolve_left hz⟩
    · rfl

/-- A new call has no children. -/
theorem Valid.push_children_new (h : F.Valid root used now) {id : κ} (hfresh : ¬used id)
    (hroot : id ≠ root) (thr : τ) (t : ℤ) :
    (F.push root id thr t).children F.size = ∅ := by
  refine eq_empty_of_forall_notMem fun z hz => ?_
  obtain ⟨hlt, hparent⟩ := mem_children.mp hz
  rw [push_node_size] at hparent
  have hne : ∀ y < F.size, (F.node y).id ≠ id := fun y hy heq => hfresh (heq ▸ h.id_used y hy)
  by_cases hzs : z = F.size
  · rw [hzs, push_node_size] at hparent
    change ((F.stack thr).head?.map fun top => (F.node top).id).getD root = id at hparent
    cases hstack : F.stack thr with
    | nil =>
      rw [hstack] at hparent
      exact hroot hparent.symm
    | cons top rest =>
      rw [hstack] at hparent
      exact hne top (h.stack_lt thr top (hstack ▸ List.mem_cons_self)).1 hparent
  · have hlt' : z < F.size := by
      have : z < F.size + 1 := hlt
      omega
    rw [push_node_of_lt F root id thr t hlt'] at hparent
    change (F.node z).parent = id at hparent
    rcases h.parent_eq z hlt' with hp | ⟨y, hy, hp, -⟩
    · exact hroot (hparent.symm.trans hp)
    · exact hne y hy (hp.symm.trans hparent)

/-- A new call has taken no time yet. -/
theorem Valid.push_childTime (h : F.Valid root used now) (id : κ) (thr : τ) (t : ℤ) {x : ℕ}
    (hx : x < F.size) : (F.push root id thr t).childTime x = F.childTime x := by
  have hsum : ∑ z ∈ F.children x, ((F.push root id thr t).node z).runtime =
      F.childTime x := by
    refine sum_congr rfl fun z hz => ?_
    rw [push_node_of_lt F root id thr t (mem_children.mp hz).1]
  rw [childTime, h.push_children id thr t hx]
  split
  · have hnot : F.size ∉ F.children x := fun hmem => (mem_children.mp hmem).1.false
    rw [sum_insert hnot, push_node_size, hsum]
    exact zero_add _
  · exact hsum

/-- Starting a call keeps the invariant. -/
theorem Valid.push (h : F.Valid root used now) {id : κ} (hfresh : ¬used id) (hroot : id ≠ root)
    {thr : τ} {t : ℤ} (hnow : now thr ≤ t) (ht : 0 ≤ t) :
    (F.push root id thr t).Valid root (fun k => used k ∨ k = id) (Function.update now thr t) := by
  have hold : ∀ {x}, x < F.size → _ := fun {x} hx => push_node_of_lt F root id thr t hx
  have hnew := push_node_size F root id thr t
  have hcases : ∀ {x}, x < (F.push root id thr t).size → x < F.size ∨ x = F.size := fun {x} hx => by
    have : x < F.size + 1 := hx
    omega
  have hne : ∀ y < F.size, (F.node y).id ≠ id := fun y hy heq => hfresh (heq ▸ h.id_used y hy)
  have hstack : ∀ thr', ∀ x ∈ F.stack thr', x < F.size := fun thr' x hx => (h.stack_lt thr' x hx).1
  have hnotmem : ∀ thr', F.size ∉ F.stack thr' := fun thr' hmem => (hstack thr' _ hmem).false
  have hstack' : (F.push root id thr t).stack =
      Function.update F.stack thr (F.size :: F.stack thr) := rfl
  have hsettled : ∀ {time : ℤ} {xs : List ℕ}, 0 ≤ time → (∀ x ∈ xs, x < F.size) →
      F.Settled time xs → (F.push root id thr t).Settled time xs := by
    intro time xs htime hxs hold'
    refine hold'.congr htime (fun x hx => ⟨?_, h.entry_nonneg x (hxs x hx)⟩) (fun x hx z hz => ?_)
      fun x hx => h.push_childTime id thr t (hxs x hx)
    · rw [hold (hxs x hx)]
    · rcases hcases (mem_children.mp hz).1 with hlt | rfl
      · refine Or.inl ⟨mem_children.mpr ⟨hlt, ?_⟩, by rw [hold hlt]⟩
        have hparent := (mem_children.mp hz).2
        rwa [hold hlt, hold (hxs x hx)] at hparent
      · exact Or.inr (by rw [hnew])
  refine { id_used := ?_, id_inj := ?_, id_ne_root := ?_, parent_eq := ?_, entry_nonneg := ?_,
           stack_lt := ?_, stack_nodup := ?_, chain := ?_, nChildren_eq := ?_,
           exclusive_eq := ?_, open_zero := ?_, done := ?_, settled := ?_ }
  · intro x hx
    rcases hcases hx with hlt | rfl
    · rw [hold hlt]
      exact Or.inl (h.id_used x hlt)
    · rw [hnew]
      exact Or.inr rfl
  · intro x hx y hy heq
    rcases hcases hx with hx' | rfl <;> rcases hcases hy with hy' | rfl
    · rw [hold hx', hold hy'] at heq
      exact h.id_inj x hx' y hy' heq
    · rw [hold hx', hnew] at heq
      exact absurd heq (hne x hx')
    · rw [hold hy', hnew] at heq
      exact absurd heq.symm (hne y hy')
    · rfl
  · intro x hx
    rcases hcases hx with hlt | rfl
    · rw [hold hlt]
      exact h.id_ne_root x hlt
    · rw [hnew]
      exact hroot
  · intro x hx
    rcases hcases hx with hlt | rfl
    · rw [hold hlt]
      rcases h.parent_eq x hlt with hp | ⟨y, hy, hp, hle⟩
      · exact Or.inl hp
      · refine Or.inr ⟨y, Nat.lt_succ_of_lt hy, ?_⟩
        rw [hold hy]
        exact ⟨hp, hle⟩
    · rw [hnew]
      cases hs : F.stack thr with
      | nil => exact Or.inl rfl
      | cons top rest =>
        have htop : top < F.size := hstack thr top (hs ▸ List.mem_cons_self)
        refine Or.inr ⟨top, Nat.lt_succ_of_lt htop, ?_⟩
        rw [hold htop]
        have := h.settled thr
        rw [hs] at this
        exact ⟨rfl, this.1.trans hnow⟩
  · intro x hx
    rcases hcases hx with hlt | rfl
    · rw [hold hlt]
      exact h.entry_nonneg x hlt
    · rw [hnew]
      exact ht
  · intro thr' x hx
    rw [hstack'] at hx
    have hof : x ∈ F.stack thr' → x < (F.push root id thr t).size ∧
        ((F.push root id thr t).node x).thread = thr' := fun hmem => by
      rw [hold (hstack thr' x hmem)]
      exact ⟨Nat.lt_succ_of_lt (hstack thr' x hmem), (h.stack_lt thr' x hmem).2⟩
    by_cases hthr : thr' = thr
    · subst hthr
      rw [Function.update_self] at hx
      rcases List.mem_cons.mp hx with rfl | hmem
      · rw [hnew]
        exact ⟨Nat.lt_succ_self _, rfl⟩
      · exact hof hmem
    · rw [Function.update_of_ne hthr] at hx
      exact hof hx
  · intro thr'
    rw [hstack']
    by_cases hthr : thr' = thr
    · subst hthr
      rw [Function.update_self]
      exact List.nodup_cons.mpr ⟨hnotmem thr', h.stack_nodup thr'⟩
    · rw [Function.update_of_ne hthr]
      exact h.stack_nodup thr'
  · intro thr'
    have hof : (F.push root id thr t).Chain root (F.stack thr') :=
      (h.chain thr').congr (fun x hx => by rw [hold (hstack thr' x hx)])
        fun x hx => by rw [hold (hstack thr' x hx)]
    rw [hstack']
    by_cases hthr : thr' = thr
    · subst hthr
      rw [Function.update_self]
      refine ⟨?_, hof⟩
      rw [hnew]
      cases hs : F.stack thr' with
      | nil => rfl
      | cons top rest =>
        change (F.node top).id = ((F.push root id thr' t).node top).id
        rw [hold (hstack thr' top (hs ▸ List.mem_cons_self))]
    · rw [Function.update_of_ne hthr]
      exact hof
  · intro x hx
    rcases hcases hx with hlt | rfl
    · rw [h.push_children id thr t hlt, hold hlt]
      change (F.node x).nChildren + _ = _
      rw [h.nChildren_eq x hlt]
      split
      · rw [card_insert_of_notMem fun hmem => (mem_children.mp hmem).1.false]
      · rfl
    · rw [h.push_children_new hfresh hroot, hnew]
      rfl
  · intro x hx
    rcases hcases hx with hlt | rfl
    · rw [h.push_childTime id thr t hlt, hold hlt]
      exact h.exclusive_eq x hlt
    · rw [childTime, h.push_children_new hfresh hroot, hnew, sum_empty]
      rfl
  · intro thr' x hx
    rw [hstack'] at hx
    have hof : x ∈ F.stack thr' → ((F.push root id thr t).node x).runtime = 0 ∧
        ((F.push root id thr t).node x).exit = 0 := fun hmem => by
      rw [hold (hstack thr' x hmem)]
      exact h.open_zero thr' x hmem
    by_cases hthr : thr' = thr
    · subst hthr
      rw [Function.update_self] at hx
      rcases List.mem_cons.mp hx with rfl | hmem
      · rw [hnew]
        exact ⟨rfl, rfl⟩
      · exact hof hmem
    · rw [Function.update_of_ne hthr] at hx
      exact hof hx
  · intro x hx hdone
    rcases hcases hx with hlt | rfl
    · have hdone' : x ∉ F.stack (F.node x).thread := by
        intro hmem
        refine hdone ?_
        rw [hold hlt, hstack']
        change x ∈ Function.update F.stack thr (F.size :: F.stack thr) (F.node x).thread
        by_cases hthr : (F.node x).thread = thr
        · rw [hthr] at hmem ⊢
          rw [Function.update_self]
          exact List.mem_cons_of_mem _ hmem
        · rwa [Function.update_of_ne hthr]
      obtain ⟨h1, h2, h3, h4⟩ := h.done x hlt hdone'
      have hnottop : (F.stack thr).head? ≠ some x := by
        intro htop
        have hmem := List.mem_of_head? htop
        exact hdone' ((h.stack_lt thr x hmem).2.symm ▸ hmem)
      rw [h.push_childTime id thr t hlt, h.push_children id thr t hlt, if_neg hnottop, hold hlt]
      refine ⟨h1, h2, fun z hz => ?_, h4⟩
      rw [hold (mem_children.mp hz).1]
      exact h3 z hz
    · refine absurd ?_ hdone
      rw [hnew, hstack', Function.update_self]
      exact List.mem_cons_self
  · intro thr'
    rw [hstack']
    by_cases hthr : thr' = thr
    · subst hthr
      rw [Function.update_self, Function.update_self]
      refine ⟨by rw [hnew], fun z hz => ?_, ?_, ?_⟩
      · rw [h.push_children_new hfresh hroot] at hz
        exact absurd hz (notMem_empty z)
      · rw [childTime, h.push_children_new hfresh hroot, hnew, sum_empty]
        exact (sub_self t).ge
      · rw [hnew]
        exact hsettled ht (hstack thr') ((h.settled thr').mono hnow)
    · rw [Function.update_of_ne hthr, Function.update_of_ne hthr]
      cases hs : F.stack thr' with
      | nil => trivial
      | cons y rest =>
        have hold' := h.settled thr'
        rw [hs] at hold'
        have hpos : 0 ≤ now thr' :=
          (h.entry_nonneg y (hstack thr' y (hs ▸ List.mem_cons_self))).trans hold'.1
        exact hsettled hpos (hs ▸ hstack thr') hold'

section Pop

variable (F) (thr : τ) {x : ℕ} {rest : List ℕ} (t : ℤ)

omit [DecidableEq κ] in
/-- Ending a call sets its times and subtracts its runtime from the call below it. -/
theorem pop_node (hx : x ∉ rest) (z : ℕ) : (F.pop thr x rest t).node z =
    { F.node z with
      exit := if z = x then t else (F.node z).exit
      runtime := if z = x then t - (F.node x).entry else (F.node z).runtime
      exclusive := if z = x then (F.node z).exclusive + (t - (F.node x).entry)
        else if rest.head? = some z then (F.node z).exclusive - (t - (F.node x).entry)
        else (F.node z).exclusive } := by
  cases rest with
  | nil =>
    by_cases hz : z = x
    · subst hz
      simp [pop, close, modify]
    · simp [pop, close, modify, hz]
  | cons top rest =>
    have htop : top ≠ x := fun heq => hx (heq ▸ List.mem_cons_self)
    by_cases hz : z = x
    · subst hz
      simp [pop, close, modify, Function.update_of_ne htop.symm]
    · by_cases hzt : z = top
      · subst hzt
        simp [pop, close, modify, hz]
      · simp [pop, close, modify, hz, hzt, Ne.symm hzt]

/-- Ending a call changes no parents. -/
theorem pop_children (hx : x ∉ rest) (z : ℕ) :
    (F.pop thr x rest t).children z = F.children z := by
  have hsize : (F.pop thr x rest t).size = F.size := by cases rest <;> rfl
  ext y
  rw [mem_children, mem_children, hsize, pop_node F thr t hx, pop_node F thr t hx]

end Pop

omit [DecidableEq τ] in
/-- The innermost open call is a child of the call below it and of no other. -/
theorem Valid.mem_children_iff (h : F.Valid root used now) {thr : τ} {x : ℕ} {rest : List ℕ}
    (hstack : F.stack thr = x :: rest) {z : ℕ} (hz : z < F.size) :
    x ∈ F.children z ↔ rest.head? = some z := by
  have hlt : ∀ y ∈ x :: rest, y < F.size := fun y hy => (h.stack_lt thr y (hstack ▸ hy)).1
  have hparent := h.chain thr
  rw [hstack] at hparent
  rw [mem_children, hparent.1, h.head_id_eq (fun y hy => hlt y (List.mem_cons_of_mem _ hy)) hz]
  exact ⟨fun hand => hand.2, fun heq => ⟨hlt x List.mem_cons_self, heq⟩⟩

/-- The runtime of an ended call counts for the call below it. -/
theorem Valid.pop_childTime (h : F.Valid root used now) {thr : τ} {x : ℕ} {rest : List ℕ}
    (hstack : F.stack thr = x :: rest) (t : ℤ) {z : ℕ} (hz : z < F.size) :
    (F.pop thr x rest t).childTime z = F.childTime z +
      if rest.head? = some z then t - (F.node x).entry else 0 := by
  have hx : x ∉ rest := (List.nodup_cons.mp (hstack ▸ h.stack_nodup thr)).1
  have hzero : (F.node x).runtime = 0 := (h.open_zero thr x (hstack ▸ List.mem_cons_self)).1
  have hpoint : ∀ y, ((F.pop thr x rest t).node y).runtime =
      (F.node y).runtime + if y = x then t - (F.node x).entry else 0 := by
    intro y
    rw [pop_node F thr t hx]
    by_cases hy : y = x
    · subst hy
      simp [hzero]
    · simp [hy]
  rw [childTime, pop_children F thr t hx, sum_congr rfl fun y _ => hpoint y, sum_add_distrib,
    sum_ite_eq' (F.children z) x, childTime]
  simp only [h.mem_children_iff hstack hz]

/-- Ending the innermost call of a thread keeps the invariant. -/
theorem Valid.pop (h : F.Valid root used now) {thr : τ} {x : ℕ} {rest : List ℕ} {t : ℤ}
    (hstack : F.stack thr = x :: rest) (hentry : (F.node x).entry ≤ t) (hnow : now thr ≤ t) :
    (F.pop thr x rest t).Valid root used (Function.update now thr t) := by
  have hx : x ∉ rest := (List.nodup_cons.mp (hstack ▸ h.stack_nodup thr)).1
  have hnode := fun z => pop_node F thr t hx z
  have hchildren := fun z => pop_children F thr t hx z
  have hsize : (F.pop thr x rest t).size = F.size := by cases rest <;> rfl
  have hstack' : (F.pop thr x rest t).stack = Function.update F.stack thr rest := by
    cases rest <;> rfl
  have hxlt : x < F.size := (h.stack_lt thr x (hstack ▸ List.mem_cons_self)).1
  have hxthr : (F.node x).thread = thr := (h.stack_lt thr x (hstack ▸ List.mem_cons_self)).2
  have hmem : ∀ {thr' z}, z ∈ (F.pop thr x rest t).stack thr' → z ∈ F.stack thr' ∧ z ≠ x := by
    intro thr' z hz
    rw [hstack'] at hz
    by_cases hthr : thr' = thr
    · subst hthr
      rw [Function.update_self] at hz
      exact ⟨hstack ▸ List.mem_cons_of_mem _ hz, fun heq => hx (heq ▸ hz)⟩
    · rw [Function.update_of_ne hthr] at hz
      exact ⟨hz, fun heq => hthr ((h.stack_lt thr' z hz).2.symm.trans (heq ▸ hxthr))⟩
  -- below the ended call, its runtime counts for the first open call
  have hhead := h.settled thr
  rw [hstack] at hhead
  obtain ⟨-, hexits, htime, hbelow⟩ := hhead
  refine { id_used := ?_, id_inj := ?_, id_ne_root := ?_, parent_eq := ?_, entry_nonneg := ?_,
           stack_lt := ?_, stack_nodup := ?_, chain := ?_, nChildren_eq := ?_,
           exclusive_eq := ?_, open_zero := ?_, done := ?_, settled := ?_ }
  · intro z hz
    rw [hnode]
    exact h.id_used z (hsize ▸ hz)
  · intro y hy z hz heq
    rw [hnode, hnode] at heq
    exact h.id_inj y (hsize ▸ hy) z (hsize ▸ hz) heq
  · intro z hz
    rw [hnode]
    exact h.id_ne_root z (hsize ▸ hz)
  · intro z hz
    rw [hnode]
    rcases h.parent_eq z (hsize ▸ hz) with hp | ⟨y, hy, hp, hle⟩
    · exact Or.inl hp
    · refine Or.inr ⟨y, hsize ▸ hy, ?_⟩
      rw [hnode]
      exact ⟨hp, hle⟩
  · intro z hz
    rw [hnode]
    exact h.entry_nonneg z (hsize ▸ hz)
  · intro thr' z hz
    rw [hsize, hnode]
    exact h.stack_lt thr' z (hmem hz).1
  · intro thr'
    rw [hstack']
    by_cases hthr : thr' = thr
    · subst hthr
      rw [Function.update_self]
      exact (List.nodup_cons.mp (hstack ▸ h.stack_nodup thr')).2
    · rw [Function.update_of_ne hthr]
      exact h.stack_nodup thr'
  · intro thr'
    have hchain : F.Chain root ((F.pop thr x rest t).stack thr') := by
      rw [hstack']
      by_cases hthr : thr' = thr
      · subst hthr
        rw [Function.update_self]
        have := h.chain thr'
        rw [hstack] at this
        exact this.2
      · rw [Function.update_of_ne hthr]
        exact h.chain thr'
    exact hchain.congr (fun z _ => by rw [hnode]) fun z _ => by rw [hnode]
  · intro z hz
    rw [hchildren, hnode]
    exact h.nChildren_eq z (hsize ▸ hz)
  · intro z hz
    rw [h.pop_childTime hstack t (hsize ▸ hz), hnode]
    have hold := h.exclusive_eq z (hsize ▸ hz)
    by_cases hzx : z = x
    · subst hzx
      have hnot : rest.head? ≠ some z := fun heq => hx (List.mem_of_head? heq)
      have hzero := (h.open_zero thr z (hstack ▸ List.mem_cons_self)).1
      simp only [if_true, if_neg hnot]
      omega
    · simp only [if_neg hzx]
      split <;> omega
  · intro thr' z hz
    rw [hnode]
    simp only [if_neg (hmem hz).2]
    exact h.open_zero thr' z (hmem hz).1
  · intro z hz hdone
    rw [hsize] at hz
    rw [h.pop_childTime hstack t hz, hchildren]
    have hexit : ∀ y ∈ F.children z, ((F.pop thr x rest t).node y).exit =
        if y = x then t else (F.node y).exit := fun y _ => by rw [hnode]
    by_cases hzx : z = x
    · subst hzx
      have hnot : rest.head? ≠ some z := fun heq => hx (List.mem_of_head? heq)
      rw [hnode]
      simp only [if_true, if_neg hnot]
      refine ⟨hentry, trivial, fun y hy => ?_, ?_⟩
      · rw [hexit y hy]
        split
        · exact le_rfl
        · exact (hexits y hy).trans hnow
      · omega
    · have hdone' : z ∉ F.stack (F.node z).thread := by
        intro hmem'
        refine hdone ?_
        rw [hnode, hstack']
        change z ∈ Function.update F.stack thr rest (F.node z).thread
        by_cases hthr : (F.node z).thread = thr
        · rw [hthr, hstack] at hmem'
          rw [hthr, Function.update_self]
          exact (List.mem_cons.mp hmem').resolve_left hzx
        · rwa [Function.update_of_ne hthr]
      have hnot : rest.head? ≠ some z := by
        intro heq
        have hmem' : z ∈ F.stack thr := hstack ▸ List.mem_cons_of_mem _ (List.mem_of_head? heq)
        exact hdone' ((h.stack_lt thr z hmem').2.symm ▸ hmem')
      have hnotChild : x ∉ F.children z := fun hc => hnot ((h.mem_children_iff hstack hz).mp hc)
      obtain ⟨h1, h2, h3, h4⟩ := h.done z hz hdone'
      rw [hnode]
      simp only [if_neg hzx, if_neg hnot]
      refine ⟨h1, h2, fun y hy => ?_, by omega⟩
      rw [hexit y hy, if_neg (fun heq : y = x => hnotChild (heq ▸ hy))]
      exact h3 y hy
  · -- calls that the ended call is no child of
    have hcongr : ∀ {time : ℤ} {xs : List ℕ}, 0 ≤ time →
        (∀ y ∈ xs, y < F.size ∧ rest.head? ≠ some y) → F.Settled time xs →
        (F.pop thr x rest t).Settled time xs := by
      intro time xs htime' hxs hold
      refine hold.congr htime' (fun y hy => ?_) (fun y hy z hz => Or.inl ?_) fun y hy => ?_
      · rw [hnode]
        exact ⟨rfl, h.entry_nonneg y (hxs y hy).1⟩
      · rw [hchildren] at hz
        have hne : z ≠ x := fun heq =>
          (hxs y hy).2 ((h.mem_children_iff hstack (hxs y hy).1).mp (heq ▸ hz))
        rw [hnode]
        exact ⟨hz, if_neg hne⟩
      · rw [h.pop_childTime hstack t (hxs y hy).1, if_neg (hxs y hy).2, add_zero]
    intro thr'
    rw [hstack']
    by_cases hthr : thr' = thr
    · subst hthr
      rw [Function.update_self, Function.update_self]
      cases hrest : rest with
      | nil => trivial
      | cons top below =>
        subst hrest
        have hlt : ∀ y ∈ top :: below, y < F.size := fun y hy =>
          (h.stack_lt thr' y (hstack ▸ List.mem_cons_of_mem _ hy)).1
        obtain ⟨h1, h2, h3, h4⟩ := hbelow
        have htop := hlt top List.mem_cons_self
        have hnotTop : top ∉ below :=
          (List.nodup_cons.mp (List.nodup_cons.mp (hstack ▸ h.stack_nodup thr')).2).1
        refine ⟨?_, fun z hz => ?_, ?_, ?_⟩
        · rw [hnode]
          exact h1.trans hentry
        · rw [hchildren] at hz
          rw [hnode]
          change (if z = x then t else (F.node z).exit) ≤ t
          split
          · exact le_rfl
          · exact (h2 z hz).trans hentry
        · rw [h.pop_childTime hstack t htop, hnode, List.head?_cons, if_pos rfl]
          change F.childTime top + (t - (F.node x).entry) ≤ t - (F.node top).entry
          omega
        · rw [hnode]
          refine hcongr (h.entry_nonneg top htop) (fun y hy => ⟨hlt y (List.mem_cons_of_mem _ hy),
            fun heq => ?_⟩) h4
          rw [List.head?_cons, Option.some.injEq] at heq
          exact hnotTop (heq ▸ hy)
    · rw [Function.update_of_ne hthr, Function.update_of_ne hthr]
      cases hs : F.stack thr' with
      | nil => trivial
      | cons y ys =>
        have hold := h.settled thr'
        rw [hs] at hold
        have hlt : ∀ z ∈ y :: ys, z < F.size := fun z hz => (h.stack_lt thr' z (hs ▸ hz)).1
        refine hcongr ((h.entry_nonneg y (hlt y List.mem_cons_self)).trans hold.1)
          (fun z hz => ⟨hlt z hz, fun heq => hthr ?_⟩) hold
        have hz' : z ∈ F.stack thr := hstack ▸ List.mem_cons_of_mem _ (List.mem_of_head? heq)
        exact (h.stack_lt thr' z (hs ▸ hz)).2.symm.trans (h.stack_lt thr z hz').2

end Spec

end CallForest
