import Chimbuko.Library.TransitionSystem
import Mathlib.Data.Finset.Insert
import Mathlib.Data.Finset.Erase
import Mathlib.Data.Finset.Range
import Mathlib.Logic.Function.Basic

/-!
# Parties that say hello and goodbye

Parties enter and leave sessions and send a notice each time. A registry lists the parties whose
latest received notice was a hello. Notices may be under way for any time.

If no goodbye is overtaken by the hello of a later session, a party in a session is registered from
the receipt of its hello on. Two conditions imply this: that the notices of a party arrive in the
order in which they were sent, and that no party enters twice. If the notices arrive in order, then
the registry is right about every party of which no notice is under way.
-/

namespace Presence

open TransitionSystem

variable {ι : Type*}

/-- The notice that a party sends when a session opens or closes. -/
structure Notice (ι : Type*) where
  party : ι
  session : ℕ
  opens : Bool
deriving DecidableEq

/-- The position of a notice among those of its party. -/
def Notice.rank (n : Notice ι) : ℕ := 2 * n.session + if n.opens then 0 else 1

/-- Who is present and registered, and the notices under way. -/
@[ext]
structure Ledger (ι : Type*) where
  /-- The number of sessions that each party has entered. -/
  sessions : ι → ℕ
  /-- The parties that are in a session. -/
  present : ι → Bool
  underWay : Finset (Notice ι)
  registered : ι → Bool

/-- What parties do: they come, go, or a notice of theirs is received. -/
inductive Act (ι : Type*)
  | enter (i : ι)
  | leave (i : ι)
  | receive (n : Notice ι)

namespace Ledger

variable [DecidableEq ι]

/-- Nobody has come yet. -/
def empty : Ledger ι :=
  { sessions := fun _ => 0, present := fun _ => false, underWay := ∅, registered := fun _ => false }

/-- A party enters a session, perhaps without having left the one before. -/
def enter (l : Ledger ι) (i : ι) : Ledger ι :=
  { l with
    sessions := Function.update l.sessions i (l.sessions i + 1)
    present := Function.update l.present i true
    underWay := insert ⟨i, l.sessions i + 1, true⟩ l.underWay }

/-- A party goes, and a notice of it is under way. -/
def leave (l : Ledger ι) (i : ι) : Ledger ι :=
  { l with
    present := Function.update l.present i false
    underWay := insert ⟨i, l.sessions i, false⟩ l.underWay }

/-- The registry receives a notice. -/
def receive (l : Ledger ι) (n : Notice ι) : Ledger ι :=
  { l with
    underWay := l.underWay.erase n
    registered := Function.update l.registered n.party n.opens }

/-- The steps of a ledger. -/
inductive Step : Ledger ι → Act ι → Ledger ι → Prop
  | enter (l : Ledger ι) (i : ι) : Step l (.enter i) (l.enter i)
  | leave (l : Ledger ι) (i : ι) : l.present i = true → Step l (.leave i) (l.leave i)
  | receive (l : Ledger ι) (n : Notice ι) : n ∈ l.underWay → Step l (.receive n) (l.receive n)

/-- The hello of a party's latest session is under way. -/
def HelloUnderWay (l : Ledger ι) (i : ι) : Prop := ⟨i, l.sessions i, true⟩ ∈ l.underWay

instance (l : Ledger ι) (i : ι) : Decidable (l.HelloUnderWay i) :=
  inferInstanceAs (Decidable (_ ∈ _))

/-- The hellos of all later sessions of a goodbye's party are under way when it is received. -/
def NotOvertaken (l : Ledger ι) : Act ι → Prop
  | .receive n => n.opens = false →
      ∀ m ∈ Finset.range (l.sessions n.party + 1), n.session < m →
        (⟨n.party, m, true⟩ : Notice ι) ∈ l.underWay
  | _ => True

instance (l : Ledger ι) : ∀ a, Decidable (l.NotOvertaken a)
  | .enter _ => isTrue trivial
  | .leave _ => isTrue trivial
  | .receive n =>
    inferInstanceAs (Decidable (n.opens = false →
      ∀ m ∈ Finset.range (l.sessions n.party + 1), n.session < m →
        (⟨n.party, m, true⟩ : Notice ι) ∈ l.underWay))

/-- No earlier notice of the same party is under way when a notice is received. -/
def InOrder (l : Ledger ι) : Act ι → Prop
  | .receive n => ∀ n' ∈ l.underWay, n'.party = n.party → n.rank ≤ n'.rank
  | _ => True

instance (l : Ledger ι) : ∀ a, Decidable (l.InOrder a)
  | .enter _ => isTrue trivial
  | .leave _ => isTrue trivial
  | .receive n =>
    inferInstanceAs (Decidable (∀ n' ∈ l.underWay, n'.party = n.party → n.rank ≤ n'.rank))

/-- A party enters only if it never did before. -/
def Once (l : Ledger ι) : Act ι → Prop
  | .enter i => l.sessions i = 0
  | _ => True

/-- The notice that a party has sent last, if it has sent any. -/
def latest (l : Ledger ι) (i : ι) : Notice ι := ⟨i, l.sessions i, l.present i⟩

omit [DecidableEq ι] in
/-- A party's notices are told apart by their ranks. -/
theorem eq_of_rank_eq {n n' : Notice ι} (hparty : n.party = n'.party) (hrank : n.rank = n'.rank) :
    n = n' := by
  obtain ⟨i, k, o⟩ := n
  obtain ⟨i', k', o'⟩ := n'
  simp only [Notice.rank] at hparty hrank
  subst hparty
  cases o <;> cases o' <;> simp at hrank ⊢ <;> omega

section Safety

variable {l l' : Ledger ι} {a : Act ι}

/-- The numbers of the notices under way, and that whoever is in a session is registered or will
be. -/
structure Valid (l : Ledger ι) : Prop where
  session_le : ∀ n ∈ l.underWay, n.session ≤ l.sessions n.party
  absent : ∀ n ∈ l.underWay, n.opens = false → n.session = l.sessions n.party →
    l.present n.party = false
  registered : ∀ i, l.present i = true → l.HelloUnderWay i ∨ l.registered i = true

omit [DecidableEq ι] in
/-- An empty ledger is valid. -/
theorem valid_empty : (empty : Ledger ι).Valid where
  session_le _ hn := absurd hn (Finset.notMem_empty _)
  absent _ hn := absurd hn (Finset.notMem_empty _)
  registered _ h := by cases h

/-- Coming keeps a ledger valid. -/
theorem Valid.enter (h : l.Valid) (i : ι) : (l.enter i).Valid where
  session_le n hn := by
    change n.session ≤ Function.update l.sessions i (l.sessions i + 1) n.party
    rcases Finset.mem_insert.mp hn with rfl | hold
    · rw [Function.update_self]
    · have hle := h.session_le n hold
      by_cases hi : n.party = i
      · rw [hi, Function.update_self, ← hi]
        omega
      · rw [Function.update_of_ne hi]
        exact hle
  absent n hn hcloses hsession := by
    change n.session = Function.update l.sessions i (l.sessions i + 1) n.party at hsession
    change Function.update l.present i true n.party = false
    rcases Finset.mem_insert.mp hn with rfl | hold
    · cases hcloses
    · by_cases hi : n.party = i
      · have hle := h.session_le n hold
        rw [hi, Function.update_self] at hsession
        rw [hi] at hle
        omega
      · rw [Function.update_of_ne hi] at hsession ⊢
        exact h.absent n hold hcloses hsession
  registered j hj := by
    change Function.update l.present i true j = true at hj
    change (⟨j, Function.update l.sessions i (l.sessions i + 1) j, true⟩ : Notice ι) ∈
      insert ⟨i, l.sessions i + 1, true⟩ l.underWay ∨ l.registered j = true
    by_cases hi : j = i
    · rw [hi, Function.update_self]
      exact Or.inl (Finset.mem_insert_self _ _)
    · rw [Function.update_of_ne hi] at hj ⊢
      exact (h.registered j hj).imp_left Finset.mem_insert_of_mem

/-- Going keeps a ledger valid. -/
theorem Valid.leave (h : l.Valid) (i : ι) : (l.leave i).Valid where
  session_le n hn := by
    rcases Finset.mem_insert.mp hn with rfl | hold
    · exact le_rfl
    · exact h.session_le n hold
  absent n hn hcloses hsession := by
    change Function.update l.present i false n.party = false
    by_cases hi : n.party = i
    · rw [hi, Function.update_self]
    · rw [Function.update_of_ne hi]
      rcases Finset.mem_insert.mp hn with rfl | hold
      · exact absurd rfl hi
      · exact h.absent n hold hcloses hsession
  registered j hj := by
    change Function.update l.present i false j = true at hj
    by_cases hi : j = i
    · rw [hi, Function.update_self] at hj
      cases hj
    · rw [Function.update_of_ne hi] at hj
      exact (h.registered j hj).imp_left Finset.mem_insert_of_mem

/-- A notice that is not overtaken keeps a ledger valid. -/
theorem Valid.receive (h : l.Valid) {n : Notice ι} (hn : n ∈ l.underWay)
    (hguard : l.NotOvertaken (.receive n)) : (l.receive n).Valid where
  session_le n' hn' := h.session_le n' (Finset.mem_of_mem_erase hn')
  absent n' hn' := h.absent n' (Finset.mem_of_mem_erase hn')
  registered j hj := by
    have hpresent : l.present j = true := hj
    change (⟨j, l.sessions j, true⟩ : Notice ι) ∈ l.underWay.erase n ∨
      Function.update l.registered n.party n.opens j = true
    by_cases hparty : j = n.party
    · rw [hparty, Function.update_self]
      cases hopens : n.opens with
      | true => exact Or.inr rfl
      | false =>
        refine Or.inl (Finset.mem_erase.mpr ⟨fun heq => ?_, ?_⟩)
        · rw [← heq] at hopens
          cases hopens
        · -- a party in a session has sent no goodbye of it, so a later hello is under way
          have hle := h.session_le n hn
          have hlt : n.session < l.sessions n.party := by
            refine lt_of_le_of_ne hle fun heq => ?_
            rw [hparty, h.absent n hn hopens heq] at hpresent
            cases hpresent
          exact hguard hopens _ (Finset.self_mem_range_succ _) hlt
    · rw [Function.update_of_ne hparty]
      refine (h.registered j hpresent).imp_left fun hhello => ?_
      refine Finset.mem_erase.mpr ⟨fun heq => hparty ?_, hhello⟩
      rw [← heq]

/-- Every step keeps a ledger valid, if no notice is overtaken. -/
theorem Valid.step (h : l.Valid) (hguard : l.NotOvertaken a) (hstep : Step l a l') : l'.Valid := by
  cases hstep with
  | enter i => exact h.enter i
  | leave i => exact h.leave i
  | receive n hn => exact h.receive hn hguard

end Safety

section Order

variable {l l' : Ledger ι} {a : Act ι}

/-- The notices of a party that are under way are the last ones that it has sent. -/
structure Ordered (l : Ledger ι) : Prop where
  session_pos : ∀ n ∈ l.underWay, 0 < n.session
  rank_le : ∀ n ∈ l.underWay, n.rank ≤ (l.latest n.party).rank
  later : ∀ n ∈ l.underWay, n.opens = false → ∀ m, n.session < m → m ≤ l.sessions n.party →
    (⟨n.party, m, true⟩ : Notice ι) ∈ l.underWay
  never : ∀ i, l.sessions i = 0 → l.present i = false ∧ l.registered i = false
  settled : ∀ i, 0 < l.sessions i → l.latest i ∈ l.underWay ∨
    l.registered i = l.present i ∧ ∀ n ∈ l.underWay, n.party ≠ i

omit [DecidableEq ι] in
/-- An empty ledger is ordered. -/
theorem ordered_empty : (empty : Ledger ι).Ordered where
  session_pos _ hn := absurd hn (Finset.notMem_empty _)
  rank_le _ hn := absurd hn (Finset.notMem_empty _)
  later _ hn := absurd hn (Finset.notMem_empty _)
  never _ _ := ⟨rfl, rfl⟩
  settled _ h := absurd h (lt_irrefl _)

/-- The latest notice of a party that enters. -/
theorem latest_enter (l : Ledger ι) (i j : ι) :
    (l.enter i).latest j = if j = i then ⟨i, l.sessions i + 1, true⟩ else l.latest j := by
  unfold latest enter
  by_cases h : j = i
  · simp [h]
  · simp [h]

/-- The latest notice of a party that leaves. -/
theorem latest_leave (l : Ledger ι) (i j : ι) :
    (l.leave i).latest j = if j = i then ⟨i, l.sessions i, false⟩ else l.latest j := by
  unfold latest leave
  by_cases h : j = i
  · simp [h]
  · simp [h]

omit [DecidableEq ι] in
/-- The latest notice of a party is that of its last coming or going. -/
theorem rank_le_latest (l : Ledger ι) (i : ι) : (l.latest i).rank ≤ 2 * l.sessions i + 1 := by
  unfold latest Notice.rank
  dsimp only
  split <;> omega

/-- Coming keeps a ledger ordered. -/
theorem Ordered.enter (h : l.Ordered) (i : ι) : (l.enter i).Ordered where
  session_pos n hn := by
    rcases Finset.mem_insert.mp hn with rfl | hold
    · exact Nat.succ_pos _
    · exact h.session_pos n hold
  rank_le n hn := by
    rw [latest_enter]
    rcases Finset.mem_insert.mp hn with rfl | hold
    · rw [if_pos rfl]
    · by_cases hi : n.party = i
      · have hrank := h.rank_le n hold
        have hle := l.rank_le_latest n.party
        rw [hi] at hrank hle
        rw [if_pos hi]
        simp only [Notice.rank, if_true] at hrank hle ⊢
        omega
      · rw [if_neg hi]
        exact h.rank_le n hold
  later n hn hcloses m hlt hle := by
    change m ≤ Function.update l.sessions i (l.sessions i + 1) n.party at hle
    rcases Finset.mem_insert.mp hn with rfl | hold
    · cases hcloses
    · by_cases hi : n.party = i
      · rw [hi, Function.update_self] at hle
        rcases Nat.lt_or_ge (l.sessions i) m with hnew | hbefore
        · have hm : m = l.sessions i + 1 := by omega
          rw [hi, hm]
          exact Finset.mem_insert_self _ _
        · exact Finset.mem_insert_of_mem (h.later n hold hcloses m hlt (hi ▸ hbefore))
      · rw [Function.update_of_ne hi] at hle
        exact Finset.mem_insert_of_mem (h.later n hold hcloses m hlt hle)
  never j hj := by
    change Function.update l.sessions i (l.sessions i + 1) j = 0 at hj
    change Function.update l.present i true j = false ∧ l.registered j = false
    by_cases hi : j = i
    · rw [hi, Function.update_self] at hj
      omega
    · rw [Function.update_of_ne hi] at hj ⊢
      exact h.never j hj
  settled j hj := by
    rw [latest_enter]
    by_cases hi : j = i
    · rw [if_pos hi]
      exact Or.inl (Finset.mem_insert_self _ _)
    · change 0 < Function.update l.sessions i (l.sessions i + 1) j at hj
      change _ ∈ insert _ l.underWay ∨ l.registered j = Function.update l.present i true j ∧
        ∀ n ∈ insert (⟨i, l.sessions i + 1, true⟩ : Notice ι) l.underWay, n.party ≠ j
      rw [Function.update_of_ne hi] at hj
      rw [if_neg hi, Function.update_of_ne hi]
      refine (h.settled j hj).imp Finset.mem_insert_of_mem fun hsettled => ⟨hsettled.1, ?_⟩
      intro n hn
      rcases Finset.mem_insert.mp hn with rfl | hold
      · exact Ne.symm hi
      · exact hsettled.2 n hold

/-- Going keeps a ledger ordered. -/
theorem Ordered.leave (h : l.Ordered) {i : ι} (hpresent : l.present i = true) :
    (l.leave i).Ordered where
  session_pos n hn := by
    rcases Finset.mem_insert.mp hn with rfl | hold
    · refine Nat.pos_of_ne_zero fun hzero => ?_
      rw [(h.never i hzero).1] at hpresent
      cases hpresent
    · exact h.session_pos n hold
  rank_le n hn := by
    rw [latest_leave]
    rcases Finset.mem_insert.mp hn with rfl | hold
    · rw [if_pos rfl]
    · by_cases hi : n.party = i
      · have hrank := h.rank_le n hold
        rw [hi] at hrank
        rw [if_pos hi]
        simp only [latest, Notice.rank, hpresent, if_true, Bool.false_eq_true, if_false]
          at hrank ⊢
        omega
      · rw [if_neg hi]
        exact h.rank_le n hold
  later n hn hcloses m hlt hle := by
    change m ≤ l.sessions n.party at hle
    rcases Finset.mem_insert.mp hn with rfl | hold
    · change l.sessions i < m at hlt
      change m ≤ l.sessions i at hle
      omega
    · exact Finset.mem_insert_of_mem (h.later n hold hcloses m hlt hle)
  never j hj := by
    change Function.update l.present i false j = false ∧ l.registered j = false
    obtain ⟨hpresent', hregistered⟩ := h.never j hj
    refine ⟨?_, hregistered⟩
    by_cases hi : j = i
    · rw [hi, Function.update_self]
    · rw [Function.update_of_ne hi]
      exact hpresent'
  settled j hj := by
    rw [latest_leave]
    by_cases hi : j = i
    · rw [if_pos hi]
      exact Or.inl (Finset.mem_insert_self _ _)
    · change _ ∈ insert _ l.underWay ∨ l.registered j = Function.update l.present i false j ∧
        ∀ n ∈ insert (⟨i, l.sessions i, false⟩ : Notice ι) l.underWay, n.party ≠ j
      rw [if_neg hi, Function.update_of_ne hi]
      refine (h.settled j hj).imp Finset.mem_insert_of_mem fun hsettled => ⟨hsettled.1, ?_⟩
      intro n hn
      rcases Finset.mem_insert.mp hn with rfl | hold
      · exact Ne.symm hi
      · exact hsettled.2 n hold

/-- A notice that is received in order keeps a ledger ordered. -/
theorem Ordered.receive (h : l.Ordered) {n : Notice ι} (hn : n ∈ l.underWay)
    (horder : l.InOrder (.receive n)) : (l.receive n).Ordered where
  session_pos n' hn' := h.session_pos n' (Finset.mem_of_mem_erase hn')
  rank_le n' hn' := h.rank_le n' (Finset.mem_of_mem_erase hn')
  later n' hn' hcloses m hlt hle := by
    have hmem := Finset.mem_of_mem_erase hn'
    refine Finset.mem_erase.mpr ⟨fun heq => ?_, h.later n' hmem hcloses m hlt hle⟩
    -- the goodbye was sent before the hello, so it is not received after it
    have hrank := horder n' hmem (by rw [← heq])
    rw [← heq] at hrank
    simp only [Notice.rank, hcloses, if_true, Bool.false_eq_true, if_false] at hrank
    omega
  never j hj := by
    change l.present j = false ∧ Function.update l.registered n.party n.opens j = false
    change l.sessions j = 0 at hj
    obtain ⟨hpresent, hregistered⟩ := h.never j hj
    refine ⟨hpresent, ?_⟩
    by_cases hparty : j = n.party
    · have hpos := h.session_pos n hn
      have hrank := h.rank_le n hn
      have hle := l.rank_le_latest n.party
      rw [← hparty] at hrank hle
      rw [hj] at hle
      have hge : 2 * n.session ≤ n.rank := Nat.le_add_right _ _
      omega
    · rw [Function.update_of_ne hparty]
      exact hregistered
  settled j hj := by
    change l.latest j ∈ l.underWay.erase n ∨
      Function.update l.registered n.party n.opens j = l.present j ∧
        ∀ n' ∈ l.underWay.erase n, n'.party ≠ j
    rcases h.settled j hj with hlatest | ⟨hregistered, hnone⟩
    · by_cases heq : n = l.latest j
      · have hparty : n.party = j := congrArg Notice.party heq
        have hopens : n.opens = l.present j := congrArg Notice.opens heq
        right
        rw [hparty, Function.update_self]
        refine ⟨hopens, fun n' hn' hj' => ?_⟩
        obtain ⟨hne, hmem⟩ := Finset.mem_erase.mp hn'
        have hrank := h.rank_le n' hmem
        rw [hj', ← heq] at hrank
        exact hne (eq_of_rank_eq (hj'.trans hparty.symm)
          (le_antisymm hrank (horder n' hmem (hj'.trans hparty.symm))))
      · exact Or.inl (Finset.mem_erase.mpr ⟨Ne.symm heq, hlatest⟩)
    · have hparty : j ≠ n.party := fun heq => hnone n hn heq.symm
      right
      rw [Function.update_of_ne hparty]
      exact ⟨hregistered, fun n' hn' => hnone n' (Finset.mem_of_mem_erase hn')⟩

/-- Every step in order keeps a ledger ordered. -/
theorem Ordered.step (h : l.Ordered) (hguard : l.InOrder a) (hstep : Step l a l') :
    l'.Ordered := by
  cases hstep with
  | enter i => exact h.enter i
  | leave i hpresent => exact h.leave hpresent
  | receive n hn => exact h.receive hn hguard

/-- A goodbye that is received in order is not overtaken. -/
theorem Ordered.notOvertaken (h : l.Ordered) (hstep : Step l a l') : l.NotOvertaken a := by
  cases hstep with
  | enter i => exact trivial
  | leave i _ => exact trivial
  | receive n hn =>
    intro hcloses m hm hlt
    exact h.later n hn hcloses m hlt (Finset.mem_range_succ_iff.mp hm)

omit [DecidableEq ι] in
/-- The registry is right about a party of which no notice is under way. -/
theorem Ordered.registered_eq (h : l.Ordered) {i : ι} (hnone : ∀ n ∈ l.underWay, n.party ≠ i) :
    l.registered i = l.present i := by
  rcases Nat.eq_zero_or_pos (l.sessions i) with hzero | hpos
  · obtain ⟨hpresent, hregistered⟩ := h.never i hzero
    rw [hpresent, hregistered]
  · rcases h.settled i hpos with hlatest | ⟨heq, -⟩
    · exact absurd rfl (hnone _ hlatest)
    · exact heq

end Order

section Once

variable {l l' : Ledger ι} {a : Act ι}

/-- No party has entered twice. -/
structure Single (l : Ledger ι) : Prop where
  sessions_le : ∀ i, l.sessions i ≤ 1
  never : ∀ i, l.sessions i = 0 → l.present i = false
  session_pos : ∀ n ∈ l.underWay, 0 < n.session

omit [DecidableEq ι] in
/-- In an empty ledger nobody has come twice. -/
theorem single_empty : (empty : Ledger ι).Single where
  sessions_le _ := Nat.zero_le 1
  never _ _ := rfl
  session_pos _ hn := absurd hn (Finset.notMem_empty _)

/-- Nobody comes twice if everyone comes once. -/
theorem Single.step (h : l.Single) (hguard : l.Once a) (hstep : Step l a l') : l'.Single := by
  cases hstep with
  | enter i =>
    refine ⟨fun j => ?_, fun j hj => ?_, fun n hn => ?_⟩
    · change Function.update l.sessions i (l.sessions i + 1) j ≤ 1
      by_cases hi : j = i
      · have hzero : l.sessions i = 0 := hguard
        rw [hi, Function.update_self, hzero]
      · rw [Function.update_of_ne hi]
        exact h.sessions_le j
    · change Function.update l.sessions i (l.sessions i + 1) j = 0 at hj
      change Function.update l.present i true j = false
      by_cases hi : j = i
      · rw [hi, Function.update_self] at hj
        omega
      · rw [Function.update_of_ne hi] at hj ⊢
        exact h.never j hj
    · rcases Finset.mem_insert.mp hn with rfl | hold
      · exact Nat.succ_pos _
      · exact h.session_pos n hold
  | leave i hpresent =>
    refine ⟨h.sessions_le, fun j hj => ?_, fun n hn => ?_⟩
    · change Function.update l.present i false j = false
      by_cases hi : j = i
      · rw [hi, Function.update_self]
      · rw [Function.update_of_ne hi]
        exact h.never j hj
    · rcases Finset.mem_insert.mp hn with rfl | hold
      · refine Nat.pos_of_ne_zero fun hzero => ?_
        rw [h.never i hzero] at hpresent
        cases hpresent
      · exact h.session_pos n hold
  | receive n hn =>
    exact ⟨h.sessions_le, h.never, fun n' hn' => h.session_pos n' (Finset.mem_of_mem_erase hn')⟩

/-- The only goodbye of a party is not overtaken. -/
theorem Single.notOvertaken (h : l.Single) (hstep : Step l a l') : l.NotOvertaken a := by
  cases hstep with
  | enter i => exact trivial
  | leave i _ => exact trivial
  | receive n hn =>
    intro _ m hm hlt
    have hpos := h.session_pos n hn
    have hle := h.sessions_le n.party
    have hm' := Finset.mem_range_succ_iff.mp hm
    omega

end Once

end Ledger

end Presence
