import Chimbuko.Util.HistogramLinked

/-!
# The linked list does what the list of bins does

Each operation on the linked cells agrees with the one on the list of bins: it fails with the same
error, or it returns the same counts and leaves cells that hold the same bins, with all pointers
in order. A pointer corresponds to the index of the bin it points to.
-/

namespace Chimbuko

open IntervalChain LinkedCells

namespace LinkedHistogram

open HistogramVBW (Bin splitCounts)

section Read

variable {mem : Memory Bin} {e : ℕ} {cells : List (ℕ × Bin)}

/-- What is read at the first of some cells of a chain. -/
theorem read_first {pre rest : List (ℕ × Bin)} {c : ℕ × Bin}
    (h : Represents mem e (pre ++ c :: rest)) :
    read mem c.1 = .ok ⟨c.2, lastAddress none pre, some (firstAddress e rest), false⟩ := by
  have hget := ((segment_append pre _).mp h.segment).2.1
  rw [read, hget]
  rfl

/-- What is read at the end marker. -/
theorem read_marker (h : Represents mem e cells) :
    ∃ a, read mem e = .ok ⟨a, lastAddress none cells, none, true⟩ := by
  obtain ⟨a, hget⟩ := h.marker
  refine ⟨a, ?_⟩
  rw [read, hget]
  rfl

/-- The address behind some cells is that of the next one. -/
theorem address_append (e : ℕ) (pre rest : List (ℕ × Bin)) :
    address e (pre ++ rest) pre.length = firstAddress e rest := by
  rw [address, List.drop_left]

/-- The address of a cell. -/
theorem address_self (e : ℕ) (pre : List (ℕ × Bin)) (c : ℕ × Bin) (rest : List (ℕ × Bin)) :
    address e (pre ++ c :: rest) pre.length = c.1 := by
  rw [address_append, firstAddress]

/-- The address of the cell that follows. -/
theorem address_next (e : ℕ) (pre : List (ℕ × Bin)) (c : ℕ × Bin) (rest : List (ℕ × Bin)) :
    address e (pre ++ c :: rest) (pre.length + 1) = firstAddress e rest := by
  have hnext := address_append e (pre ++ [c]) rest
  rwa [← List.append_cons, List.length_append] at hnext

/-- The cells up to one of them keep their addresses when what comes after it changes. -/
theorem address_congr {pre xs ys : List (ℕ × Bin)} (h : firstAddress e xs = firstAddress e ys)
    {j : ℕ} (hj : j ≤ pre.length) : address e (pre ++ xs) j = address e (pre ++ ys) j := by
  rw [address, address, List.drop_append_of_le_length hj, List.drop_append_of_le_length hj,
    firstAddress_append, firstAddress_append, h]

/-- An index found from `start` on, and the pointer to the bin there. -/
def BinRel (e : ℕ) (cells : List (ℕ × Bin)) (start : ℕ) (i p : Option ℕ) : Prop :=
  p = i.map (address e cells) ∧ ∀ j ∈ i, start ≤ j ∧ j < cells.length

/-- A search from an earlier position finds the bin as well. -/
theorem BinRel.mono {start start' : ℕ} {i p : Option ℕ} (h : BinRel e cells start' i p)
    (hle : start ≤ start') : BinRel e cells start i p :=
  ⟨h.1, fun j hj => ⟨hle.trans (h.2 j hj).1, (h.2 j hj).2⟩⟩

/-- The search over the cells from one on finds what the search over their bins finds. -/
theorem search_agree (v : ℚ) {pre rest : List (ℕ × Bin)} (h : Represents mem e (pre ++ rest))
    {fuel : ℕ} (hfuel : rest.length < fuel) :
    Agree (BinRel e (pre ++ rest) pre.length)
      (HistogramVBW.searchBin (rest.map Prod.snd) pre.length v)
      (search mem v fuel (firstAddress e rest)) := by
  induction rest generalizing pre fuel with
  | nil =>
    obtain ⟨n, rfl⟩ := Nat.exists_eq_add_of_lt hfuel
    obtain ⟨a, hread⟩ := read_marker h
    rw [firstAddress, search, hread]
    exact ⟨rfl, fun j hj => absurd hj (Option.not_mem_none j)⟩
  | cons c rest ih =>
    cases fuel with
    | zero => exact absurd hfuel (Nat.not_lt_zero _)
    | succ n =>
      have hread := read_first h
      have hrep : Represents mem e (pre ++ [c] ++ rest) := by rwa [← List.append_cons]
      have hnext := ih hrep (Nat.lt_of_succ_lt_succ hfuel)
      rw [List.length_append, List.length_singleton, ← List.append_cons] at hnext
      rw [firstAddress, search, hread, List.map_cons, HistogramVBW.searchBin]
      change Agree _ _ (if v ≤ c.2.u then _ else _)
      split
      · split
        · rfl
        · refine ⟨congrArg some (address_self e pre c rest).symm, fun j hj => ?_⟩
          rw [← Option.some.inj hj]
          exact ⟨le_rfl, by simp⟩
      · exact hnext.mono fun i p hip => hip.mono (Nat.le_succ _)

/-- The bin found from a given one on. -/
theorem getBin_agree (h : Represents mem e cells) {i : ℕ} (hi : i ≤ cells.length) (v : ℚ) :
    Agree (BinRel e cells i)
      (HistogramVBW.getBin (cells.map Prod.snd) i v) (getBin mem (address e cells i) v) := by
  obtain ⟨pre, rest, rfl, rfl⟩ : ∃ pre rest, cells = pre ++ rest ∧ pre.length = i :=
    ⟨cells.take i, cells.drop i, (List.take_append_drop i cells).symm,
      List.length_take_of_le hi⟩
  have hfuel : rest.length < mem.length + 1 := by
    have hlt := h.length_lt
    rw [List.length_append] at hlt
    omega
  have hsearch := search_agree v h hfuel
  rw [address_append, getBin, HistogramVBW.getBin]
  cases rest with
  | nil =>
    obtain ⟨a, hread⟩ := read_marker h
    have hget : ((pre ++ []).map Prod.snd)[pre.length]? = none := by simp
    rw [firstAddress, hread, hget]
    exact ⟨rfl, fun j hj => absurd hj (Option.not_mem_none j)⟩
  | cons c rest =>
    have hget : ((pre ++ c :: rest).map Prod.snd)[pre.length]? = some c.2 := by simp
    have hdrop : ((pre ++ c :: rest).map Prod.snd).drop pre.length =
        (c :: rest).map Prod.snd := by
      rw [List.map_append, List.drop_left' (List.length_map _)]
    rw [hget, firstAddress, read_first h]
    change Agree _ (if v ≤ c.2.l then _ else _) (if false = true ∨ v ≤ c.2.l then _ else _)
    by_cases hv : v ≤ c.2.l
    · rw [if_pos hv, if_pos (Or.inr hv)]
      exact ⟨rfl, fun j hj => absurd hj (Option.not_mem_none j)⟩
    · rw [if_neg hv, if_neg (by simpa using hv), hdrop]
      exact hsearch

end Read

/-- Linking a bin in on the right of another keeps the chain, if the edges are in order. -/
theorem insertRight_ok {mem : Memory Bin} {e p q : ℕ} {a b : Bin} {pre post : List (ℕ × Bin)}
    {l r : Option ℕ} (h : Represents mem e (pre ++ (p, a) :: post))
    (hq : mem[q]? = some ⟨b, l, r, false⟩) (hfresh : ∀ c ∈ pre ++ (p, a) :: post, c.1 ≠ q)
    (hl : a.u ≤ b.l) (hu : a.u ≤ b.u) :
    ∃ mem', insertRight mem p q = .ok mem' ∧
      Represents mem' e (pre ++ (p, a) :: (q, b) :: post) := by
  obtain ⟨mem', hlink, hrep⟩ := h.linkRight hq hfresh
  refine ⟨mem', ?_, hrep⟩
  have hreadq : read mem q = .ok ⟨b, l, r, false⟩ := by
    rw [read, hq]
    rfl
  have hedges : ¬(b.l < a.u ∨ b.u < a.u) := fun hor =>
    hor.elim (not_lt_of_ge hl) (not_lt_of_ge hu)
  simp only [insertRight, read_first h, hreadq, hlink, bind, Except.bind, Bool.false_eq_true,
    if_false, if_neg hedges]
  rfl

/-- The bins on either side of a split point, with the pointers to them. -/
def SplitRel (e : ℕ) (old : List (ℕ × Bin)) (i : ℕ) (r : List Bin × ℕ × ℕ)
    (r' : Memory Bin × ℕ × ℕ) : Prop :=
  ∃ cells, Represents r'.1 e cells ∧ cells.map Prod.snd = r.1 ∧
    (∀ j ≤ i, address e cells j = address e old j) ∧ r.2.1 = i ∧ r.2.1 < cells.length ∧
    r'.2.1 = address e cells r.2.1 ∧ r.2.2 ≤ cells.length ∧ r'.2.2 = address e cells r.2.2

/-- Splitting a bin. -/
theorem split_agree {mem : Memory Bin} {e : ℕ} {cells : List (ℕ × Bin)}
    (h : Represents mem e cells) {i : ℕ} (hi : i ≤ cells.length) (v : ℚ) :
    Agree (SplitRel e cells i) (HistogramVBW.split (cells.map Prod.snd) i v)
      (split mem (address e cells i) v) := by
  obtain ⟨pre, rest, rfl, rfl⟩ : ∃ pre rest, cells = pre ++ rest ∧ pre.length = i :=
    ⟨cells.take i, cells.drop i, (List.take_append_drop i cells).symm,
      List.length_take_of_le hi⟩
  rw [address_append]
  cases rest with
  | nil =>
    obtain ⟨a, hread⟩ := read_marker h
    rw [firstAddress, split, hread, HistogramVBW.split]
    simp
    rfl
  | cons c rest =>
    obtain ⟨p, b⟩ := c
    have hread := read_first h
    have hbins : (pre ++ (p, b) :: rest).map Prod.snd =
        pre.map Prod.snd ++ b :: rest.map Prod.snd := List.map_append
    have hlength : (pre.map Prod.snd).length = pre.length := List.length_map _
    have hfirst : firstAddress e ((p, b) :: rest) = p := rfl
    simp only [hfirst, split, hread, bind, Except.bind, Bool.false_eq_true, if_false]
    by_cases hout : v ≤ b.l ∨ b.u < v
    · rw [if_pos hout, hbins, ← hlength, HistogramVBW.split]
      have hget : (pre.map Prod.snd ++ b :: rest.map Prod.snd)[(pre.map Prod.snd).length]? =
          some b := by simp
      rw [hget]
      simp only [if_pos hout]
      rfl
    rw [if_neg hout]
    have hl : b.l < v := lt_of_not_ge fun hle => hout (Or.inl hle)
    have hu : v ≤ b.u := le_of_not_gt fun hlt => hout (Or.inr hlt)
    by_cases hv : v = b.u
    · subst hv
      have hsplit := HistogramVBW.split_edge (pre.map Prod.snd) (rest.map Prod.snd) hl
      rw [hlength, ← hbins] at hsplit
      rw [if_pos rfl, hsplit]
      exact ⟨pre ++ (p, b) :: rest, h, rfl, fun _ _ => rfl, rfl, by simp,
        (address_self e pre (p, b) rest).symm, by simp, (address_next e pre (p, b) rest).symm⟩
    · have hu' := lt_of_le_of_ne hu hv
      have hsplit := HistogramVBW.split_inside (pre.map Prod.snd) (rest.map Prod.snd) hl hu'
      rw [hlength, ← hbins] at hsplit
      rw [if_neg hv, hsplit]
      obtain ⟨hset, hget, hfresh⟩ := (h.setContent (lowerPart splitCounts b v)).alloc
        ⟨upperPart splitCounts b v, none, none, false⟩
      obtain ⟨mem', hinsert, hrep⟩ := insertRight_ok hset hget hfresh le_rfl hu
      have hinsert' : insertRight (create (mem.modify p fun c =>
            { c with content := ⟨b.l, v, (splitCounts b v).1⟩ }) ⟨v, b.u, (splitCounts b v).2⟩).1 p
          (create (mem.modify p fun c =>
            { c with content := ⟨b.l, v, (splitCounts b v).1⟩ })
              ⟨v, b.u, (splitCounts b v).2⟩).2 = .ok mem' := hinsert
      have hread' : read mem' p = _ := read_first hrep
      rw [hinsert']
      dsimp only
      rw [hread']
      refine ⟨_, hrep, by simp, fun j hj => address_congr (by rfl) hj, rfl, by simp, ?_,
        by simp, ?_⟩
      · change p = address e _ pre.length
        rw [address_self]
      · change _ = address e _ (pre.length + 1)
        rw [address_next]

/-- The bins that an edge of a range leaves, and the bin it finds, if any. -/
def RangeRel (e : ℕ) (old : List (ℕ × Bin)) (lo : ℕ) (r : List Bin × Option ℕ)
    (r' : Memory Bin × Option ℕ) : Prop :=
  ∃ cells, Represents r'.1 e cells ∧ cells.map Prod.snd = r.1 ∧
    (∀ j ≤ lo, address e cells j = address e old j) ∧ cells ≠ [] ∧ BinRel e cells lo r.2 r'.2

section Range

variable {mem : Memory Bin} {e : ℕ} {cells : List (ℕ × Bin)}

/-- The first and the last bin of a chain, as lists and pointers have them. -/
theorem ends_agree (h : Represents mem e cells) (hne : cells ≠ []) :
    ∃ f z, (cells.map Prod.snd).head? = some f ∧ (cells.map Prod.snd).getLast? = some z ∧
      (∃ c, read mem (address e cells 0) = .ok c ∧ c.content = f) ∧
      ∃ c, lastBin mem e = .ok (address e cells (cells.length - 1), c) ∧ c.content = z := by
  obtain ⟨init, z, rfl⟩ : ∃ init z, cells = init ++ [z] :=
    ⟨cells.dropLast, cells.getLast hne, (List.dropLast_append_getLast hne).symm⟩
  obtain ⟨f, rest, hf⟩ := List.exists_cons_of_ne_nil hne
  obtain ⟨a, hmarker⟩ := read_marker h
  have hchain : Represents mem e ([] ++ f :: rest) := hf ▸ h
  refine ⟨f.2, z.2, by rw [hf]; rfl, by simp, ⟨_, by rw [hf]; exact read_first hchain, rfl⟩,
    ⟨⟨z.2, lastAddress none init, some e, false⟩, ?_, rfl⟩⟩
  have hlength : (init ++ [z]).length - 1 = init.length := by simp
  rw [hlength, address_self, lastBin, hmarker, lastAddress_append]
  simp only [lastAddress, follow, bind, Except.bind, pure, Except.pure, read_first h]
  rfl

/-- Past the last bin is the end marker. -/
theorem read_address (h : Represents mem e cells) {i : ℕ} (hi : i ≤ cells.length) :
    ∃ c, read mem (address e cells i) = .ok c ∧ c.isEnd = decide (cells.length ≤ i) := by
  obtain ⟨pre, rest, rfl, rfl⟩ : ∃ pre rest, cells = pre ++ rest ∧ pre.length = i :=
    ⟨cells.take i, cells.drop i, (List.take_append_drop i cells).symm,
      List.length_take_of_le hi⟩
  rw [address_append]
  cases rest with
  | nil =>
    obtain ⟨a, hread⟩ := read_marker h
    exact ⟨_, hread, by simp⟩
  | cons c rest => exact ⟨_, read_first h, by simp⟩

/-- The first bin of a range. -/
theorem lowerBin_agree (h : Represents mem e cells) (hne : cells ≠ []) (l : ℚ) :
    Agree (RangeRel e cells 0) (HistogramVBW.lowerBin (cells.map Prod.snd) 0 l)
      (lowerBin mem (address e cells 0) e l) := by
  obtain ⟨f, z, hhead, hlast, ⟨cf, hreadf, rfl⟩, ⟨cz, hreadz, rfl⟩⟩ := ends_agree h hne
  rw [HistogramVBW.lowerBin, lowerBin]
  refine (getBin_agree h (Nat.zero_le _) l).bind ?_
  rintro oi op ⟨rfl, hbound⟩
  cases oi with
  | some i =>
    refine (split_agree h (hbound i rfl).2.le l).bind ?_
    rintro ⟨_, _, ri⟩ ⟨mem', _, _⟩ ⟨cells', hrep, rfl, hkeep, -, hli, -, hri, rfl⟩
    have hstart : ∀ j ≤ 0, address e cells' j = address e cells j := fun j hj =>
      hkeep j (hj.trans (Nat.zero_le _))
    obtain ⟨c, hread, hend⟩ := read_address hrep hri
    have hne' : cells' ≠ [] := List.ne_nil_of_length_pos (Nat.zero_lt_of_lt hli)
    simp only [hread, hend, bind, Except.bind, List.length_map, decide_eq_true_eq]
    split
    · exact ⟨cells', hrep, rfl, hstart, hne', rfl, fun j hj => absurd hj (Option.not_mem_none j)⟩
    · rename_i hlt
      exact ⟨cells', hrep, rfl, hstart, hne', rfl, fun j hj => Option.some.inj hj ▸
        ⟨Nat.zero_le _, Nat.lt_of_not_le hlt⟩⟩
  | none =>
    simp only [Option.map_none, hhead, hlast, hreadf, hreadz, bind, Except.bind]
    split
    · exact ⟨cells, h, rfl, fun _ _ => rfl, hne, rfl, fun j hj => Option.some.inj hj ▸
        ⟨le_rfl, List.length_pos_iff.mpr hne⟩⟩
    · split
      · exact ⟨cells, h, rfl, fun _ _ => rfl, hne, rfl,
          fun j hj => absurd hj (Option.not_mem_none j)⟩
      · rfl

/-- The last bin of a range. -/
theorem upperBin_agree (h : Represents mem e cells) {bl : ℕ} (hbl : bl < cells.length) (u : ℚ) :
    Agree (RangeRel e cells bl) (HistogramVBW.upperBin (cells.map Prod.snd) bl u)
      (upperBin mem (address e cells 0) e (address e cells bl) u) := by
  have hne : cells ≠ [] := List.ne_nil_of_length_pos (Nat.zero_lt_of_lt hbl)
  obtain ⟨f, z, hhead, hlast, ⟨cf, hreadf, rfl⟩, ⟨cz, hreadz, rfl⟩⟩ := ends_agree h hne
  rw [HistogramVBW.upperBin, upperBin]
  refine (getBin_agree h hbl.le u).bind ?_
  rintro oi op ⟨rfl, hbound⟩
  cases oi with
  | some i =>
    refine (split_agree h (hbound i rfl).2.le u).bind ?_
    rintro ⟨_, _, ri⟩ ⟨mem', _, _⟩ ⟨cells', hrep, rfl, hkeep, rfl, hli, rfl, hri, rfl⟩
    exact ⟨cells', hrep, rfl, fun j hj => hkeep j (hj.trans (hbound _ rfl).1),
      List.ne_nil_of_length_pos (Nat.zero_lt_of_lt hli), rfl,
      fun j hj => Option.some.inj hj ▸ ⟨(hbound _ rfl).1, hli⟩⟩
  | none =>
    simp only [Option.map_none, hhead, hlast, hreadf, hreadz, bind, Except.bind]
    split
    · exact ⟨cells, h, rfl, fun _ _ => rfl, hne, rfl, fun j hj => absurd hj (Option.not_mem_none j)⟩
    · split
      · refine ⟨cells, h, rfl, fun _ _ => rfl, hne, by simp, fun j hj => ?_⟩
        obtain rfl := Option.some.inj hj
        rw [List.length_map]
        omega
      · rfl

/-- Draining the cells up to one of them. -/
theorem drain_ok {pre init post : List (ℕ × Bin)} {z : ℕ × Bin} {fuel : ℕ}
    (h : Represents mem e (pre ++ (init ++ z :: post))) (hfuel : init.length < fuel) :
    ∃ mem', drain z.1 fuel mem (firstAddress e (init ++ z :: post)) =
        .ok (content ((init ++ [z]).map Prod.snd), mem') ∧
      Represents mem' e (pre ++ ((init ++ [z]).map (fun c => (c.1, cleared c.2)) ++ post)) := by
  induction init generalizing mem pre fuel with
  | nil =>
    cases fuel with
    | zero => exact absurd hfuel (Nat.not_lt_zero _)
    | succ n =>
      refine ⟨_, ?_, h.setContent (cleared z.2)⟩
      rw [List.nil_append, firstAddress, drain, read_first h]
      simp only [bind, Except.bind, if_true]
      exact congrArg (fun count => Except.ok (count, _)) (add_zero z.2.c).symm
  | cons c init ih =>
    cases fuel with
    | zero => exact absurd hfuel (Nat.not_lt_zero _)
    | succ n =>
      have hne : c.1 ≠ z.1 := by
        have hsplit : Represents mem e ((pre ++ c :: init) ++ z :: post) := by
          rwa [List.append_assoc]
        exact hsplit.ne_of_append (by simp) List.mem_cons_self
      have hset : Represents _ e (pre ++ (c.1, cleared c.2) :: (init ++ z :: post)) :=
        h.setContent (cleared c.2)
      rw [List.append_cons] at hset
      obtain ⟨mem', hdrain, hrep⟩ := ih hset (Nat.lt_of_succ_lt_succ hfuel)
      refine ⟨mem', ?_, ?_⟩
      · have hread : read mem c.1 = .ok ⟨c.2, lastAddress none pre,
            some (firstAddress e (init ++ z :: post)), false⟩ := read_first h
        rw [List.cons_append, firstAddress, drain, hread]
        simp only [follow, bind, Except.bind, pure, Except.pure, if_neg hne]
        rw [show drain z.1 n (mem.modify c.1 fun d => { d with content := ⟨c.2.l, c.2.u, 0⟩ })
          (firstAddress e (init ++ z :: post)) = _ from hdrain]
        rfl
      · rw [List.append_assoc] at hrep
        exact hrep

end Range

/-- What is drained from a list of bins. -/
private theorem drain_eq (pre mid post : List (ℕ × Bin)) (hmid : mid ≠ []) :
    HistogramVBW.drain ((pre ++ (mid ++ post)).map Prod.snd) pre.length
        (pre.length + mid.length - 1) =
      (content (mid.map Prod.snd),
        (pre ++ (mid.map (fun c => (c.1, cleared c.2)) ++ post)).map Prod.snd) := by
  have hlower : mid.map Prod.snd ≠ [] := by simpa using hmid
  have hspec := HistogramVBW.drain_spec (pre.map Prod.snd) (post.map Prod.snd) hlower
  rw [List.length_map, List.length_map] at hspec
  rw [List.map_append, List.map_append, hspec, List.map_append, List.map_append, List.map_map,
    List.map_map, List.append_assoc]
  rfl

/-- Extraction over one range. -/
theorem extractUniformCountInRangeInt_agree {s : LinkedHistogram} {h : HistogramVBW}
    (hviews : s.Views h) (l u : ℚ) :
    Agree (fun r r' => r'.1 = r.1 ∧ r'.2.Views r.2)
      (HistogramVBW.extractUniformCountInRangeInt h l u) (extractUniformCountInRangeInt s l u) := by
  obtain ⟨mem, first, endMarker, min, max⟩ := s
  obtain ⟨bins, min', max'⟩ := h
  obtain ⟨hmin, hmax, hcells⟩ := hviews
  obtain rfl : min = min' := hmin
  obtain rfl : max = max' := hmax
  rw [HistogramVBW.extractUniformCountInRangeInt, extractUniformCountInRangeInt]
  by_cases hlu : u ≤ l
  · rw [if_pos hlu, if_pos hlu]
    rfl
  rw [if_neg hlu, if_neg hlu]
  rcases hcells with ⟨hfirst, hend, hbins⟩ | ⟨e, cells, hne, hfirst, hend, hrep, hbins⟩
  · subst hfirst hbins
    rfl
  subst hfirst hend hbins
  have hlength : ¬(cells.map Prod.snd).length = 0 := by
    rw [List.length_map]
    exact mt List.length_eq_zero_iff.mp hne
  have hviews : ∀ {mem' : Memory Bin} {cells' : List (ℕ × Bin)}, Represents mem' e cells' →
      cells' ≠ [] → address e cells' 0 = address e cells 0 →
      Views ⟨mem', some (address e cells 0), some e, min, max⟩ ⟨cells'.map Prod.snd, min, max⟩ :=
    fun hrep' hne' hstart => ⟨rfl, rfl, Or.inr ⟨e, _, hne', by rw [hstart], rfl, hrep', rfl⟩⟩
  simp only [if_neg hlength]
  split
  · -- data without extent: only the count of the bin that holds them changes
    refine (getBin_agree hrep (Nat.zero_le _) max).bind ?_
    rintro oi op ⟨rfl, hbound⟩
    cases oi with
    | none => rfl
    | some i =>
      obtain ⟨pre, c, rest, rfl, rfl⟩ : ∃ pre c rest,
          cells = pre ++ c :: rest ∧ pre.length = i := by
        have hlt := (hbound i rfl).2
        exact ⟨cells.take i, cells[i], cells.drop (i + 1), by simp, List.length_take_of_le hlt.le⟩
      have hget : ((pre ++ c :: rest).map Prod.snd).getD pre.length ⟨0, 0, 0⟩ = c.2 := by simp
      have hread : read mem (address e (pre ++ c :: rest) pre.length) =
          .ok ⟨c.2, lastAddress none pre, some (firstAddress e rest), false⟩ := by
        rw [address_self]
        exact read_first hrep
      simp only [Option.map_some, hget, hread, bind, Except.bind]
      split
      · have hset := hrep.setContent (cleared c.2)
        have hbins : ((pre ++ c :: rest).map Prod.snd).set pre.length (cleared c.2) =
            (pre ++ (c.1, cleared c.2) :: rest).map Prod.snd := by simp
        refine ⟨rfl, ?_⟩
        rw [show ((⟨c.2.l, c.2.u, 0⟩ : Bin)) = cleared c.2 from rfl, hbins, address_self]
        exact hviews hset (by simp) (address_congr (by rfl) (Nat.zero_le _))
      · exact ⟨rfl, hviews hrep hne rfl⟩
  · refine (lowerBin_agree hrep hne l).bind ?_
    rintro ⟨_, obl⟩ ⟨mem', _⟩ ⟨cells', hrep', rfl, hkeep, hne', rfl, hbl⟩
    have hstart := hkeep 0 le_rfl
    cases obl with
    | none => exact ⟨rfl, hviews hrep' hne' hstart⟩
    | some bl =>
      have hupper := upperBin_agree hrep' (hbl bl rfl).2 u
      rw [hstart] at hupper
      refine hupper.bind ?_
      rintro ⟨_, obu⟩ ⟨mem'', _⟩ ⟨cells'', hrep'', rfl, hkeep', hne'', rfl, hbu⟩
      have hstart' := (hkeep' 0 (Nat.zero_le _)).trans hstart
      cases obu with
      | none => exact ⟨rfl, hviews hrep'' hne'' hstart'⟩
      | some bu =>
        obtain ⟨hle, hlt⟩ := hbu bu rfl
        obtain ⟨pre, init, z, post, rfl, rfl, rfl⟩ : ∃ pre init z post,
            cells'' = pre ++ (init ++ z :: post) ∧ pre.length = bl ∧
              pre.length + (init ++ [z]).length - 1 = bu := by
          refine ⟨cells''.take bl, (cells''.drop bl).take (bu - bl), cells''[bu],
            cells''.drop (bu + 1), ?_, List.length_take_of_le (hle.trans hlt.le), ?_⟩
          · rw [← List.drop_eq_getElem_cons hlt]
            have hdrop : cells''.drop bu = (cells''.drop bl).drop (bu - bl) := by
              rw [List.drop_drop, Nat.add_sub_cancel' hle]
            rw [hdrop, List.take_append_drop, List.take_append_drop]
          · simp only [List.length_append, List.length_take, List.length_drop,
              List.length_singleton]
            omega
        have hfuel : init.length < mem''.length + 1 := by
          have hlength := hrep''.length_lt
          simp only [List.length_append, List.length_cons] at hlength
          omega
        obtain ⟨mem3, hdrain, hrep3⟩ := drain_ok hrep'' hfuel
        have hbl' : address e cells' pre.length = firstAddress e (init ++ z :: post) := by
          rw [← hkeep' _ le_rfl, address_append]
        have hbu' : address e (pre ++ (init ++ z :: post))
            (pre.length + (init ++ [z]).length - 1) = z.1 := by
          have hlength : pre.length + (init ++ [z]).length - 1 = (pre ++ init).length := by simp
          rw [hlength, ← List.append_assoc, address_self]
        have hlist := drain_eq pre (init ++ [z]) post (by simp)
        rw [List.append_assoc, List.singleton_append] at hlist
        simp only [Option.map_some, hbl', hbu', hlist, hdrain, bind, Except.bind]
        refine ⟨rfl, hviews hrep3 (by simp) ?_⟩
        rw [← hstart']
        exact address_congr (by cases init <;> rfl) (Nat.zero_le _)

/-- The sum over the cells from one on. -/
theorem sumFrom_eq {mem : Memory Bin} {e : ℕ} {pre rest : List (ℕ × Bin)}
    (h : Represents mem e (pre ++ rest)) {fuel : ℕ} (hfuel : rest.length < fuel) :
    sumFrom mem fuel (firstAddress e rest) = .ok (content (rest.map Prod.snd)) := by
  induction rest generalizing pre fuel with
  | nil =>
    obtain ⟨n, rfl⟩ := Nat.exists_eq_add_of_lt hfuel
    obtain ⟨a, hread⟩ := read_marker h
    rw [firstAddress, sumFrom, hread]
    rfl
  | cons c rest ih =>
    cases fuel with
    | zero => exact absurd hfuel (Nat.not_lt_zero _)
    | succ n =>
      have hrep : Represents mem e (pre ++ [c] ++ rest) := by rwa [← List.append_cons]
      have hsum := ih hrep (Nat.lt_of_succ_lt_succ hfuel)
      rw [firstAddress, sumFrom, read_first h]
      simp only [follow, bind, Except.bind, pure, Except.pure, hsum]
      rfl

/-- The total of the linked cells is the total of the bins. -/
theorem totalCount_eq {s : LinkedHistogram} {h : HistogramVBW} (hviews : s.Views h) :
    s.totalCount = .ok h.totalCount := by
  obtain ⟨-, -, ⟨hfirst, -, hbins⟩ | ⟨e, cells, -, hfirst, -, hrep, hbins⟩⟩ := hviews
  · rw [totalCount, hfirst, HistogramVBW.totalCount, hbins]
    rfl
  · have hlt := hrep.length_lt
    have hchain : Represents s.mem e ([] ++ cells) := hrep
    rw [totalCount, hfirst, HistogramVBW.totalCount, ← hbins]
    exact sumFrom_eq hchain (by omega)

/-- Starting a chain with a new cell. -/
private theorem insertFirst_ok (b : Bin) :
    ∃ mem e p, insertFirst (create [] b).1 (create [] b).2 = .ok (mem, p, e) ∧
      Represents mem e [(p, b)] := by
  have hempty : Represents (createEnd (create [] b).1).1 1 [] :=
    ⟨trivial, ⟨⟨0, 0, 0⟩, rfl⟩, List.nodup_nil⟩
  obtain ⟨mem, hlink, hrep⟩ := hempty.linkLeft (q := 0) rfl fun c hc => absurd hc List.not_mem_nil
  refine ⟨mem, 1, 0, ?_, hrep⟩
  change insertLeft (createEnd (create [] b).1).1 1 0 >>= (fun mem => Except.ok (mem, 0, 1)) = _
  rw [insertLeft, show linkLeft (createEnd (create [] b).1).1 1 0 = some mem from hlink]
  rfl

/-- The bins imported so far, with the pointer to the last of them. -/
private def ImportRel (e start : ℕ) (r : List Bin × ℚ) (r' : Memory Bin × ℕ × ℚ) : Prop :=
  ∃ cells z, Represents r'.1 e (cells ++ [z]) ∧ (cells ++ [z]).map Prod.snd = r.1 ∧
    address e (cells ++ [z]) 0 = start ∧ r'.2.1 = z.1 ∧ r'.2.2 = r.2

/-- Appending a bin to those imported so far. -/
private theorem append_agree {mem : Memory Bin} {e : ℕ} {cells : List (ℕ × Bin)} {z : ℕ × Bin}
    (h : Represents mem e (cells ++ [z])) (b : Bin) :
    Agree (fun bins mem' => ∃ q, q = (create mem b).2 ∧
        Represents mem' e (cells ++ [z, (q, b)]) ∧ (cells ++ [z, (q, b)]).map Prod.snd = bins)
      (HistogramVBW.insertRight ((cells ++ [z]).map Prod.snd)
        (((cells ++ [z]).map Prod.snd).length - 1) b)
      (insertRight (create mem b).1 z.1 (create mem b).2) := by
  obtain ⟨hrep, hget, hfresh⟩ := h.alloc ⟨b, none, none, false⟩
  have hlength : ((cells ++ [z]).map Prod.snd).length - 1 = cells.length := by simp
  have hbin : ((cells ++ [z]).map Prod.snd)[cells.length]? = some z.2 := by simp
  rw [hlength, HistogramVBW.insertRight, hbin]
  by_cases hedges : b.l < z.2.u ∨ b.u < z.2.u
  · have hread : read (create mem b).1 z.1 = _ := read_first hrep
    have hread' : read (create mem b).1 (create mem b).2 = .ok ⟨b, none, none, false⟩ := by
      rw [read, show (create mem b).1[(create mem b).2]? = _ from hget]
      rfl
    simp only [insertRight, hread, hread', bind, Except.bind, Bool.false_eq_true, if_false,
      if_pos hedges]
    rfl
  · obtain ⟨mem', hinsert, hrep'⟩ := insertRight_ok hrep hget hfresh
      (le_of_not_gt fun hlt => hedges (Or.inl hlt)) (le_of_not_gt fun hlt => hedges (Or.inr hlt))
    rw [show insertRight (create mem b).1 z.1 (create mem b).2 = _ from hinsert]
    simp only [if_neg hedges]
    refine ⟨_, rfl, hrep', ?_⟩
    have hinsertIdx : ∀ bins : List Bin, bins.length = cells.length + 1 →
        bins.insertIdx (cells.length + 1) b = bins ++ [b] := fun bins hbins => by
      rw [← hbins, List.insertIdx_length_self]
    rw [hinsertIdx _ (by simp)]
    simp

/-- Importing a fixed bin width histogram. -/
theorem importHistogram_agree (h : Histogram) :
    Agree (fun r r' => r'.Views r) (HistogramVBW.importHistogram h) (importHistogram h) := by
  rw [HistogramVBW.importHistogram, importHistogram]
  split
  · exact ⟨rfl, rfl, Or.inl ⟨rfl, rfl, rfl⟩⟩
  obtain ⟨mem, e, p, hfirst, hrep⟩ :=
    insertFirst_ok ⟨(h.binEdges 0).1, (h.binEdges 0).2, h.binCount 0⟩
  have hstart : ImportRel e p ([⟨(h.binEdges 0).1, (h.binEdges 0).2, h.binCount 0⟩],
      (h.binEdges 0).2) (mem, p, (h.binEdges 0).2) := ⟨[], _, hrep, rfl, rfl, rfl, rfl⟩
  simp only [hfirst]
  change Agree _ (List.foldlM _ _ _ >>= _) (List.foldlM _ _ _ >>= _)
  refine Agree.bind (Agree.foldlM (fun b _ r r' hr => ?_) hstart) fun r r' hr => ?_
  · obtain ⟨bins, upper⟩ := r
    obtain ⟨mem', last, upper'⟩ := r'
    obtain ⟨cells, z, hrep', rfl, hp, hlast, hupper⟩ := hr
    obtain rfl : last = z.1 := hlast
    obtain rfl : upper' = upper := hupper
    dsimp only
    split
    · rfl
    · refine (append_agree hrep' _).bind ?_
      rintro _ mem'' ⟨q, rfl, hrep'', rfl⟩
      rw [List.append_cons] at hrep'' ⊢
      refine ⟨cells ++ [z], _, hrep'', rfl, ?_, rfl, rfl⟩
      rw [← hp, ← List.append_cons]
      exact address_congr (by rfl) (Nat.zero_le _)
  · obtain ⟨cells, z, hrep', hbins, hp, -, -⟩ := hr
    exact ⟨rfl, rfl, Or.inr ⟨e, cells ++ [z], by simp, congrArg some hp.symm, rfl, hrep', hbins⟩⟩

end LinkedHistogram

end Chimbuko
