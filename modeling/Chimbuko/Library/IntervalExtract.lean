import Chimbuko.Library.IntervalChain

/-!
# Extracting content from a chain

Extraction over a range `(l, u]` cuts a chain at both ends of the range and takes the content of
what lies between them; the intervals stay behind without content. The extent of the chain is
kept, what is taken and what remains make up what there was, and only the intervals that the
ends of the range divide are changed outside the range.
-/

namespace IntervalChain

variable {K M : Type*} [LinearOrder K] [AddCommMonoid M]

omit [LinearOrder K] in
/-- The same interval without content. -/
def cleared (b : Bin K M) : Bin K M := ⟨b.l, b.u, 0⟩

/-- The content of a range, and the chain without it. -/
def extract (share : Share K M) (l u : K) (bins : List (Bin K M)) : M × List (Bin K M) :=
  let below := cut share l bins
  let inside := cut share u below.2
  (content inside.1, below.1 ++ (inside.1.map cleared ++ inside.2))

/-- Extraction over one range after another. -/
def extractAll (share : Share K M) : List (K × K) → List (Bin K M) → List M × List (Bin K M)
  | [], bins => ([], bins)
  | r :: rest, bins =>
    ((extract share r.1 r.2 bins).1 :: (extractAll share rest (extract share r.1 r.2 bins).2).1,
      (extractAll share rest (extract share r.1 r.2 bins).2).2)

/-- Each range has extent and starts no earlier than the one before it ends. -/
def InOrder : List (K × K) → Prop
  | [] => True
  | r :: rest => r.1 < r.2 ∧ (∀ next ∈ rest.head?, r.2 ≤ next.1) ∧ InOrder rest

omit [AddCommMonoid M] in
/-- The first range starts no later than the others. -/
theorem InOrder.head_le {first : K × K} {rest : List (K × K)} (h : InOrder (first :: rest)) :
    ∀ r ∈ first :: rest, first.1 ≤ r.1 := by
  induction rest generalizing first with
  | nil =>
    intro r hr
    rw [List.mem_singleton.mp hr]
  | cons next rest ih =>
    intro r hr
    rcases List.mem_cons.mp hr with rfl | hr
    · exact le_rfl
    · exact (h.1.le.trans (h.2.1 next rfl)).trans (ih h.2.2 r hr)

omit [AddCommMonoid M] in
/-- Each range ends after it starts. -/
theorem InOrder.lt {ranges : List (K × K)} (h : InOrder ranges) : ∀ r ∈ ranges, r.1 < r.2 := by
  induction ranges with
  | nil => exact fun r hr => absurd hr List.not_mem_nil
  | cons first rest ih => exact List.forall_mem_cons.mpr ⟨h.1, ih h.2.2⟩

section Cleared

omit [LinearOrder K]

/-- Cleared bins have no content. -/
@[simp] theorem content_cleared (bins : List (Bin K M)) : content (bins.map cleared) = 0 := by
  induction bins with
  | nil => rfl
  | cons b rest ih =>
    rw [List.map_cons, content_cons, ih]
    exact add_zero 0

/-- Clearing bins leaves where they end. -/
theorem endpoint_cleared (a : K) (bins : List (Bin K M)) :
    endpoint a (bins.map cleared) = endpoint a bins := by
  induction bins generalizing a with
  | nil => rfl
  | cons b rest ih => exact ih b.u

/-- Clearing bins leaves their upper edges. -/
theorem map_upper_cleared (bins : List (Bin K M)) :
    (bins.map cleared).map Bin.u = bins.map Bin.u := by
  rw [List.map_map]
  rfl

end Cleared

/-- Clearing bins leaves them linked. -/
theorem linked_cleared {a : K} {bins : List (Bin K M)} :
    Linked a (bins.map cleared) ↔ Linked a bins := by
  induction bins generalizing a with
  | nil => exact Iff.rfl
  | cons b rest ih => exact and_congr_right fun _ => and_congr_right fun _ => ih

section Cut

omit [AddCommMonoid M]

/-- Cutting keeps the end of a chain. -/
theorem endpoint_cut_append (share : Share K M) (v a : K) (bins : List (Bin K M)) :
    endpoint a ((cut share v bins).1 ++ (cut share v bins).2) = endpoint a bins := by
  induction bins generalizing a with
  | nil => rfl
  | cons b rest ih =>
    rw [cut]
    split
    · exact ih b.u
    · split <;> rfl

/-- What is cut off ends at the point or before. -/
theorem cut_fst_upper {share : Share K M} {v : K} {bins : List (Bin K M)} :
    ∀ b ∈ (cut share v bins).1, b.u ≤ v := by
  induction bins with
  | nil => exact fun b hb => absurd hb List.not_mem_nil
  | cons d rest ih =>
    rw [cut]
    split
    · rename_i hd
      intro b hb
      rcases List.mem_cons.mp hb with rfl | hb
      · exact hd
      · exact ih b hb
    · split
      · intro b hb
        rw [List.mem_singleton.mp hb]
        exact le_rfl
      · exact fun b hb => absurd hb List.not_mem_nil

/-- Every bin of a chain starts no earlier than the chain. -/
theorem Linked.le_lower {a : K} {bins : List (Bin K M)} (h : Linked a bins) {b : Bin K M}
    (hb : b ∈ bins) : a ≤ b.l := by
  induction bins generalizing a with
  | nil => exact absurd hb List.not_mem_nil
  | cons d rest ih =>
    rcases List.mem_cons.mp hb with rfl | hb
    · exact h.1.ge
    · exact (h.1 ▸ h.2.1.le).trans (ih h.2.2 hb)

/-- Linked bins have a positive width. -/
theorem Linked.lower_lt_upper {a : K} {bins : List (Bin K M)} (h : Linked a bins) {b : Bin K M}
    (hb : b ∈ bins) : b.l < b.u := by
  induction bins generalizing a with
  | nil => exact absurd hb List.not_mem_nil
  | cons d rest ih =>
    rcases List.mem_cons.mp hb with rfl | hb
    · exact h.2.1
    · exact ih h.2.2 hb

/-- What is left above a point starts at the point or after. -/
theorem cut_snd_lower {share : Share K M} {v a : K} {bins : List (Bin K M)} (h : Linked a bins) :
    ∀ b ∈ (cut share v bins).2, v ≤ b.l := by
  induction bins generalizing a with
  | nil => exact fun b hb => absurd hb List.not_mem_nil
  | cons d rest ih =>
    rw [cut]
    split
    · exact ih h.2.2
    · rename_i hd
      split
      · intro b hb
        rcases List.mem_cons.mp hb with rfl | hb
        · exact le_rfl
        · exact (lt_of_not_ge hd).le.trans (h.2.2.le_lower hb)
      · rename_i hl
        intro b hb
        exact (le_of_not_gt hl).trans (h.1 ▸ h.le_lower hb)

/-- A bin on one side of a point is not changed by cutting there. -/
theorem mem_cut_of_mem {share : Share K M} {v a : K} {bins : List (Bin K M)} (h : Linked a bins)
    {b : Bin K M} (hb : b ∈ bins) :
    (b.u ≤ v → b ∈ (cut share v bins).1) ∧ (v ≤ b.l → b ∈ (cut share v bins).2) := by
  induction bins generalizing a with
  | nil => exact absurd hb List.not_mem_nil
  | cons d rest ih =>
    obtain ⟨-, hd, hrest⟩ := h
    rw [cut]
    by_cases hu : d.u ≤ v
    · rw [if_pos hu]
      rcases List.mem_cons.mp hb with rfl | hb
      · exact ⟨fun _ => List.mem_cons_self, fun hv => absurd (hu.trans hv) (not_le_of_gt hd)⟩
      · exact ⟨fun hv => List.mem_cons_of_mem _ ((ih hrest hb).1 hv), (ih hrest hb).2⟩
    · rw [if_neg hu]
      have hafter : ∀ c ∈ rest, ¬c.u ≤ v := fun c hc hv =>
        hu (((hrest.le_lower hc).trans (hrest.lower_lt_upper hc).le).trans hv)
      split
      · rename_i hl
        rcases List.mem_cons.mp hb with rfl | hb
        · exact ⟨fun hv => absurd hv hu, fun hv => absurd hv (not_le_of_gt hl)⟩
        · exact ⟨fun hv => absurd hv (hafter b hb), fun _ => List.mem_cons_of_mem _ hb⟩
      · rcases List.mem_cons.mp hb with rfl | hb'
        · exact ⟨fun hv => absurd hv hu, fun _ => List.mem_cons_self⟩
        · exact ⟨fun hv => absurd hv (hafter b hb'), fun _ => List.mem_cons_of_mem _ hb'⟩

/-- A part of a chain is a bin of the chain, or a part of the bin that the point divides. -/
theorem mem_of_mem_cut {share : Share K M} {v : K} {bins : List (Bin K M)} {b : Bin K M}
    (hb : b ∈ (cut share v bins).1 ∨ b ∈ (cut share v bins).2) :
    b ∈ bins ∨ ∃ d ∈ bins, d.l < v ∧ v < d.u ∧
      (b = lowerPart share d v ∨ b = upperPart share d v) := by
  induction bins with
  | nil => exact Or.inl (hb.elim id id)
  | cons d rest ih =>
    have hlift : (b ∈ rest ∨ ∃ d ∈ rest, d.l < v ∧ v < d.u ∧
        (b = lowerPart share d v ∨ b = upperPart share d v)) →
        b ∈ d :: rest ∨ ∃ e ∈ d :: rest, e.l < v ∧ v < e.u ∧
          (b = lowerPart share e v ∨ b = upperPart share e v) :=
      Or.imp (List.mem_cons_of_mem _) fun ⟨e, he, hpart⟩ => ⟨e, List.mem_cons_of_mem _ he, hpart⟩
    rw [cut] at hb
    split at hb
    · rcases hb with hb | hb
      · rcases List.mem_cons.mp hb with rfl | hb
        · exact Or.inl List.mem_cons_self
        · exact hlift (ih (Or.inl hb))
      · exact hlift (ih (Or.inr hb))
    · rename_i hu
      split at hb
      · rename_i hl
        have hdivided := lt_of_not_ge hu
        rcases hb with hb | hb
        · exact Or.inr ⟨d, List.mem_cons_self, hl, hdivided, Or.inl (List.mem_singleton.mp hb)⟩
        · rcases List.mem_cons.mp hb with rfl | hb
          · exact Or.inr ⟨d, List.mem_cons_self, hl, hdivided, Or.inr rfl⟩
          · exact Or.inl (List.mem_cons_of_mem _ hb)
      · exact Or.inl (hb.resolve_left List.not_mem_nil)

/-- The upper edges of a chain stay edges when it is cut. -/
theorem upper_mem_cut (share : Share K M) (v : K) {e : K} {bins : List (Bin K M)}
    (he : e ∈ bins.map Bin.u) :
    e ∈ ((cut share v bins).1 ++ (cut share v bins).2).map Bin.u := by
  induction bins with
  | nil => exact absurd he List.not_mem_nil
  | cons d rest ih =>
    rw [List.map_cons] at he
    rw [cut]
    split
    · rcases List.mem_cons.mp he with rfl | he
      · exact List.mem_cons_self
      · exact List.mem_cons_of_mem _ (ih he)
    · split
      · exact List.mem_cons_of_mem _ he
      · exact he

/-- A point inside a chain becomes an edge when the chain is cut there. -/
theorem mem_upper_cut {share : Share K M} {v a : K} {bins : List (Bin K M)} (h : Linked a bins)
    (hl : a < v) (hu : v < endpoint a bins) : v ∈ (cut share v bins).1.map Bin.u := by
  induction bins generalizing a with
  | nil => exact absurd hl (not_lt_of_gt hu)
  | cons d rest ih =>
    obtain ⟨rfl, -, hrest⟩ := h
    rw [cut]
    split
    · rename_i hd
      rcases hd.eq_or_lt with heq | hlt
      · exact heq ▸ List.mem_cons_self
      · exact List.mem_cons_of_mem _ (ih hrest hlt hu)
    · exact List.mem_singleton.mpr rfl

end Cut

section Extract

variable {share : Share K M}

/-- The bins after an extraction form a chain of the same extent. -/
theorem extract_linked (share : Share K M) (l u : K) {a : K} {bins : List (Bin K M)}
    (h : Linked a bins) :
    Linked a (extract share l u bins).2 ∧
      endpoint a (extract share l u bins).2 = endpoint a bins := by
  have hbelow := (linked_append _ _).mp (cut_linked share l h)
  have hinside := (linked_append _ _).mp (cut_linked share u hbelow.2)
  constructor
  · refine (linked_append _ _).mpr ⟨hbelow.1, (linked_append _ _).mpr ⟨?_, ?_⟩⟩
    · exact linked_cleared.mpr hinside.1
    · rw [endpoint_cleared]
      exact hinside.2
  · change endpoint a ((cut share l bins).1 ++ ((cut share u (cut share l bins).2).1.map cleared ++
      (cut share u (cut share l bins).2).2)) = endpoint a bins
    rw [endpoint_append, endpoint_append, endpoint_cleared, ← endpoint_append,
      endpoint_cut_append, ← endpoint_append, endpoint_cut_append]

/-- What is taken and what remains make up what there was. -/
theorem extract_conserves (hshare : Conserves share) (l u : K) (bins : List (Bin K M)) :
    (extract share l u bins).1 + content (extract share l u bins).2 = content bins := by
  have hbelow := content_cut hshare l bins
  have hinside := content_cut hshare u (cut share l bins).2
  change content (cut share u (cut share l bins).2).1 + content ((cut share l bins).1 ++
    ((cut share u (cut share l bins).2).1.map cleared ++ (cut share u (cut share l bins).2).2)) =
    content bins
  rw [content_append, content_append, content_cleared, zero_add, add_left_comm, hinside, hbelow]

/-- No content remains inside the range. -/
theorem extract_inside {a l u : K} {bins : List (Bin K M)} (h : Linked a bins) :
    ∀ b ∈ (extract share l u bins).2, l < b.u → b.l < u → b.c = 0 := by
  intro b hb hl hu
  have hbelow := (linked_append _ _).mp (cut_linked share l h)
  rcases List.mem_append.mp hb with hb | hb
  · exact absurd hl (not_lt_of_ge (cut_fst_upper b hb))
  · rcases List.mem_append.mp hb with hb | hb
    · obtain ⟨d, -, rfl⟩ := List.mem_map.mp hb
      rfl
    · exact absurd hu (not_lt_of_ge (cut_snd_lower hbelow.2 b hb))

/-- A bin outside the range is not changed. -/
theorem extract_outside {a l u : K} {bins : List (Bin K M)} (h : Linked a bins) {b : Bin K M}
    (hb : b ∈ bins) (hlu : l < u) (hout : b.u ≤ l ∨ u ≤ b.l) :
    b ∈ (extract share l u bins).2 := by
  have hbelow := (linked_append _ _).mp (cut_linked share l h)
  rcases hout with hl | hu
  · exact List.mem_append_left _ ((mem_cut_of_mem h hb).1 hl)
  · have hrest : b ∈ (cut share l bins).2 := (mem_cut_of_mem h hb).2 (hlu.le.trans hu)
    exact List.mem_append_right _ (List.mem_append_right _
      ((mem_cut_of_mem hbelow.2 hrest).2 hu))

omit [AddCommMonoid M] in
/-- The bins after a cut lie in bins from before, divided or not. -/
private theorem mem_cut_within {v : K} {bins : List (Bin K M)} {b : Bin K M}
    (hb : b ∈ (cut share v bins).1 ∨ b ∈ (cut share v bins).2) :
    b ∈ bins ∨ ∃ d ∈ bins, d.l ≤ b.l ∧ b.u ≤ d.u ∧ d.l < v ∧ v < d.u := by
  refine (mem_of_mem_cut hb).imp_right ?_
  rintro ⟨d, hd, hl, hu, rfl | rfl⟩
  · exact ⟨d, hd, le_rfl, hu.le, hl, hu⟩
  · exact ⟨d, hd, hl.le, le_rfl, hl, hu⟩

/-- A bin outside the range was there before, or is a part of a bin that an end of the range
divides. -/
theorem extract_outside_parts {a l u : K} {bins : List (Bin K M)} (h : Linked a bins)
    {b : Bin K M} (hb : b ∈ (extract share l u bins).2) (hout : b.u ≤ l ∨ u ≤ b.l) :
    b ∈ bins ∨ ∃ d ∈ bins, d.l ≤ b.l ∧ b.u ≤ d.u ∧ (d.l < l ∧ l < d.u ∨ d.l < u ∧ u < d.u) := by
  have hbelow := (linked_append _ _).mp (cut_linked share l h)
  rcases List.mem_append.mp hb with hb | hb
  · exact (mem_cut_within (Or.inl hb)).imp_right fun ⟨d, hd, hl, hu, hcut⟩ =>
      ⟨d, hd, hl, hu, Or.inl hcut⟩
  rcases List.mem_append.mp hb with hb | hb
  · -- a bin inside the range lies on neither side of it
    obtain ⟨d, hd, rfl⟩ := List.mem_map.mp hb
    have hlt : d.l < d.u :=
      ((linked_append _ _).mp (cut_linked share u hbelow.2)).1.lower_lt_upper hd
    have hu : d.u ≤ u := cut_fst_upper d hd
    have hl : l ≤ d.l := by
      rcases mem_cut_within (Or.inl hd) with hd | ⟨e, he, hle, -⟩
      · exact cut_snd_lower h d hd
      · exact (cut_snd_lower h e he).trans hle
    rcases hout with hout | hout
    · exact absurd (hlt.trans_le (le_trans hout hl)) (lt_irrefl _)
    · exact absurd ((hlt.trans_le hu).trans_le hout) (lt_irrefl _)
  · rcases mem_cut_within (Or.inr hb) with hb | ⟨d, hd, hdl, hdu, hcut⟩
    · exact (mem_cut_within (Or.inr hb)).imp_right fun ⟨d, hd, hl, hu, hcut⟩ =>
        ⟨d, hd, hl, hu, Or.inl hcut⟩
    · rcases mem_cut_within (Or.inr hd) with hd | ⟨e, he, hel, heu, hcut'⟩
      · exact Or.inr ⟨d, hd, hdl, hdu, Or.inr hcut⟩
      · exact Or.inr ⟨e, he, hel.trans hdl, hdu.trans heu, Or.inl hcut'⟩

/-- A property of contents that the rule keeps and zero has is kept by an extraction. -/
theorem extract_forall {good : M → Prop} (hpart : ∀ b v, good b.c → b.l < v → v < b.u →
      good (share b v).1 ∧ good (share b v).2) (hzero : good 0) (l u : K)
    {bins : List (Bin K M)} (h : ∀ b ∈ bins, good b.c) :
    ∀ b ∈ (extract share l u bins).2, good b.c := by
  obtain ⟨hbelow, habove⟩ := cut_forall hpart l h
  obtain ⟨-, hrest⟩ := cut_forall hpart u habove
  intro b hb
  rcases List.mem_append.mp hb with hb | hb
  · exact hbelow b hb
  · rcases List.mem_append.mp hb with hb | hb
    · obtain ⟨d, -, rfl⟩ := List.mem_map.mp hb
      exact hzero
    · exact hrest b hb

/-- Nothing is extracted past the end of a chain, and the chain stays as it is. -/
theorem extract_of_ge {l u : K} {bins : List (Bin K M)} (h : ∀ b ∈ bins, b.u ≤ l) :
    extract share l u bins = (0, bins) := by
  rw [extract, cut_of_ge share l h]
  exact congrArg (Prod.mk 0) (List.append_nil bins)

/-- Nothing is extracted before the start of a chain, and the chain stays as it is. -/
theorem extract_of_le {a l u : K} {bins : List (Bin K M)} (h : Linked a bins) (hlu : l < u)
    (hu : u ≤ a) : extract share l u bins = (0, bins) := by
  rw [extract, cut_of_le share l h (hlu.le.trans hu)]
  dsimp only
  rw [cut_of_le share u h hu]
  rfl

/-- Ranges that each extract nothing and change nothing do so one after another. -/
theorem extractAll_of_forall {ranges : List (K × K)} {bins : List (Bin K M)}
    (h : ∀ r ∈ ranges, extract share r.1 r.2 bins = (0, bins)) :
    extractAll share ranges bins = (List.replicate ranges.length 0, bins) := by
  induction ranges with
  | nil => rfl
  | cons r rest ih =>
    rw [extractAll, h r List.mem_cons_self, ih fun q hq => h q (List.mem_cons_of_mem _ hq)]
    rfl

/-- Past the end of a chain there is nothing for any range. -/
theorem extractAll_of_ge {ranges : List (K × K)} {bins : List (Bin K M)} (hranges : InOrder ranges)
    (h : ∀ r ∈ ranges.head?, ∀ b ∈ bins, b.u ≤ r.1) :
    extractAll share ranges bins = (List.replicate ranges.length 0, bins) := by
  refine extractAll_of_forall fun r hr => extract_of_ge fun b hb => ?_
  cases ranges with
  | nil => exact absurd hr List.not_mem_nil
  | cons first rest =>
    exact (h first rfl b hb).trans (hranges.head_le r hr)

/-- The upper edges of a chain stay edges in an extraction. -/
theorem upper_mem_extract (share : Share K M) (l u : K) {e : K} {bins : List (Bin K M)}
    (he : e ∈ bins.map Bin.u) : e ∈ (extract share l u bins).2.map Bin.u := by
  have hbelow := upper_mem_cut share l he
  rw [List.map_append, List.mem_append] at hbelow
  change e ∈ ((cut share l bins).1 ++ ((cut share u (cut share l bins).2).1.map cleared ++
    (cut share u (cut share l bins).2).2)).map Bin.u
  rw [List.map_append, List.map_append, map_upper_cleared, ← List.map_append, List.mem_append]
  exact hbelow.imp_right (upper_mem_cut share u)

/-- A chain keeps its bins in an extraction. -/
theorem extract_ne_nil {bins : List (Bin K M)} (h : bins ≠ []) (l u : K) :
    (extract share l u bins).2 ≠ [] := by
  obtain ⟨b, rest, rfl⟩ := List.exists_cons_of_ne_nil h
  have hb := upper_mem_extract share l u (List.mem_map_of_mem (f := Bin.u) (List.mem_cons_self :
    b ∈ b :: rest))
  intro hnil
  rw [hnil] at hb
  exact List.not_mem_nil hb

/-- The ends of a range that lie inside a chain become edges when the range is extracted. -/
theorem mem_upper_extract {a l u e : K} {bins : List (Bin K M)} (h : Linked a bins)
    (hlu : l < u) (he : e = l ∨ e = u) (hl : a < e) (hu : e < endpoint a bins) :
    e ∈ (extract share l u bins).2.map Bin.u := by
  change e ∈ ((cut share l bins).1 ++ ((cut share u (cut share l bins).2).1.map cleared ++
    (cut share u (cut share l bins).2).2)).map Bin.u
  rw [List.map_append, List.map_append, map_upper_cleared, List.mem_append, List.mem_append]
  rcases he with rfl | rfl
  · exact Or.inl (mem_upper_cut h hl hu)
  · have hbelow := (linked_append _ _).mp (cut_linked share l h)
    by_cases hle : a ≤ l
    · refine Or.inr (Or.inl (mem_upper_cut hbelow.2
        ((endpoint_cut share l h hle).1.trans_lt hlu) ?_))
      rw [← endpoint_append, endpoint_cut_append]
      exact hu
    · rw [cut_of_le share l h (le_of_not_ge hle)]
      exact Or.inr (Or.inl (mem_upper_cut h hl hu))

/-- The ends of ranges that lie inside a chain are edges after the ranges are extracted. -/
theorem mem_upper_extractAll {a e : K} {ranges : List (K × K)} {bins : List (Bin K M)}
    (h : Linked a bins) (hranges : ∀ r ∈ ranges, r.1 < r.2)
    (he : e ∈ bins.map Bin.u ∨ ∃ r ∈ ranges, (e = r.1 ∨ e = r.2) ∧ a < e ∧ e < endpoint a bins) :
    e ∈ (extractAll share ranges bins).2.map Bin.u := by
  induction ranges generalizing bins with
  | nil => exact he.resolve_right fun ⟨r, hr, _⟩ => absurd hr List.not_mem_nil
  | cons r rest ih =>
    have hlt := hranges r List.mem_cons_self
    obtain ⟨hlinked, hend⟩ := extract_linked share r.1 r.2 h
    refine ih hlinked (fun q hq => hranges q (List.mem_cons_of_mem _ hq)) ?_
    rcases he with he | ⟨q, hq, hends, hl, hu⟩
    · exact Or.inl (upper_mem_extract share r.1 r.2 he)
    · rcases List.mem_cons.mp hq with rfl | hq
      · exact Or.inl (mem_upper_extract h hlt hends hl hu)
      · exact Or.inr ⟨q, hq, hends, hl, hend.symm ▸ hu⟩

/-- Ranges between ascending points are in order. -/
theorem Ascending.inOrder {a : K} {points : List K} (h : Ascending a points) :
    InOrder (ranges a points) := by
  induction points generalizing a with
  | nil => exact trivial
  | cons v rest ih =>
    refine ⟨h.1, ?_, ih h.2⟩
    cases rest with
    | nil => exact fun next hnext => absurd hnext (Option.not_mem_none next)
    | cons w rest =>
      intro next hnext
      rw [← Option.some.inj hnext]

omit [AddCommMonoid M] in
/-- Bins before a point are not changed by cutting there. -/
theorem cut_append_of_le {v : K} {xs : List (Bin K M)} (ys : List (Bin K M))
    (h : ∀ b ∈ xs, b.u ≤ v) :
    cut share v (xs ++ ys) = (xs ++ (cut share v ys).1, (cut share v ys).2) := by
  induction xs with
  | nil => rfl
  | cons b rest ih =>
    rw [List.cons_append, cut, if_pos (h b List.mem_cons_self),
      ih fun d hd => h d (List.mem_cons_of_mem _ hd)]
    rfl

omit [AddCommMonoid M] in
/-- Cutting divides a chain that consists of what lies below and above a point into these. -/
theorem cut_append {v s : K} {below above : List (Bin K M)} (hbelow : ∀ b ∈ below, b.u ≤ v)
    (hlink : Linked s above) (habove : ∀ b ∈ above, v ≤ b.l) :
    cut share v (below ++ above) = (below, above) := by
  have hall : cut share v above = ([], above) := by
    cases above with
    | nil => rfl
    | cons b rest => exact cut_of_le share v hlink (hlink.1 ▸ habove b List.mem_cons_self)
  rw [cut_append_of_le above hbelow, hall, List.append_nil]

/-- Bins below the first range give nothing to the ranges. -/
private theorem extractAll_ranges_append (share : Share K M) {points : List K} {e s : K}
    {below above : List (Bin K M)}
    (hasc : Ascending e points) (hbelow : ∀ b ∈ below, b.u ≤ e) (hlink : Linked s above)
    (habove : ∀ b ∈ above, e ≤ b.l) :
    (extractAll share (ranges e points) (below ++ above)).1 = (allot share points above).1 ∧
      content (extractAll share (ranges e points) (below ++ above)).2 =
        content below + content (allot share points above).2 := by
  induction points generalizing e s below above with
  | nil => exact ⟨rfl, content_append below above⟩
  | cons v rest ih =>
    obtain ⟨hev, hasc⟩ := hasc
    have hextract : extract share e v (below ++ above) =
        (content (cut share v above).1,
          below ++ (cut share v above).1.map cleared ++ (cut share v above).2) := by
      rw [extract, cut_append hbelow hlink habove, List.append_assoc]
    have hupper : ∀ b ∈ below ++ (cut share v above).1.map cleared, b.u ≤ v := by
      intro b hb
      rcases List.mem_append.mp hb with hb | hb
      · exact (hbelow b hb).trans hev.le
      · obtain ⟨d, hd, rfl⟩ := List.mem_map.mp hb
        exact cut_fst_upper d hd
    obtain ⟨hcounts, hleft⟩ := ih hasc hupper
      ((linked_append _ _).mp (cut_linked share v hlink)).2 (cut_snd_lower hlink)
    rw [content_append, content_cleared, add_zero] at hleft
    rw [ranges, extractAll, hextract, allot]
    exact ⟨congrArg (content (cut share v above).1 :: ·) hcounts, hleft⟩

/-- Extraction over the ranges between ascending points allots what lies above the first point
and leaves what lies below it in place. -/
theorem extractAll_ranges (hshare : Conserves share) {points : List K} {a e : K}
    {bins : List (Bin K M)} (h : Linked a bins) (hasc : Ascending e points) :
    (extractAll share (ranges e points) bins).1 = (allot share points (cut share e bins).2).1 ∧
      content (extractAll share (ranges e points) bins).2 =
        content (cut share e bins).1 + content (allot share points (cut share e bins).2).2 := by
  have hlink := ((linked_append _ _).mp (cut_linked share e h)).2
  have hbelow : ∀ b ∈ (cut share e bins).1, b.u ≤ e := cut_fst_upper
  have happend := extractAll_ranges_append share hasc hbelow
    hlink (cut_snd_lower h)
  cases points with
  | nil => exact ⟨rfl, (content_cut hshare e bins).symm⟩
  | cons v rest =>
    have hextract : extract share e v ((cut share e bins).1 ++ (cut share e bins).2) =
        extract share e v bins := by
      rw [extract, cut_append cut_fst_upper hlink (cut_snd_lower h), extract]
    rw [ranges, extractAll, hextract] at happend
    exact happend

end Extract

end IntervalChain
