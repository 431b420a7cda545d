import Chimbuko.Library.TransitionSystem
import Chimbuko.Util.HistogramLinkedAgree

/-!
# Cutting and extracting bins conserves counts

Runs of splits and extractions over the linked bins of a histogram with extent. At every point the
bins form an ordered chain without gaps between the original outer edges, all pointers are in
order and no count is negative. A split shares out the count of one bin, and an extraction returns
what it takes from its range and leaves the rest where it was.
-/

namespace Chimbuko

open IntervalChain LinkedCells

namespace LinkedHistogram

open HistogramVBW (Bin splitCounts splitCounts_conserves splitCounts_nonneg)
open TransitionSystem

/-- The operations on the bins of a histogram. -/
inductive Op
  | split (bin : ℕ) (about : ℚ)
  | extract (l u : ℚ)

/-- What an operation does. -/
def exec (s : LinkedHistogram) : Op → Except String LinkedHistogram
  | .split bin about => do
    let (mem, _, _) ← split s.mem bin about
    pure { s with mem := mem }
  | .extract l u => do
    let (_, s) ← extractUniformCountInRangeInt s l u
    pure s

/-- The pointer is to a bin of the histogram, and the point lies inside that bin. -/
def Inside (s : LinkedHistogram) (bin : ℕ) (about : ℚ) : Prop :=
  ∃ e cells b, s.first = some (address e cells 0) ∧ s.endMarker = some e ∧
    Represents s.mem e cells ∧ (bin, b) ∈ cells ∧ b.l < about ∧ about ≤ b.u

/-- Splits are at points inside bins, and ranges have extent. -/
def Proper (s : LinkedHistogram) : Op → Prop
  | .split bin about => s.Inside bin about
  | .extract l u => l < u

/-- The histogram holds these bins, which form a chain between the edges of the histogram it was
imported from, without negative counts. -/
structure Intact (h : Histogram) (s : LinkedHistogram) (bins : List Bin) : Prop where
  views : s.Views { bins := bins, min := h.getMin, max := h.getMax }
  ne_nil : bins ≠ []
  linked : Linked h.start bins
  endpoint_eq : endpoint h.start bins = h.getMax
  nonneg : ∀ b ∈ bins, 0 ≤ b.c

/-- What a split of one bin leaves: the bins as they are if the point is the upper edge, and
otherwise the two parts of the bin, which share its count. -/
def SplitBins (about : ℚ) (bins bins' : List Bin) : Prop :=
  ∃ pre b post, bins = pre ++ b :: post ∧ b.l < about ∧
    (about = b.u ∧ bins' = bins ∨
      about < b.u ∧ ∃ lower upper, bins' = pre ++ lower :: upper :: post ∧ lower.l = b.l ∧
        lower.u = about ∧ upper.l = about ∧ upper.u = b.u ∧ lower.c + upper.c = b.c)

/-- What an extraction leaves: no count inside the range, and outside it the same bins, but for
those that an end of the range divides. -/
structure ExtractBins (l u : ℚ) (count : ℤ) (bins bins' : List Bin) : Prop where
  removed : count + content bins' = content bins
  inside : ∀ b ∈ bins', l < b.u → b.l < u → b.c = 0
  kept : ∀ b ∈ bins, b.u ≤ l ∨ u ≤ b.l → b ∈ bins'
  outside : ∀ b ∈ bins', b.u ≤ l ∨ u ≤ b.l → b ∈ bins ∨
    ∃ d ∈ bins, d.l ≤ b.l ∧ b.u ≤ d.u ∧ (d.l < l ∧ l < d.u ∨ d.l < u ∧ u < d.u)

/-- Splitting a bin keeps the chain intact. -/
theorem Intact.split {h : Histogram} {s : LinkedHistogram} {bins : List Bin}
    (hs : Intact h s bins) {bin : ℕ} {about : ℚ} (hin : s.Inside bin about) :
    ∃ s' bins', exec s (.split bin about) = .ok s' ∧ Intact h s' bins' ∧
      SplitBins about bins bins' := by
  obtain ⟨e, cells, b, hfirst, hend, hrep, hmem, hl, hu⟩ := hin
  have hbins : cells ≠ [] ∧ cells.map Prod.snd = bins := by
    obtain ⟨-, -, ⟨hnull, -⟩ | ⟨e', cells', hne', hfirst', hend', hrep', hbins'⟩⟩ := hs.views
    · rw [hfirst] at hnull
      exact absurd hnull (Option.some_ne_none _)
    · obtain rfl : e = e' := Option.some.inj (hend.symm.trans hend')
      have hsame := hrep.unique hrep' (Option.some.inj (hfirst.symm.trans hfirst'))
      exact ⟨hsame ▸ hne', hsame ▸ hbins'⟩
  obtain ⟨pre, post, rfl⟩ := List.append_of_mem hmem
  obtain ⟨hne, rfl⟩ := hbins
  have hbins' : (pre ++ (bin, b) :: post).map Prod.snd =
      pre.map Prod.snd ++ b :: post.map Prod.snd := List.map_append
  have hlength : (pre.map Prod.snd).length = pre.length := List.length_map _
  have hagree := split_agree hrep (show pre.length ≤ _ by simp) about
  rw [address_self, hbins', ← hlength] at hagree
  -- the state after the split, from the bins after the split
  have hstep : ∀ {bins' : List Bin},
      HistogramVBW.split (pre.map Prod.snd ++ b :: post.map Prod.snd) (pre.map Prod.snd).length
        about = .ok (bins', (pre.map Prod.snd).length, (pre.map Prod.snd).length + 1) →
      ∃ s', exec s (.split bin about) = .ok s' ∧
        s'.Views { bins := bins', min := h.getMin, max := h.getMax } := by
    intro bins' hsplit
    rw [hsplit] at hagree
    obtain ⟨⟨mem', lp, rp⟩, hexec, cells', hrep', hcells', hkeep, -, hlt, -⟩ := hagree.of_ok
    refine ⟨{ s with mem := mem' }, ?_, hs.views.1, hs.views.2.1, Or.inr ⟨e, cells',
      List.ne_nil_of_length_pos (Nat.zero_lt_of_lt hlt), ?_, hend, hrep', hcells'⟩⟩
    · rw [exec, hexec]
      rfl
    · exact hfirst.trans (congrArg some (hkeep 0 (Nat.zero_le _)).symm)
  rw [hbins'] at hs ⊢
  obtain ⟨hlinked, hlinked'⟩ := (linked_append _ _).mp hs.linked
  by_cases hedge : about = b.u
  · subst hedge
    obtain ⟨s', hexec, hviews⟩ := hstep (HistogramVBW.split_edge _ _ hl)
    exact ⟨s', _, hexec, ⟨hviews, hs.ne_nil, hs.linked, hs.endpoint_eq, hs.nonneg⟩, _, b, _, rfl,
      hl, Or.inl ⟨rfl, rfl⟩⟩
  · have hu' := lt_of_le_of_ne hu hedge
    obtain ⟨s', hexec, hviews⟩ := hstep (HistogramVBW.split_inside _ _ hl hu')
    obtain ⟨hlower, hupper⟩ := splitCounts_nonneg (hs.nonneg b (by simp)) hl hu'
    refine ⟨s', _, hexec, ⟨hviews, by simp, ?_, ?_, fun d hd => ?_⟩, _, b, _, rfl, hl,
      Or.inr ⟨hu', _, _, rfl, rfl, rfl, rfl, rfl, splitCounts_conserves b about⟩⟩
    · exact (linked_append _ _).mpr ⟨hlinked, hlinked'.1, hl, rfl, hu', hlinked'.2.2⟩
    · have hend' := hs.endpoint_eq
      rw [endpoint_append] at hend' ⊢
      exact hend'
    · rcases List.mem_append.mp hd with hd | hd
      · exact hs.nonneg d (List.mem_append_left _ hd)
      · rcases List.mem_cons.mp hd with rfl | hd
        · exact hlower
        · rcases List.mem_cons.mp hd with rfl | hd
          · exact hupper
          · exact hs.nonneg d (List.mem_append_right _ (List.mem_cons_of_mem _ hd))

/-- Extracting counts keeps the chain intact. -/
theorem Intact.extract {h : Histogram} (hextent : h.getMin < h.getMax) {s : LinkedHistogram}
    {bins : List Bin} (hs : Intact h s bins) {l u : ℚ} (hlu : l < u) :
    ∃ count s' bins', extractUniformCountInRangeInt s l u = .ok (count, s') ∧
      Intact h s' bins' ∧ 0 ≤ count ∧ ExtractBins l u count bins bins' := by
  have hrun := HistogramVBW.extractUniformCountInRangeInt_eq
    (h := { bins := bins, min := h.getMin, max := h.getMax }) hs.linked hs.ne_nil hextent.ne' hlu
  have hagree := extractUniformCountInRangeInt_agree hs.views l u
  rw [hrun] at hagree
  obtain ⟨⟨count, s'⟩, hexec, hcount, hviews⟩ := hagree.of_ok
  obtain ⟨hlinked, hend⟩ := extract_linked splitCounts l u hs.linked
  obtain rfl : count = (IntervalChain.extract splitCounts l u bins).1 := hcount
  refine ⟨_, s', (IntervalChain.extract splitCounts l u bins).2, hexec, ⟨hviews,
    extract_ne_nil hs.ne_nil l u, hlinked, hend.trans hs.endpoint_eq,
    extract_forall (fun b v => splitCounts_nonneg) le_rfl l u hs.nonneg⟩, ?_,
    ⟨extract_conserves splitCounts_conserves l u bins, extract_inside hs.linked,
      fun b hb => extract_outside hs.linked hb hlu, fun b hb =>
        extract_outside_parts hs.linked hb⟩⟩
  have hpart : ∀ (b : Bin) (v : ℚ), 0 ≤ b.c → b.l < v → v < b.u →
      0 ≤ (splitCounts b v).1 ∧ 0 ≤ (splitCounts b v).2 := fun b v => splitCounts_nonneg
  exact HistogramVBW.content_nonneg
    (cut_forall hpart u (cut_forall hpart l hs.nonneg).2).1

/-- The bins of an imported histogram. -/
theorem intact_import {h : Histogram} (hv : h.Valid) (he : h.Extended) :
    ∃ s, importHistogram h = .ok s ∧ Intact h s h.bins := by
  have hagree := importHistogram_agree h
  rw [HistogramVBW.importHistogram_ok hv.nbin_pos he.1.le he.2.le] at hagree
  obtain ⟨s, hrun, hviews⟩ := hagree.of_ok
  obtain ⟨hlinked, hend⟩ := Histogram.linked_bins hv.nbin_pos he
  exact ⟨s, hrun, hviews, Histogram.bins_ne_nil hv.nbin_pos, hlinked, hend, h.bins_nonneg⟩

/-- In every run of proper operations on the imported bins of a histogram with extent, the bins
stay intact, every further split and extraction succeeds and conserves the counts, and the total
is that of the bins. A histogram without bins has nothing to split, and extraction says so. -/
theorem conserves_counts {h : Histogram} (hh : h.Produced) (hextent : h.getMin < h.getMax) :
    ∃ start, importHistogram h = .ok start ∧
      ∀ s, Runs (StepOf exec) Proper start s →
        if h.nbin = 0 then
          s.first = none ∧ (∀ bin about, ¬s.Inside bin about) ∧
            ∀ l u, l < u → extractUniformCountInRangeInt s l u = .error "Histogram is empty"
        else
          ∃ bins, Intact h s bins ∧ s.totalCount = .ok (content bins) ∧
            (∀ bin about, s.Inside bin about →
              ∃ s' bins', exec s (.split bin about) = .ok s' ∧ Intact h s' bins' ∧
                SplitBins about bins bins') ∧
            ∀ l u, l < u → ∃ count s' bins',
              extractUniformCountInRangeInt s l u = .ok (count, s') ∧ Intact h s' bins' ∧
                0 ≤ count ∧ ExtractBins l u count bins bins' := by
  by_cases hn : h.nbin = 0
  · refine ⟨{ mem := [], first := none, endMarker := none, min := 0, max := 0 }, ?_,
      fun s hrun => ?_⟩
    · rw [importHistogram, if_pos hn]
      rfl
    have hinside : ∀ {s : LinkedHistogram}, s.first = none → ∀ bin about, ¬s.Inside bin about := by
      rintro s hnull bin about ⟨e, cells, b, hfirst, -⟩
      exact absurd (hfirst.symm.trans hnull) (Option.some_ne_none _)
    have hextract : ∀ {s : LinkedHistogram}, s.first = none → ∀ l u, l < u →
        extractUniformCountInRangeInt s l u = .error "Histogram is empty" := by
      intro s hnull l u hlu
      rw [extractUniformCountInRangeInt, if_neg (not_le_of_gt hlu), hnull]
      rfl
    have hnull : s.first = none := by
      refine hrun.invariant (fun s => s.first = none) rfl fun s a t hs hproper hstep => ?_
      cases a with
      | split bin about => exact absurd hproper (hinside hs bin about)
      | extract l u =>
        rw [StepOf, exec, hextract hs l u hproper] at hstep
        cases hstep
    rw [if_pos hn]
    exact ⟨hnull, hinside hnull, hextract hnull⟩
  · have hv := hh.valid (Nat.pos_of_ne_zero hn)
    have he : h.Extended := hv.extent.resolve_right fun hpoint =>
      absurd hextent (not_lt_of_ge (hpoint.2.trans_le hv.start_le_min))
    obtain ⟨start, himport, hstart⟩ := intact_import hv he
    refine ⟨start, himport, fun s hrun => ?_⟩
    have hintact : ∃ bins, Intact h s bins := by
      refine hrun.invariant (fun s => ∃ bins, Intact h s bins) ⟨_, hstart⟩ ?_
      rintro s a t ⟨bins, hs⟩ hproper hstep
      cases a with
      | split bin about =>
        obtain ⟨s', bins', hexec, hs', -⟩ := hs.split hproper
        obtain rfl := Except.ok.inj (hexec.symm.trans hstep)
        exact ⟨bins', hs'⟩
      | extract l u =>
        obtain ⟨count, s', bins', hexec, hs', -⟩ := hs.extract hextent hproper
        rw [StepOf, exec, hexec] at hstep
        obtain rfl := Except.ok.inj hstep
        exact ⟨bins', hs'⟩
    obtain ⟨bins, hs⟩ := hintact
    rw [if_neg hn]
    exact ⟨bins, hs, totalCount_eq hs.views, fun bin about hin => hs.split hin,
      fun l u hlu => hs.extract hextent hlu⟩

/-- Two ranges and a split, applied to two bins of three counts each. -/
theorem conserves_counts_twoBins :
    ∃ h start s, Histogram.setHistogram [3, 3] 0 2 0 1 = .ok h ∧
      importHistogram h = .ok start ∧ exec start (.extract (1 / 2) (3 / 2)) = .ok s ∧
      ∃ bins, Intact h s bins := by
  let h : Histogram := { counts := [3, 3], start := 0, binWidth := 1, min := 0, max := 2 }
  have hh : Histogram.setHistogram [3, 3] 0 2 0 1 = .ok h := by decide +kernel
  obtain ⟨start, himport, hruns⟩ := conserves_counts (.setHistogram hh) (by decide +kernel)
  obtain ⟨bins, -, -, -, hextract⟩ := (if_neg (by decide)).mp (hruns start .refl)
  obtain ⟨count, s, bins', hrun, hs, -⟩ := hextract (1 / 2) (3 / 2) (by norm_num)
  refine ⟨h, start, s, hh, himport, ?_, bins', hs⟩
  rw [exec, hrun]
  rfl

end LinkedHistogram

end Chimbuko
