import Chimbuko.Library.TransitionSystem
import Chimbuko.Util.HistogramSound

/-!
# The operations of a histogram in any order

A construction is a tree of the operations of the class. Every histogram with bins that is made on
the way meets the representation invariant, and keeps to the cap of the rule it was made with,
exactly if the inputs of every step meet a condition: set contents need a width, given extremes an
order, a cap has to see the bins it bounds, and bins can only be negated if their first edge was
placed as negation places it.
-/

namespace Chimbuko

open Histogram TransitionSystem

section Operations

variable [LibM]

namespace Histogram

/-- Every value that the bins represent, as often as it was counted. -/
def unpack (h : Histogram) : List ℚ :=
  (List.range h.nbin).flatMap fun i => List.replicate (h.binCount i) (h.binValue i)

/-- Merge a histogram with data: the histogram of the values it represents and the data. -/
def mergeRuntimes (g : Histogram) (runtimes : List ℚ) (bwspec : BinWidthSpecifier) :
    Except String Histogram :=
  createHistogram (g.unpack ++ runtimes) bwspec

/-- How a histogram is made: the operations of the class, in any order. -/
inductive Construction
  | empty
  | createHistogram (rTimes : List ℚ) (bwspec : BinWidthSpecifier)
  | createHistogramIn (data : List ℚ) (min max start : ℚ) (nbin : ℤ) (binWidth : ℚ)
  | setHistogram (counts : List ℕ) (min max start binWidth : ℚ)
  | mergeHistograms (g l : Construction) (bwspec : BinWidthSpecifier)
  | mergeRuntimes (g : Construction) (runtimes : List ℚ) (bwspec : BinWidthSpecifier)
  | negate (c : Construction)

namespace Construction

/-- The histogram that is made. -/
def eval : Construction → Except String Histogram
  | empty => pure Histogram.empty
  | createHistogram rTimes bwspec => Histogram.createHistogram rTimes bwspec
  | createHistogramIn data min max start nbin binWidth =>
    Histogram.createHistogramIn data min max start nbin binWidth
  | setHistogram counts min max start binWidth =>
    Histogram.setHistogram counts min max start binWidth
  | mergeHistograms g l bwspec => do
    let g ← g.eval
    let l ← l.eval
    Histogram.mergeHistograms g l bwspec
  | mergeRuntimes g runtimes bwspec => do
    let g ← g.eval
    g.mergeRuntimes runtimes bwspec
  | negate c => do
    let h ← c.eval
    pure h.negate

/-- A property of the constructions of the inputs of the last step. -/
def Before (P : Construction → Prop) : Construction → Prop
  | mergeHistograms g l _ => P g ∧ P l
  | mergeRuntimes g _ _ => P g
  | negate c => P c
  | _ => True

/-- A property of every step of a construction. -/
def Every (P : Construction → Prop) : Construction → Prop
  | mergeHistograms g l bwspec => (g.Every P ∧ l.Every P) ∧ P (mergeHistograms g l bwspec)
  | mergeRuntimes g runtimes bwspec => g.Every P ∧ P (mergeRuntimes g runtimes bwspec)
  | negate c => c.Every P ∧ P (negate c)
  | c => P c

omit [LibM] in
/-- What holds of every operation holds of the last one. -/
theorem Every.last {P : Construction → Prop} {c : Construction} (h : c.Every P) : P c := by
  cases c with
  | mergeHistograms => exact h.2
  | mergeRuntimes => exact h.2
  | negate => exact h.2
  | empty => exact h
  | createHistogram => exact h
  | createHistogramIn => exact h
  | setHistogram => exact h

/-- The last step uses a rule with a cap on the number of bins. -/
def Capped (m : ℤ) : Construction → Prop
  | createHistogram _ bwspec => ∃ uncapped, bwspec.MaxNbin m uncapped
  | mergeHistograms _ _ bwspec => ∃ uncapped, bwspec.MaxNbin m uncapped
  | mergeRuntimes _ _ bwspec => ∃ uncapped, bwspec.MaxNbin m uncapped
  | _ => False

/-- A result meets the invariant, would be accepted as it is, and keeps to a cap of the last
step. -/
def KeptBy (c : Construction) (h : Histogram) : Prop :=
  h.Sound ∧ Histogram.setHistogram h.counts h.getMin h.getMax h.start h.binWidth = .ok h ∧
    ∀ m, c.Capped m → (h.nbin : ℤ) ≤ m

/-- The last step fails, yields a histogram without bins, or one that meets the invariant. -/
def Kept (c : Construction) : Prop := ∀ h, c.eval = .ok h → h.nbin ≠ 0 → c.KeptBy h

/-- A histogram is kept if it is sound and meets the caps. -/
theorem keptBy_iff {c : Construction} {h : Histogram} :
    c.KeptBy h ↔ h.Sound ∧ ∀ m, c.Capped m → (h.nbin : ℤ) ≤ m :=
  ⟨fun hkept => ⟨hkept.1, hkept.2.2⟩, fun hkept => ⟨hkept.1, hkept.1.setHistogram_ok, hkept.2⟩⟩

/-- Data whose bins have their first edge where negation places it: they do not all agree, and the
suggested bin width is hardly narrowed. -/
def PlacedData (rTimes : List ℚ) (bwspec : BinWidthSpecifier) : Prop :=
  ∃ lo hi w : ℚ, dataRange rTimes = (↑lo, ↑hi) ∧ lo < hi ∧
    bwspec.binWidth rTimes lo hi = .ok w ∧ NearlyAdjusted lo hi w

/-- Given bins whose first edge lies where negation places it: the gaps at both ends make up the
shift of a first edge. -/
def PlacedBins (min max start nbin binWidth : ℚ) : Prop :=
  |(min - start) + (start + nbin * binWidth - max) - getLowerBoundShiftMul * binWidth| ≤
    1 / 100000000 * binWidth

/-- A merger of histograms with bins whose first edge lies where negation places it. -/
def PlacedMerger (g l : Histogram) (bwspec : BinWidthSpecifier) : Prop :=
  ∃ w, mergedBinWidth g l bwspec (mergedMin g l) (mergedMax g l) = .ok w ∧
    NearlyAdjusted (mergedMin g l) (mergedMax g l) w

/-- The step that placed the first edge placed it as negation does. -/
def Placed : Construction → Prop
  | empty => True
  | createHistogram rTimes bwspec => PlacedData rTimes bwspec
  | createHistogramIn _ min max start nbin binWidth => PlacedBins min max start nbin binWidth
  | setHistogram counts min max start binWidth =>
    PlacedBins min max start counts.length binWidth
  | mergeHistograms g l bwspec => ∀ g' l', g.eval = .ok g' → l.eval = .ok l' →
    if g'.nbin = 0 then l.Placed
    else if l'.nbin = 0 then g.Placed
    else PlacedMerger g' l' bwspec
  | mergeRuntimes g runtimes bwspec =>
    ∀ g', g.eval = .ok g' → PlacedData (g'.unpack ++ runtimes) bwspec
  | negate _ => True

/-- The condition for a cap to hold of a merger, with the rule without the cap: an input that is
returned has to keep to it, and it has to see the bins of a merger or to allow for those of the
narrower bin width. -/
structure MergeKeeps (m : ℤ) (uncapped : BinWidthSpecifier) (g l : Histogram) : Prop where
  local_le : g.nbin = 0 → (l.nbin : ℤ) ≤ m
  global_le : l.nbin = 0 → (g.nbin : ℤ) ≤ m
  seen : g.nbin ≠ 0 → l.nbin ≠ 0 →
    ∀ width, uncapped.binWidthMerge g l (mergedMin g l) (mergedMax g l) = .ok width →
      SeenByCap width (mergedMin g l) (mergedMax g l) ∨
        ((adjustedBins (mergedMin g l) (mergedMax g l) (Min.min g.binWidth l.binWidth)).nbin : ℤ) ≤ m

/-- The condition on the inputs of the last step. -/
def Meets : Construction → Prop
  | createHistogramIn _ min max _ _ _ => min ≤ max
  | setHistogram _ _ _ _ binWidth => 0 < binWidth
  | negate c => c.Placed
  | createHistogram _ bwspec => ∀ m uncapped, bwspec.MaxNbin m uncapped → 1 ≤ m
  | mergeRuntimes _ _ bwspec => ∀ m uncapped, bwspec.MaxNbin m uncapped → 1 ≤ m
  | mergeHistograms g l bwspec => ∀ m uncapped, bwspec.MaxNbin m uncapped → 1 ≤ m ∧
      ∀ g' l', g.eval = .ok g' → l.eval = .ok l' → MergeKeeps m uncapped g' l'
  | empty => True

/-- The last step fails, yields a histogram without bins, or has inputs that meet the condition. -/
def Proper (c : Construction) : Prop := ∀ h, c.eval = .ok h → h.nbin ≠ 0 → c.Meets

omit [LibM] in
/-- Data have their first edge where negation places it. -/
private theorem placedData_iff {rTimes : List ℚ} {bwspec : BinWidthSpecifier} {h : Histogram}
    (hrun : Histogram.createHistogram rTimes bwspec = .ok h) :
    PlacedData rTimes bwspec ↔ h.NegatesExactly := by
  obtain ⟨lo, hi, hrange, hcases⟩ := createHistogram_cases hrun
  have hsame : ∀ {lo' hi' : ℚ}, dataRange rTimes = (↑lo', ↑hi') → lo' = lo ∧ hi' = hi := by
    intro lo' hi' hrange'
    have heq := hrange'.symm.trans hrange
    exact ⟨WithTop.coe_injective (congrArg Prod.fst heq),
      WithBot.coe_injective (congrArg Prod.snd heq)⟩
  cases hcases with
  | inl hdelta =>
    obtain ⟨heq, rfl⟩ := hdelta
    constructor
    · rintro ⟨lo', hi', w, hrange', hlt, -⟩
      obtain ⟨rfl, rfl⟩ := hsame hrange'
      exact absurd heq hlt.ne
    · exact fun hexact => absurd hexact (not_negatesExactly_deltaBin lo _)
  | inr hfill =>
    obtain ⟨hlt, w, hwidth, hfill⟩ := hfill
    rw [(fillHistogram_adjusted hfill).1.negatesExactly_iff hlt.le]
    constructor
    · rintro ⟨lo', hi', w', hrange', -, hwidth', hnear⟩
      obtain ⟨rfl, rfl⟩ := hsame hrange'
      obtain rfl := Except.ok.inj (hwidth.symm.trans hwidth')
      exact hnear
    · exact fun hnear => ⟨lo, hi, w, hrange, hlt, hwidth, hnear⟩

omit [LibM] in
/-- Given bins have their first edge where negation places it. -/
private theorem placedBins_iff {h : Histogram} {min max start nbin binWidth : ℚ}
    (hnbin : h.nbin = nbin) (hw : h.binWidth = binWidth) (hmin : h.min = min) (hmax : h.max = max) :
    PlacedBins min max start nbin binWidth ↔ h.NegatesExactly := by
  have hlo : h.getMin = min := by rw [getMin, hmin]; rfl
  have hhi : h.getMax = max := by rw [getMax, hmax]; rfl
  unfold PlacedBins NegatesExactly
  rw [hlo, hhi, hw, hnbin]
  rw [show min - start + (start + nbin * binWidth - max) - getLowerBoundShiftMul * binWidth =
    min - max + (nbin - getLowerBoundShiftMul) * binWidth by ring]

omit [LibM] in
/-- Mergers have their first edge where negation places it. -/
private theorem placedMerger_iff {g l : Histogram} (hg : g.Sound) (hl : l.Sound)
    {bwspec : BinWidthSpecifier} {merged : Merged}
    (hrun : mergeNonEmpty g l bwspec = .ok merged) :
    PlacedMerger g l bwspec ↔ merged.combined.NegatesExactly := by
  obtain ⟨w, hw, hadj⟩ := mergeNonEmpty_adjusted hg hl hrun
  rw [hadj.negatesExactly_iff (mergedMin_le_mergedMax hg.valid)]
  constructor
  · rintro ⟨w', hw', hnear⟩
    obtain rfl := Except.ok.inj (hw.symm.trans hw')
    exact hnear
  · exact fun hnear => ⟨w, hw, hnear⟩

/-- If every step keeps the invariant then the result is negated exactly if the step that placed
the first edge placed it as negation does. -/
theorem placed_iff {c : Construction} (hkept : c.Every Kept) {h : Histogram}
    (hrun : c.eval = .ok h) (hpos : h.nbin ≠ 0) : c.Placed ↔ h.NegatesExactly := by
  induction c generalizing h with
  | empty =>
    cases hrun
    exact absurd rfl hpos
  | createHistogram rTimes bwspec => exact placedData_iff hrun
  | createHistogramIn data min max start nbin binWidth =>
    obtain ⟨-, hnbin, -, -, -, -, hw, hmin, hmax⟩ := createHistogramIn_edges hrun
    exact placedBins_iff hnbin hw hmin hmax
  | setHistogram counts min max start binWidth =>
    obtain ⟨-, -, -, -, -, hw, hmin, hmax⟩ := setHistogram_edges hrun
    exact placedBins_iff (by rw [setHistogram_nbin hrun]) hw hmin hmax
  | mergeHistograms g l bwspec ihg ihl =>
    obtain ⟨g', hg, hrun⟩ := bind_eq_ok hrun
    obtain ⟨l', hl, hrun⟩ := bind_eq_ok hrun
    have honly : (mergeHistograms g l bwspec).Placed ↔
        if g'.nbin = 0 then l.Placed
        else if l'.nbin = 0 then g.Placed
        else PlacedMerger g' l' bwspec := by
      constructor
      · exact fun hplaced => hplaced g' l' hg hl
      · intro hplaced g'' l'' hg' hl'
        obtain rfl := Except.ok.inj (hg.symm.trans hg')
        obtain rfl := Except.ok.inj (hl.symm.trans hl')
        exact hplaced
    rw [honly]
    unfold Histogram.mergeHistograms at hrun
    by_cases hgzero : g'.nbin = 0
    · rw [if_pos hgzero] at hrun ⊢
      cases hrun
      exact ihl hkept.1.2 hl hpos
    by_cases hlzero : l'.nbin = 0
    · rw [if_neg hgzero, if_pos hlzero] at hrun ⊢
      cases hrun
      exact ihg hkept.1.1 hg hpos
    · rw [if_neg hgzero, if_neg hlzero] at hrun ⊢
      obtain ⟨merged, hmerge, hrun⟩ := bind_eq_ok hrun
      cases hrun
      exact placedMerger_iff (hkept.1.1.last g' hg hgzero).1 (hkept.1.2.last l' hl hlzero).1 hmerge
  | mergeRuntimes g runtimes bwspec =>
    obtain ⟨g', hg, hrun⟩ := bind_eq_ok hrun
    rw [← placedData_iff hrun]
    constructor
    · exact fun hplaced => hplaced g' hg
    · intro hplaced g'' hg'
      obtain rfl := Except.ok.inj (hg.symm.trans hg')
      exact hplaced
  | negate c =>
    -- what was negated exactly is so again
    refine ⟨fun _ => ?_, fun _ => trivial⟩
    have hsound := (hkept.2 h hrun hpos).1
    obtain ⟨h', hc, hrun⟩ := bind_eq_ok hrun
    cases hrun
    rw [negate_nbin] at hpos
    have hexact := (negate_sound_iff (hkept.1.last h' hc hpos).1).mp hsound
    unfold NegatesExactly at hexact ⊢
    rw [negate_nbin]
    change |-h'.getMax - -h'.getMin + (h'.nbin - getLowerBoundShiftMul) * h'.binWidth| ≤ _
    rwa [show -h'.getMax - -h'.getMin = h'.getMin - h'.getMax by ring]

/-- Data make histograms that keep to a cap exactly if the cap allows for a bin. -/
private theorem created_iff {rTimes : List ℚ} {bwspec : BinWidthSpecifier} {h : Histogram}
    (hrun : Histogram.createHistogram rTimes bwspec = .ok h) :
    (h.Sound ∧ ∀ m, (∃ uncapped, bwspec.MaxNbin m uncapped) → (h.nbin : ℤ) ≤ m) ↔
      ∀ m uncapped, bwspec.MaxNbin m uncapped → 1 ≤ m := by
  have hs := createHistogram_sound hrun
  constructor
  · intro hkept m uncapped hm
    have := hkept.2 m ⟨uncapped, hm⟩
    have hpos := hs.nbin_pos
    omega
  · intro hmeets
    refine ⟨hs, ?_⟩
    rintro m ⟨uncapped, hm⟩
    exact hm.createHistogram_nbin_le (hmeets m uncapped hm) hrun

/-- Mergers of histograms that meet the invariant keep to a cap exactly if the cap allows for a
bin, and their inputs meet the condition for the cap. -/
private theorem merged_iff {g l : Histogram} {bwspec : BinWidthSpecifier} {h : Histogram}
    (hg : g.nbin ≠ 0 → g.Sound) (hl : l.nbin ≠ 0 → l.Sound)
    (hrun : Histogram.mergeHistograms g l bwspec = .ok h) (hpos : h.nbin ≠ 0) :
    (h.Sound ∧ ∀ m, (∃ uncapped, bwspec.MaxNbin m uncapped) → (h.nbin : ℤ) ≤ m) ↔
      ∀ m uncapped, bwspec.MaxNbin m uncapped → 1 ≤ m ∧ MergeKeeps m uncapped g l := by
  unfold Histogram.mergeHistograms at hrun
  split at hrun
  · rename_i hgzero
    cases hrun
    constructor
    · intro hkept m uncapped hm
      have := hkept.2 m ⟨uncapped, hm⟩
      exact ⟨by omega, fun _ => this, fun hzero => absurd hzero hpos,
        fun hne => absurd hgzero hne⟩
    · intro hmeets
      refine ⟨hl hpos, ?_⟩
      rintro m ⟨uncapped, hm⟩
      exact (hmeets m uncapped hm).2.local_le hgzero
  split at hrun
  · rename_i hgpos hlzero
    cases hrun
    constructor
    · intro hkept m uncapped hm
      have := hkept.2 m ⟨uncapped, hm⟩
      exact ⟨by omega, fun hzero => absurd hzero hpos, fun _ => this,
        fun _ hne => absurd hlzero hne⟩
    · intro hmeets
      refine ⟨hg hpos, ?_⟩
      rintro m ⟨uncapped, hm⟩
      exact (hmeets m uncapped hm).2.global_le hlzero
  · rename_i hgpos hlpos
    obtain ⟨merged, hmerge, hrun⟩ := bind_eq_ok hrun
    cases hrun
    have hs := mergeNonEmpty_sound (hg hgpos) (hl hlpos) hmerge
    constructor
    · intro hkept m uncapped hm
      have hle := hkept.2 m ⟨uncapped, hm⟩
      have hone := hs.nbin_pos
      refine ⟨by omega, fun hzero => absurd hzero hgpos, fun hzero => absurd hzero hlpos, ?_⟩
      intro _ _ width hwidth
      apply or_iff_not_imp_left.mpr
      intro hunseen
      rw [← hm.mergeNonEmpty_unseen (by omega) (hg hgpos) (hl hlpos) hwidth hunseen hmerge]
      exact hle
    · intro hmeets
      refine ⟨hs, ?_⟩
      rintro m ⟨uncapped, hm⟩
      obtain ⟨hone, hkeeps⟩ := hmeets m uncapped hm
      by_cases hseen : ∀ width,
          uncapped.binWidthMerge g l (mergedMin g l) (mergedMax g l) = .ok width →
            SeenByCap width (mergedMin g l) (mergedMax g l)
      · exact hm.mergeNonEmpty_nbin_le hone (hg hgpos) (hl hlpos) hseen hmerge
      · push Not at hseen
        obtain ⟨width, hwidth, hunseen⟩ := hseen
        rw [hm.mergeNonEmpty_unseen hone (hg hgpos) (hl hlpos) hwidth hunseen hmerge]
        exact (hkeeps.seen hgpos hlpos width hwidth).resolve_left hunseen

/-- If the steps before the last one keep the invariant then the last one does so exactly if its
inputs meet the condition. -/
theorem kept_iff {c : Construction} {h : Histogram} (hrun : c.eval = .ok h) (hpos : h.nbin ≠ 0)
    (hbefore : c.Before (Every Kept)) : c.KeptBy h ↔ c.Meets := by
  rw [keptBy_iff]
  cases c with
  | empty =>
    cases hrun
    exact absurd rfl hpos
  | createHistogram rTimes bwspec => exact created_iff hrun
  | createHistogramIn data min max start nbin binWidth =>
    have hiff := createHistogramIn_sound_iff hrun
    exact ⟨fun hkept => hiff.mp hkept.1, fun hle => ⟨hiff.mpr hle, fun _ hfalse => hfalse.elim⟩⟩
  | setHistogram counts min max start binWidth =>
    have hiff := setHistogram_sound_iff hrun (Nat.pos_of_ne_zero hpos)
    exact ⟨fun hkept => hiff.mp hkept.1, fun hw => ⟨hiff.mpr hw, fun _ hfalse => hfalse.elim⟩⟩
  | mergeHistograms g l bwspec =>
    obtain ⟨g', hg, hrun⟩ := bind_eq_ok hrun
    obtain ⟨l', hl, hrun⟩ := bind_eq_ok hrun
    have hiff := merged_iff (fun hne => (hbefore.1.last g' hg hne).1)
      (fun hne => (hbefore.2.last l' hl hne).1) hrun hpos
    constructor
    · intro hkept m uncapped hm
      have hmeets := hiff.mp hkept m uncapped hm
      refine ⟨hmeets.1, fun g'' l'' hg' hl' => ?_⟩
      obtain rfl := Except.ok.inj (hg.symm.trans hg')
      obtain rfl := Except.ok.inj (hl.symm.trans hl')
      exact hmeets.2
    · intro hmeets
      exact hiff.mpr fun m uncapped hm =>
        ⟨(hmeets m uncapped hm).1, (hmeets m uncapped hm).2 g' l' hg hl⟩
  | mergeRuntimes g runtimes bwspec =>
    obtain ⟨g', hg, hrun⟩ := bind_eq_ok hrun
    exact created_iff hrun
  | negate c =>
    obtain ⟨h', hc, hrun⟩ := bind_eq_ok hrun
    cases hrun
    rw [negate_nbin] at hpos
    have hiff := negate_sound_iff (hbefore.last h' hc hpos).1
    have hplaced := placed_iff hbefore hc hpos
    constructor
    · exact fun hkept => hplaced.mpr (hiff.mp hkept.1)
    · exact fun hmeets => ⟨hiff.mpr (hplaced.mp hmeets), fun _ hfalse => hfalse.elim⟩

/-- The last step keeps the invariant exactly if its inputs meet the condition. -/
private theorem kept_iff_proper {c : Construction} (hbefore : c.Before (Every Kept)) :
    c.Kept ↔ c.Proper := by
  constructor
  · intro hkept h hrun hpos
    exact (kept_iff hrun hpos hbefore).mp (hkept h hrun hpos)
  · intro hproper h hrun hpos
    exact (kept_iff hrun hpos hbefore).mpr (hproper h hrun hpos)

/-- Every histogram with bins that is made on the way meets the invariant and keeps to the cap of
the rule it was made with, exactly if every step that yields one has inputs that meet the
condition. -/
theorem operations_sound_iff (c : Construction) : c.Every Kept ↔ c.Every Proper := by
  induction c with
  | empty => exact kept_iff_proper trivial
  | createHistogram rTimes bwspec => exact kept_iff_proper trivial
  | createHistogramIn data min max start nbin binWidth => exact kept_iff_proper trivial
  | setHistogram counts min max start binWidth => exact kept_iff_proper trivial
  | mergeHistograms g l bwspec ihg ihl =>
    unfold Every
    rw [← ihg, ← ihl]
    exact and_congr_right fun h => kept_iff_proper h
  | mergeRuntimes g runtimes bwspec ih =>
    unfold Every
    rw [← ih]
    exact and_congr_right fun h => kept_iff_proper h
  | negate c ih =>
    unfold Every
    rw [← ih]
    exact and_congr_right fun h => kept_iff_proper h

omit [LibM] in
/-- The negated histogram of data of one value: its single bin ends nearly a bin width above its
largest value, and its contents would be rejected. -/
theorem not_operations_sound_negatedPoint :
    ∃ h, (negate (createHistogram [5, 5] (binWidthFixedNbin 10))).eval = .ok h ∧ h.nbin = 1 ∧
      ¬h.Sound ∧ Histogram.setHistogram h.counts h.getMin h.getMax h.start h.binWidth =
        .error "Mismatch between {start,nbin,bin width} and max provided" := by
  have hreject : Histogram.setHistogram (deltaBin 5 2).negate.counts (deltaBin 5 2).negate.getMin
      (deltaBin 5 2).negate.getMax (deltaBin 5 2).negate.start (deltaBin 5 2).negate.binWidth =
        .error "Mismatch between {start,nbin,bin width} and max provided" := by
    decide +kernel
  refine ⟨(deltaBin 5 2).negate, by decide +kernel, rfl, ?_, hreject⟩
  intro hs
  have := hs.setHistogram_ok
  rw [hreject] at this
  cases this

omit [LibM] in
/-- A hundred and one bins under a cap of ten: the suggested bin width leads to more bins than an
`int` can hold, which the cap does not see, and then to too many for a merger, which takes the bin
width of its inputs. -/
theorem not_operations_sound_unseenCap :
    let bins := createHistogram [0, 1] (binWidthFixed (1 / 100))
    ∃ h, (mergeHistograms bins bins (binWidthFixedMaxNbin (1 / 1000000000000) 10)).eval = .ok h ∧
      h.nbin = 101 := by
  intro bins
  have hrun : ∃ h ∈ (mergeHistograms bins bins
      (binWidthFixedMaxNbin (1 / 1000000000000) 10)).eval.toOption, h.nbin = 101 := by
    decide +kernel
  obtain ⟨h, hmem, hbins⟩ := hrun
  exact ⟨h, eq_ok_of_mem_toOption hmem, hbins⟩

end Construction

end Histogram

end Operations

end Chimbuko
