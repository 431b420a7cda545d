import Chimbuko.Library.TransitionSystem
import Mathlib.Algebra.BigOperators.Group.List.Basic
import Mathlib.Data.Finset.Card
import Mathlib.Order.Interval.Finset.Nat
import Mathlib.Tactic.Linarith
import Mathlib.Tactic.Ring

/-!
# Shards of the provenance database

`core/provdb/setup.hpp` assigns the shards of the provenance database to server instances, and to
provider indices on each instance. All but the last instance hold the same number of shards, the
rounded up quotient, and the last one is said to hold the remaining ones. Rounding up may use up
the shards before the last instance; its number of shards is then negative, and an instance before
it is said to hold more shards than are placed on it.
-/

namespace Chimbuko

/-- The largest value of an int. -/
def intMax : ℤ := 2 ^ 31 - 1

/-- The assignment of shards to instances, with the number of shards on all but the last one. -/
structure ProvDBsetup where
  nshards : ℤ
  ninstances : ℤ
  nshardInstance : ℤ
  nshards_nonneg : 0 ≤ nshards
  ninstances_pos : 1 ≤ ninstances
  nshardInstance_eq : nshardInstance = (nshards + ninstances - 1) / ninstances

namespace ProvDBsetup

/-- Set up an assignment. The numerator of the rounded up quotient is computed as an int. -/
def new (nshards ninstances : ℤ) : Except String ProvDBsetup :=
  if hinstances : ninstances < 1 then throw "Number of instances must be >=1"
  else if hshards : nshards < 0 then throw "Number of shards must be >=1"
  else if intMax < nshards + ninstances - 1 then throw "undefined: signed integer overflow"
  else pure
    { nshards := nshards, ninstances := ninstances
      nshardInstance := (nshards + ninstances - 1) / ninstances
      nshards_nonneg := not_lt.mp hshards, ninstances_pos := not_lt.mp hinstances
      nshardInstance_eq := rfl }

variable (s : ProvDBsetup)

/-- Check that an instance index is in range. -/
def checkInstance (inst : ℤ) : Except String Unit :=
  if inst < 0 ∨ s.ninstances ≤ inst then throw "Invalid instance index" else pure ()

/-- The first shard on an instance. -/
def getShardOffsetInstance (inst : ℤ) : Except String ℤ := do
  s.checkInstance inst
  pure (inst * s.nshardInstance)

/-- The number of shards on an instance. -/
def getNshardsInstance (inst : ℤ) : Except String ℤ := do
  s.checkInstance inst
  pure (if inst = s.ninstances - 1 then s.nshards - s.nshardInstance * inst else s.nshardInstance)

/-- The instance of the global database. -/
def getGlobalDBinstance : ℤ := 0

/-- The provider index of the global database. -/
def getGlobalDBproviderIndex : ℤ := 0

/-- The instance of a shard. -/
def getShardInstance (shard : ℤ) : Except String ℤ :=
  if shard < 0 ∨ s.nshards ≤ shard then throw "Invalid shard index"
  else pure (shard / s.nshardInstance)

/-- The provider index of a shard: one instance hosts the global database as well. -/
def getShardProviderIndex (shard : ℤ) : Except String ℤ := do
  let inst ← s.getShardInstance shard
  let off := shard % s.nshardInstance
  pure (if inst = getGlobalDBinstance then off + 1 else off)

/-- The shards in order. -/
def shards : List ℤ := (List.range s.nshards.toNat).map Nat.cast

/-- The instances in order. -/
def instances : List ℤ := (List.range s.ninstances.toNat).map Nat.cast

/-- The instance and the provider index of a shard. -/
def place (shard : ℤ) : Except String (ℤ × ℤ) := do
  let inst ← s.getShardInstance shard
  let provider ← s.getShardProviderIndex shard
  pure (inst, provider)

/-- The number of shards that are placed on an instance. -/
def placedOn (inst : ℤ) : ℕ :=
  ((Finset.range s.nshards.toNat).filter fun k : ℕ => s.getShardInstance k = .ok inst).card

/-- What the number of shards and the offset of an instance say agrees with where shards are
placed. -/
def CountAgrees (inst : ℤ) : Prop :=
  ∃ count offset, s.getNshardsInstance inst = .ok count ∧
    s.getShardOffsetInstance inst = .ok offset ∧ 0 ≤ count ∧ count = s.placedOn inst ∧
    ∀ shard ∈ s.shards, s.getShardInstance shard = .ok inst ↔
      offset ≤ shard ∧ shard < offset + count

/-- Placement is a partition of the shards, and all functions agree about it. -/
structure Consistent : Prop where
  inRange : ∀ shard ∈ s.shards, ∃ inst ∈ s.instances, s.getShardInstance shard = .ok inst
  counts : ∀ inst ∈ s.instances, s.CountAgrees inst
  total : ∃ counts, s.instances.mapM s.getNshardsInstance = .ok counts ∧ counts.sum = s.nshards
  injective : ∀ shard ∈ s.shards, ∀ shard' ∈ s.shards, s.place shard = s.place shard' →
    shard = shard'
  notGlobal : ∀ shard ∈ s.shards,
    s.place shard ≠ .ok (getGlobalDBinstance, getGlobalDBproviderIndex)
  consecutive : ∀ inst ∈ s.instances, ∃ first offset, s.getShardOffsetInstance inst = .ok offset ∧
    ∀ shard ∈ s.shards, s.getShardInstance shard = .ok inst →
      s.getShardProviderIndex shard = .ok (first + (shard - offset))

variable {s}

/-- A setup that is accepted has the given numbers. -/
theorem new_ok {nshards ninstances : ℤ} (hnew : new nshards ninstances = .ok s) :
    s.nshards = nshards ∧ s.ninstances = ninstances := by
  unfold new at hnew
  split at hnew
  · cases hnew
  split at hnew
  · cases hnew
  split at hnew
  · cases hnew
  · cases hnew
    exact ⟨rfl, rfl⟩

/-- The shards are numbered from zero. -/
theorem mem_shards {shard : ℤ} : shard ∈ s.shards ↔ 0 ≤ shard ∧ shard < s.nshards := by
  unfold shards
  rw [List.mem_map]
  constructor
  · rintro ⟨k, hk, rfl⟩
    rw [List.mem_range] at hk
    omega
  · intro h
    refine ⟨shard.toNat, List.mem_range.mpr ?_, ?_⟩ <;> omega

/-- The instances are numbered from zero. -/
theorem mem_instances {inst : ℤ} : inst ∈ s.instances ↔ 0 ≤ inst ∧ inst < s.ninstances := by
  unfold instances
  rw [List.mem_map]
  constructor
  · rintro ⟨k, hk, rfl⟩
    rw [List.mem_range] at hk
    omega
  · intro h
    refine ⟨inst.toNat, List.mem_range.mpr ?_, ?_⟩ <;> omega

/-- The instances have room for all shards. -/
theorem nshards_le : s.nshards ≤ s.nshardInstance * s.ninstances := by
  have hpos := s.ninstances_pos
  have hdiv := Int.lt_ediv_add_one_mul_self (s.nshards + s.ninstances - 1) hpos
  rw [← s.nshardInstance_eq, add_mul] at hdiv
  omega

/-- An instance is meant to have at least one shard. -/
theorem nshardInstance_pos (hone : 1 ≤ s.nshards) : 0 < s.nshardInstance := by
  rw [s.nshardInstance_eq]
  have hpos := s.ninstances_pos
  have hle : 1 ≤ (s.nshards + s.ninstances - 1) / s.ninstances := by
    rw [Int.le_ediv_iff_mul_le hpos]
    omega
  omega

/-- Instances pass the check. -/
theorem checkInstance_ok {inst : ℤ} (hinst : inst ∈ s.instances) :
    s.checkInstance inst = .ok () := by
  have := mem_instances.mp hinst
  exact if_neg (by omega)

/-- The first shard of an instance. -/
theorem getShardOffsetInstance_ok {inst : ℤ} (hinst : inst ∈ s.instances) :
    s.getShardOffsetInstance inst = .ok (inst * s.nshardInstance) := by
  unfold getShardOffsetInstance
  rw [checkInstance_ok hinst]
  rfl

/-- The number of shards that an instance tells. -/
theorem getNshardsInstance_ok {inst : ℤ} (hinst : inst ∈ s.instances) :
    s.getNshardsInstance inst = .ok (if inst = s.ninstances - 1 then
      s.nshards - s.nshardInstance * inst else s.nshardInstance) := by
  unfold getNshardsInstance
  rw [checkInstance_ok hinst]
  rfl

/-- The instance of a shard. -/
theorem getShardInstance_ok {shard : ℤ} (hshard : shard ∈ s.shards) :
    s.getShardInstance shard = .ok (shard / s.nshardInstance) := by
  have := mem_shards.mp hshard
  exact if_neg (by omega)

/-- The provider of a shard in its instance. -/
theorem getShardProviderIndex_ok {shard : ℤ} (hshard : shard ∈ s.shards) :
    s.getShardProviderIndex shard = .ok (if shard / s.nshardInstance = getGlobalDBinstance then
      shard % s.nshardInstance + 1 else shard % s.nshardInstance) := by
  unfold getShardProviderIndex
  rw [getShardInstance_ok hshard]
  rfl

/-- The instance and the provider of a shard. -/
theorem place_ok {shard : ℤ} (hshard : shard ∈ s.shards) :
    s.place shard = .ok (shard / s.nshardInstance,
      if shard / s.nshardInstance = getGlobalDBinstance then shard % s.nshardInstance + 1
      else shard % s.nshardInstance) := by
  unfold place
  rw [getShardInstance_ok hshard, getShardProviderIndex_ok hshard]
  rfl

/-- No two shards have one place. -/
theorem place_injective {shard shard' : ℤ} (hshard : shard ∈ s.shards)
    (hshard' : shard' ∈ s.shards) (h : s.place shard = s.place shard') : shard = shard' := by
  rw [place_ok hshard, place_ok hshard'] at h
  obtain ⟨hinst, hprovider⟩ := Prod.mk.inj (Except.ok.inj h)
  have hmod : shard % s.nshardInstance = shard' % s.nshardInstance := by
    rw [hinst] at hprovider
    split at hprovider <;> omega
  rw [← Int.mul_ediv_add_emod shard s.nshardInstance, hinst, hmod, Int.mul_ediv_add_emod]

/-- The provider indices of the shards on an instance are consecutive. -/
theorem provider_consecutive {inst : ℤ} (hinst : inst ∈ s.instances) :
    ∃ first offset, s.getShardOffsetInstance inst = .ok offset ∧
      ∀ shard ∈ s.shards, s.getShardInstance shard = .ok inst →
        s.getShardProviderIndex shard = .ok (first + (shard - offset)) := by
  refine ⟨if inst = getGlobalDBinstance then 1 else 0, _, getShardOffsetInstance_ok hinst, ?_⟩
  intro shard hshard hplaced
  rw [getShardInstance_ok hshard] at hplaced
  have hdiv := Except.ok.inj hplaced
  have hmod := Int.mul_ediv_add_emod shard s.nshardInstance
  rw [hdiv, mul_comm] at hmod
  rw [getShardProviderIndex_ok hshard, hdiv]
  congr 1
  split <;> omega

/-- The numbers of shards that the instances are said to hold add up. -/
theorem counts_total :
    ∃ counts, s.instances.mapM s.getNshardsInstance = .ok counts ∧ counts.sum = s.nshards := by
  refine ⟨_, TransitionSystem.mapM_eq_map fun inst hinst => getNshardsInstance_ok hinst, ?_⟩
  have hpos := s.ninstances_pos
  obtain ⟨n, hn⟩ : ∃ n : ℕ, s.ninstances = n + 1 := ⟨(s.ninstances - 1).toNat, by omega⟩
  have hinstances : s.instances = (List.range n).map Nat.cast ++ [(n : ℤ)] := by
    unfold instances
    rw [hn, show ((n : ℤ) + 1).toNat = n + 1 by omega, List.range_succ, List.map_append]
    rfl
  have hinner : ((List.range n).map Nat.cast : List ℤ).map (fun inst =>
      if inst = s.ninstances - 1 then s.nshards - s.nshardInstance * inst else s.nshardInstance) =
        List.replicate n s.nshardInstance := by
    rw [List.eq_replicate_iff]
    refine ⟨by simp, ?_⟩
    intro count hcount
    obtain ⟨inst, hinst, rfl⟩ := List.mem_map.mp hcount
    obtain ⟨k, hk, rfl⟩ := List.mem_map.mp hinst
    have := List.mem_range.mp hk
    exact if_neg (by omega)
  rw [hinstances, List.map_append, hinner, List.sum_append, List.sum_replicate, List.map_singleton,
    List.sum_singleton, if_pos (by omega), nsmul_eq_mul]
  ring

section Placement

variable (hone : 1 ≤ s.nshards)
include hone

/-- The shards on an instance are consecutive. -/
theorem getShardInstance_iff {shard : ℤ} (hshard : shard ∈ s.shards) {inst : ℤ} :
    s.getShardInstance shard = .ok inst ↔
      inst * s.nshardInstance ≤ shard ∧ shard < (inst + 1) * s.nshardInstance := by
  have hpos := nshardInstance_pos hone
  rw [getShardInstance_ok hshard, ← Int.le_ediv_iff_mul_le hpos, ← Int.ediv_lt_iff_lt_mul hpos]
  constructor
  · intro h
    have := Except.ok.inj h
    omega
  · intro h
    congr 1
    omega

/-- Every shard has an instance. -/
theorem inRange_shards {shard : ℤ} (hshard : shard ∈ s.shards) :
    ∃ inst ∈ s.instances, s.getShardInstance shard = .ok inst := by
  have hpos := nshardInstance_pos hone
  have hrange := mem_shards.mp hshard
  refine ⟨_, mem_instances.mpr ⟨?_, ?_⟩, getShardInstance_ok hshard⟩
  · exact Int.ediv_nonneg hrange.1 hpos.le
  · rw [Int.ediv_lt_iff_lt_mul hpos, mul_comm]
    exact hrange.2.trans_le nshards_le

/-- No shard has the place of the global database. -/
theorem place_ne_global {shard : ℤ} (hshard : shard ∈ s.shards) :
    s.place shard ≠ .ok (getGlobalDBinstance, getGlobalDBproviderIndex) := by
  rw [place_ok hshard]
  intro h
  obtain ⟨hinst, hprovider⟩ := Prod.mk.inj (Except.ok.inj h)
  rw [if_pos hinst] at hprovider
  have hmod := Int.emod_nonneg shard (nshardInstance_pos hone).ne'
  unfold getGlobalDBproviderIndex at hprovider
  omega

/-- What is said about an instance agrees with the placement, if its shards are there. -/
theorem countAgrees_of_le {inst : ℤ} (hinst : inst ∈ s.instances)
    (hle : (s.ninstances - 1) * s.nshardInstance ≤ s.nshards) : s.CountAgrees inst := by
  have hpos := nshardInstance_pos hone
  have hrange := mem_instances.mp hinst
  have hroom := s.nshards_le
  let count := if inst = s.ninstances - 1 then s.nshards - s.nshardInstance * inst
    else s.nshardInstance
  -- the shards of an inner instance end where the last instance starts, or before
  have hcount : 0 ≤ count ∧ inst * s.nshardInstance + count ≤ s.nshards ∧
      ∀ shard < s.nshards, shard < (inst + 1) * s.nshardInstance ↔
        shard < inst * s.nshardInstance + count := by
    by_cases hlast : inst = s.ninstances - 1
    · have hend : inst * s.nshardInstance + count = s.nshards := by
        simp only [count, if_pos hlast]
        ring
      have hend' : (inst + 1) * s.nshardInstance = s.nshardInstance * s.ninstances := by
        rw [hlast]
        ring
      refine ⟨?_, hend.le, ?_⟩
      · simp only [count, if_pos hlast, hlast]
        linarith
      · intro shard hshard
        rw [hend, hend']
        omega
    · have hend : inst * s.nshardInstance + count = (inst + 1) * s.nshardInstance := by
        simp only [count, if_neg hlast]
        ring
      refine ⟨?_, ?_, ?_⟩
      · simp only [count, if_neg hlast]
        exact hpos.le
      · rw [hend]
        have hmul := mul_le_mul_of_nonneg_right (show inst + 1 ≤ s.ninstances - 1 by omega) hpos.le
        exact hmul.trans hle
      · intro shard _
        rw [hend]
  have hiff : ∀ shard ∈ s.shards, s.getShardInstance shard = .ok inst ↔
      inst * s.nshardInstance ≤ shard ∧ shard < inst * s.nshardInstance + count := by
    intro shard hshard
    rw [getShardInstance_iff hone hshard, hcount.2.2 shard (mem_shards.mp hshard).2]
  have hoffset : 0 ≤ inst * s.nshardInstance := mul_nonneg hrange.1 hpos.le
  refine ⟨count, _, getNshardsInstance_ok hinst, getShardOffsetInstance_ok hinst, hcount.1, ?_,
    hiff⟩
  have hfilter : ((Finset.range s.nshards.toNat).filter fun k : ℕ =>
      s.getShardInstance k = .ok inst) =
        Finset.Ico (inst * s.nshardInstance).toNat (inst * s.nshardInstance + count).toNat := by
    ext k
    rw [Finset.mem_filter, Finset.mem_range, Finset.mem_Ico]
    constructor
    · rintro ⟨hk, hplaced⟩
      have hmem : (k : ℤ) ∈ s.shards := mem_shards.mpr (by omega)
      have := (hiff k hmem).mp hplaced
      omega
    · intro hk
      have hmem : (k : ℤ) ∈ s.shards := mem_shards.mpr (by omega)
      exact ⟨by omega, (hiff k hmem).mpr (by omega)⟩
  unfold placedOn
  rw [hfilter, Nat.card_Ico]
  omega

/-- The placement of shards is consistent exactly if the instances before the last one do not have
room for more than all shards. -/
theorem consistent_iff_room :
    s.Consistent ↔ (s.ninstances - 1) * s.nshardInstance ≤ s.nshards := by
  have hpos := s.ninstances_pos
  constructor
  · intro h
    have hlast : s.ninstances - 1 ∈ s.instances := mem_instances.mpr (by omega)
    obtain ⟨count, -, hcount, -, hnonneg, -⟩ := h.counts _ hlast
    rw [getNshardsInstance_ok hlast, if_pos rfl] at hcount
    have := Except.ok.inj hcount
    rw [mul_comm]
    omega
  · intro hle
    exact ⟨fun shard hshard => inRange_shards hone hshard,
      fun inst hinst => countAgrees_of_le hone hinst hle, counts_total,
      fun shard hshard shard' hshard' h => place_injective hshard hshard' h,
      fun shard hshard => place_ne_global hone hshard,
      fun inst hinst => provider_consecutive hinst⟩

end Placement

/-- For at least one shard, the placement of shards is consistent exactly if the instances before
the last one, with the rounded up quotient of shards each, do not have room for more than all
shards. -/
theorem consistent_iff {nshards ninstances : ℤ} (hnew : new nshards ninstances = .ok s)
    (hone : 1 ≤ nshards) :
    s.Consistent ↔ (ninstances - 1) * ((nshards + ninstances - 1) / ninstances) ≤ nshards := by
  obtain ⟨rfl, rfl⟩ := new_ok hnew
  rw [← s.nshardInstance_eq]
  exact consistent_iff_room hone

/-- Seven shards on three instances. -/
theorem consistent_sevenOnThree :
    ∃ s, new 7 3 = .ok s ∧ (s.Consistent ↔ (3 - 1 : ℤ) * ((7 + 3 - 1) / 3) ≤ 7) :=
  ⟨_, rfl, consistent_iff rfl (by decide)⟩

/-- Five shards on four instances: the third instance is said to hold two shards but holds one, and
the last one is said to hold less than none. -/
theorem not_consistent_fiveOnFour :
    ∃ s, new 5 4 = .ok s ∧ s.getNshardsInstance 2 = .ok 2 ∧ s.placedOn 2 = 1 ∧
      s.getNshardsInstance 3 = .ok (-1) ∧ ¬s.Consistent := by
  refine ⟨_, rfl, by decide, by decide, by decide, ?_⟩
  rw [consistent_iff_room (by decide)]
  decide

end ProvDBsetup

end Chimbuko
