import Chimbuko.Library.AccountedMap
import Chimbuko.Util.RunStatsCollect

/-!
# Counter statistics on the server

The statistics of the counters of each program. A rank sends those of one step, which are added to
what the server has; a new counter starts from a collector that does not keep the sum.
-/

namespace Chimbuko

open KeyedMap

/-- The counter statistics that a rank sends for one step. -/
structure ADLocalCounterStatistics where
  programIdx : ℕ
  /-- By the name of the counter. -/
  stats : AList fun _ : String => RunStats

/-- The statistics of all counters. -/
structure GlobalCounterStats where
  /-- By program index and the name of the counter. -/
  counterStats : AList fun _ : ℕ => AList fun _ : String => RunStats

/-- A counter of a message, with its statistics. -/
structure CounterObject where
  app : ℕ
  counter : String
  stats : RunStats

namespace GlobalCounterStats

/-- No statistics were received. -/
def new : GlobalCounterStats := { counterStats := ∅ }

/-- Include the counter statistics of a step. -/
def addCounterData (self : GlobalCounterStats) (loc : ADLocalCounterStatistics) :
    Except String GlobalCounterStats := do
  let pidStats := (self.counterStats.lookup loc.programIdx).getD ∅
  let pidStats ← upsertEach (fun _ old stats => pure (old.getD default + stats)) pidStats loc.stats
  pure { counterStats := self.counterStats.insert loc.programIdx pidStats }

/-- Combine two objects. -/
def plus (self r : GlobalCounterStats) : Except String GlobalCounterStats := do
  let counterStats ← merge (merge fun old new => pure (old + new)) self.counterStats r.counterStats
  pure { counterStats := counterStats }

/-- Report all counters. -/
def getJsonState (self : GlobalCounterStats) : List CounterObject :=
  (flatten self.counterStats).map fun e => { app := e.1.1, counter := e.1.2, stats := e.2 }

/-- Combining objects never fails. -/
theorem plus_ok (self r : GlobalCounterStats) : ∃ t, self.plus r = .ok t := by
  have hcounters : ∀ v w : AList fun _ : String => RunStats,
      ∃ u, merge (fun old new => (pure (old + new) : Except String RunStats)) v w = .ok u :=
    fun _ _ => merge_ok fun _ _ _ _ _ => rfl
  have hok : ∃ counterStats,
      merge (merge fun old new => (pure (old + new) : Except String RunStats))
      self.counterStats r.counterStats = .ok counterStats := by
    apply merge_ok
    intro pid v w _ _
    obtain ⟨u, hu⟩ := hcounters v w
    rw [hu]
    rfl
  obtain ⟨counterStats, hrun⟩ := hok
  unfold GlobalCounterStats.plus
  rw [hrun]
  exact ⟨_, rfl⟩

/-- The statistics of a counter collect some parts. -/
def Describes (stats : RunStats) (parts : Multiset RunStats) : Prop :=
  stats.Collects false parts ∧ parts ≠ 0

/-- By program and counter, what was added. A program may be there without counters. -/
abbrev Amounts := ℕ → WithZero (String → WithZero (Multiset RunStats))

/-- The counters are those of some data that were added. -/
def Holds (self : GlobalCounterStats) (c : Amounts) : Prop :=
  MapAccounts (fun _ => MapAccounts fun _ => Describes) self.counterStats c

/-- What the data of a step add. -/
def amountsOf (loc : ADLocalCounterStatistics) : Amounts :=
  let counters : String → WithZero (Multiset RunStats) := amounts (fun _ stats => {stats}) loc.stats
  Pi.single loc.programIdx (counters : WithZero (String → WithZero (Multiset RunStats)))

/-- New statistics hold nothing. -/
theorem holds_new : new.Holds 0 := mapAccounts_empty

/-- Data with values are added to what there is. -/
theorem Holds.addCounterData {self : GlobalCounterStats} {c : Amounts} (h : self.Holds c)
    (loc : ADLocalCounterStatistics)
    (hloc : ∀ name stats, loc.stats.lookup name = some stats → stats.Sampled) :
    ∃ self', self.addCounterData loc = .ok self' ∧ self'.Holds (c + amountsOf loc) := by
  obtain ⟨b, hinner, houter⟩ := h.insert_inner loc.programIdx
  obtain ⟨inner, hrun, haccounts⟩ := hinner.upsertEach
    (f := fun _ old stats => (pure (old.getD default + stats) : Except String RunStats))
    (x := fun _ stats => {stats}) (m := loc.stats) (by
      intro name stats hstats old o hold
      refine ⟨_, rfl, ?_⟩
      cases hold with
      | none =>
        have hadd := (RunStats.collects_new false).add_part (hloc name stats hstats)
        rw [zero_add]
        exact .some ⟨hadd, Multiset.cons_ne_zero⟩
      | @some old parts hparts =>
        have hadd := hparts.1.add_part (hloc name stats hstats)
        rw [← WithZero.coe_add, add_comm, Multiset.singleton_add]
        exact .some ⟨hadd, Multiset.cons_ne_zero⟩)
  refine ⟨{ counterStats := self.counterStats.insert loc.programIdx inner }, ?_, ?_⟩
  · unfold GlobalCounterStats.addCounterData
    simp only [hrun]
    rfl
  · exact houter inner _ haccounts

/-- Combining objects adds their data. -/
theorem Holds.plus {self r : GlobalCounterStats} {c d : Amounts} (h : self.Holds c)
    (h' : r.Holds d) : ∃ t, self.plus r = .ok t ∧ t.Holds (c + d) := by
  have hplus : ∀ (name : String) s t parts parts', Describes s parts → Describes t parts' →
      ∃ u, (pure (s + t) : Except String RunStats) = .ok u ∧ Describes u (parts + parts') := by
    intro _ s t parts parts' hs ht
    have hcount := (ht.1.sampled_of_ne_zero ht.2).count_add_ne_zero hs.1.valid
    refine ⟨s + t, rfl, hs.1.add ht.1 hcount, ?_⟩
    intro hzero
    exact hs.2 (Multiset.le_zero.mp (hzero ▸ Multiset.le_add_right _ _))
  obtain ⟨counterStats, hrun, haccounts⟩ := MapAccounts.merge
    (merge fun old new => (pure (old + new) : Except String RunStats))
    (fun _ _ _ _ _ hv hw => hv.merge _ hplus hw) h h'
  refine ⟨{ counterStats := counterStats }, ?_, haccounts⟩
  unfold GlobalCounterStats.plus
  simp only [hrun]
  rfl

/-- Counters are determined by what was added. -/
theorem Holds.matches {self r : GlobalCounterStats} {c : Amounts} (h : self.Holds c)
    (h' : r.Holds c) : Matches (Matches Eq) self.counterStats r.counterStats := by
  have hcounter : ∀ (_ : String) s t parts, Describes s parts → Describes t parts → s = t :=
    fun _ s t parts hs ht => hs.1.unique ht.1
  have hprogram : ∀ (_ : ℕ) v w b, MapAccounts (fun _ : String => Describes) v b →
      MapAccounts (fun _ : String => Describes) w b → Matches Eq v w :=
    fun _ v w b hv hw => hv.matches hcounter hw
  exact MapAccounts.matches hprogram h h'

end GlobalCounterStats

end Chimbuko
