import Chimbuko.AD.ADEventExecData
import Chimbuko.AD.DriverWindow

/-!
# The function profile

Each analysis adds the runtimes of all executions in the exec-data map to the statistics that are
buffered for the parameter server. The executions labeled by then are cleared from the map, the
others stay and are added again by the next analysis.
-/

namespace Chimbuko

open TransitionSystem

namespace Driver

/-- The function statistics for the parameter server, sent or not. -/
def statistics (self : Driver) : List ADLocalFuncStatistics := self.sent ++ self.funcstatsBuf

/-- The number of inclusive and exclusive runtimes of a function in these statistics. -/
def profileCounts (self : Driver) (fid : ℕ) : ℚ × ℚ :=
  (self.statistics.map fun stats => stats.counts fid).sum

/-- The completed executions of a function that each analysis found in the exec-data map. -/
def executions (self : Driver) (fid : ℕ) : List CallRef :=
  self.analyses.flatMap fun r => r.execData fid

/-- The profile of every function has each of its executions once. -/
def CountsOnce (self : Driver) : Prop :=
  ∀ fid, self.profileCounts fid =
    (((self.executions fid).dedup.length : ℚ), ((self.executions fid).dedup.length : ℚ))

/-- An analysis only takes place once the executions of the previous one are labeled. -/
def AllLabeled (params : DriverParams) (self : Driver) : DriverAction → Prop
  | .runFrame _ => doAnalysisOnStep params self.step = true →
    ∀ r ∈ self.analyses.getLast?, ∀ fid ∈ self.manager.functions, ∀ it ∈ r.execData fid,
      (self.manager.calls it).label ≠ 0
  | .endRun => True

instance (params : DriverParams) (self : Driver) (a : DriverAction) :
    Decidable (AllLabeled params self a) := by
  cases a with
  | runFrame input =>
    have : Decidable (∀ r ∈ self.analyses.getLast?, ∀ fid ∈ self.manager.functions,
        ∀ it ∈ r.execData fid, (self.manager.calls it).label ≠ 0) :=
      match self.analyses.getLast? with
      | none => isTrue fun _ hr => by cases hr
      | some r => decidable_of_iff (∀ fid ∈ self.manager.functions, ∀ it ∈ r.execData fid,
          (self.manager.calls it).label ≠ 0)
        ⟨fun h _ hr => Option.some.inj hr ▸ h, fun h => h r rfl⟩
    exact inferInstanceAs (Decidable (_ → _))
  | endRun => exact isTrue trivial

/-- The executions of the last analysis that are not labeled yet. -/
def leftOver (self : Driver) (fid : ℕ) : List CallRef :=
  ((self.analyses.getLast?.map fun r => r.execData fid).getD []).filter fun it =>
    (self.manager.calls it).label = 0

/-- What is left over is among the executions. -/
theorem leftOver_subset (self : Driver) (fid : ℕ) : self.leftOver fid ⊆ self.executions fid := by
  intro it hit
  have hit := (List.mem_filter.mp hit).1
  cases hlast : self.analyses.getLast? with
  | none =>
    rw [hlast] at hit
    cases hit
  | some r =>
    rw [hlast] at hit
    exact List.mem_flatMap.mpr ⟨r, List.mem_of_getLast? hlast, hit⟩

/-- What the exec-data map and the statistics have of the executions so far. -/
structure Profiled (s : Driver) : Prop where
  stacksValid : s.manager.StacksValid
  executions_closed : ∀ fid, ∀ it ∈ s.executions fid,
    s.manager.Closed it ∧ (s.manager.calls it).fid = fid
  profileCounts : ∀ fid, s.profileCounts fid =
    (((s.executions fid).length : ℚ), ((s.executions fid).length : ℚ))
  execData : ∀ fid, ∃ new, s.manager.execDataMap fid = s.leftOver fid ++ new ∧ new.Nodup ∧
    ∀ it ∈ new, it ∉ s.executions fid ∧ s.manager.Closed it ∧ (s.manager.calls it).fid = fid

/-- At first nothing is profiled. -/
theorem profiled_new : new.Profiled := by
  refine ⟨⟨?_, fun _ => List.nodup_nil, ?_⟩, ?_, fun _ => rfl,
    fun fid => ⟨[], rfl, List.nodup_nil, ?_⟩⟩
  · intro _ _ h
    cases h
  · intro _ _ _ h
    cases h
  · intro _ _ h
    cases h
  · intro _ h
    cases h

/-- The profile counts each execution once exactly if no analysis found one again. -/
theorem Profiled.countsOnce_iff {s : Driver} (h : s.Profiled) :
    s.CountsOnce ↔ ∀ fid, (s.executions fid).Nodup := by
  refine forall_congr' fun fid => ?_
  rw [h.profileCounts fid, Prod.mk.injEq, and_self, Nat.cast_inj]
  constructor
  · intro hlength
    rw [← (List.dedup_sublist _).eq_of_length hlength.symm]
    exact List.nodup_dedup _
  · intro hnodup
    rw [hnodup.dedup]

/-- The executions in the map are closed calls of the function. -/
theorem Profiled.execData_closed {s : Driver} (h : s.Profiled) (fid : ℕ) :
    ∀ it ∈ s.manager.execDataMap fid,
      s.manager.Closed it ∧ (s.manager.calls it).fid = fid := by
  intro it hit
  obtain ⟨new, hmap, -, hnew⟩ := h.execData fid
  rw [hmap] at hit
  rcases List.mem_append.mp hit with hleft | hit
  · exact h.executions_closed fid it (s.leftOver_subset fid hleft)
  · exact (hnew it hit).2

/-- Closed calls of a function are calls of one of the functions of the map. -/
theorem mem_functions {m : ADEvent} {fid : ℕ} {it : CallRef}
    (h : m.Closed it ∧ (m.calls it).fid = fid) : fid ∈ m.functions :=
  List.mem_dedup.mpr (List.mem_map.mpr ⟨it, List.mem_range.mpr h.1.1, h.2⟩)

/-- All executions of the last analysis are labeled exactly if none is left over. -/
theorem Profiled.allLabeled_iff {s : Driver} (h : s.Profiled) (params : DriverParams)
    (input : StepInput) : AllLabeled params s (.runFrame input) ↔
      (doAnalysisOnStep params s.step = true → ∀ fid, s.leftOver fid = []) := by
  refine imp_congr_right fun _ => ?_
  constructor
  · intro hall fid
    refine List.eq_nil_iff_forall_not_mem.mpr fun it hit => ?_
    have hfid := mem_functions (h.executions_closed fid it (s.leftOver_subset fid hit))
    obtain ⟨hmem, hlabel⟩ := List.mem_filter.mp hit
    cases hlast : s.analyses.getLast? with
    | none =>
      rw [hlast] at hmem
      cases hmem
    | some r =>
      rw [hlast] at hmem
      exact hall r hlast fid hfid it hmem (of_decide_eq_true hlabel)
  · intro hnil r hr fid _ it hit hlabel
    have hleft : it ∈ s.leftOver fid := by
      refine List.mem_filter.mpr ⟨?_, decide_eq_true hlabel⟩
      rw [Option.mem_def.mp hr]
      exact hit
    rw [hnil fid] at hleft
    cases hleft

/-- Statistics, analyses and the manager determine whether the invariant holds, and a later
manager keeps it. -/
theorem Profiled.extends {s t : Driver} (h : s.Profiled) (hext : s.manager.Extends t.manager)
    (hstats : t.statistics = s.statistics) (hanalyses : t.analyses = s.analyses) :
    t.Profiled ∧ t.executions = s.executions ∧ t.leftOver = s.leftOver := by
  have hexec : t.executions = s.executions := by
    funext fid
    rw [executions, executions, hanalyses]
  have hlabel : ∀ fid, ∀ it ∈ s.executions fid,
      (t.manager.calls it).labelOf = (s.manager.calls it).labelOf := fun fid it hit =>
    hext.labelOf it (h.executions_closed fid it hit).1.1
  have hleft : t.leftOver = s.leftOver := by
    funext fid
    rw [leftOver, leftOver, hanalyses]
    refine List.filter_congr fun it hit => ?_
    have hmem : it ∈ s.executions fid := by
      cases hlast : s.analyses.getLast? with
      | none =>
        rw [hlast] at hit
        cases hit
      | some r =>
        rw [hlast] at hit
        exact List.mem_flatMap.mpr ⟨r, List.mem_of_getLast? hlast, hit⟩
    have hlabel : (t.manager.calls it).label = (s.manager.calls it).label :=
      congrArg Prod.fst (hlabel fid it hmem)
    rw [hlabel]
  refine ⟨⟨hext.stacksValid h.stacksValid, ?_, ?_, fun fid => ?_⟩, hexec, hleft⟩
  · rw [hexec]
    intro fid it hit
    obtain ⟨hclosed, hfid⟩ := h.executions_closed fid it hit
    exact ⟨hext.closed it hclosed, (congrArg Prod.snd (hlabel fid it hit)).trans hfid⟩
  · intro fid
    rw [Driver.profileCounts, hstats, hexec]
    exact h.profileCounts fid
  · obtain ⟨new, hmap, hnodup, hnew⟩ := h.execData fid
    obtain ⟨new', hmap', hnodup', hnew'⟩ := hext.execData h.stacksValid fid
    refine ⟨new ++ new', by rw [hmap', hmap, hleft, List.append_assoc], ?_, fun it hit => ?_⟩
    · refine List.nodup_append'.mpr ⟨hnodup, hnodup', fun it hit hit' => ?_⟩
      exact (hnew' it hit').1 (hnew it hit).2.1
    · rw [hexec]
      rcases List.mem_append.mp hit with hit | hit
      · obtain ⟨hnot, hclosed, hfid⟩ := hnew it hit
        exact ⟨hnot, hext.closed it hclosed,
          (congrArg Prod.snd (hext.labelOf it hclosed.1)).trans hfid⟩
      · obtain ⟨hopen, hclosed⟩ := hnew' it hit
        exact ⟨fun hmem => hopen (h.executions_closed fid it hmem).1, hclosed⟩

/-- Adding events extends the state. -/
theorem extends_addEvents {m m' : ADEvent} {events : List Event}
    (h : addEvents m events = .ok m') : m.Extends m' := by
  refine foldlM_invariant (P := m.Extends) (fun m₁ e m₂ hm₁ hadd => hm₁.trans ?_) events
    (ADEvent.Extends.refl m) h
  cases hevent : m₁.addEvent e with
  | error err =>
    rw [hevent] at hadd
    cases hadd
  | ok result =>
    rw [hevent] at hadd
    cases hadd
    exact ADEvent.extends_addEvent hevent

/-- Reading a frame adds events, and takes no part in the statistics. -/
theorem Profiled.readFrame {s t : Driver} (h : s.Profiled) {p : ParsedStep}
    (hread : s.readFrame p = .ok t) :
    t.Profiled ∧ t.executions = s.executions ∧ t.leftOver = s.leftOver ∧ t.step = s.step := by
  obtain ⟨events, manager, registered, -, -, hevents, ht⟩ := readFrame_ok hread
  have hlink : s.manager.Extends (s.link p).manager :=
    ADEvent.extends_of_eq rfl rfl rfl fun _ => rfl
  have hext : s.manager.Extends t.manager := by
    rw [ht]
    exact hlink.trans (extends_addEvents hevents)
  obtain ⟨hprofiled, hexec, hleft⟩ := h.extends hext (by rw [ht]; rfl) (by rw [ht]; rfl)
  exact ⟨hprofiled, hexec, hleft, by rw [ht]; rfl⟩

/-- Sending statistics loses none. -/
theorem statistics_sendPSdata (params : DriverParams) (self : Driver) (force : Bool) :
    (self.sendPSdata params force).statistics = self.statistics ∧
      (self.sendPSdata params force).manager = self.manager ∧
      (self.sendPSdata params force).analyses = self.analyses := by
  rw [Driver.sendPSdata]
  split
  · split
    · exact ⟨List.append_nil _, rfl, rfl⟩
    · exact ⟨rfl, rfl, rfl⟩
  · exact ⟨rfl, rfl, rfl⟩

/-- Sending statistics keeps what was profiled. -/
theorem Profiled.sendPSdata {s : Driver} (h : s.Profiled) (params : DriverParams) (force : Bool) :
    (s.sendPSdata params force).Profiled ∧
      (s.sendPSdata params force).executions = s.executions := by
  obtain ⟨hstats, hmanager, hanalyses⟩ := statistics_sendPSdata params s force
  obtain ⟨ht, hexec, -⟩ := h.extends (hmanager ▸ ADEvent.Extends.refl _) hstats hanalyses
  exact ⟨ht, hexec⟩

/-- Labeling changes labels only. -/
theorem foldl_recordLabel (labels : List CallLabel) (m : ADEvent) :
    (labels.foldl recordLabel m).callStack = m.callStack ∧
      (labels.foldl recordLabel m).nextRef = m.nextRef ∧
      (labels.foldl recordLabel m).execDataMap = m.execDataMap ∧
      ∀ it, ((labels.foldl recordLabel m).calls it).fid = (m.calls it).fid := by
  induction labels generalizing m with
  | nil => exact ⟨rfl, rfl, rfl, fun _ => rfl⟩
  | cons r rest ih =>
    obtain ⟨hstack, hnext, hexec, hfid⟩ := ih (recordLabel m r)
    refine ⟨hstack, hnext, hexec, fun it => (hfid it).trans ?_⟩
    refine ADEvent.proj_modifyCall ExecData.fid m fun _ => ?_
    cases r.label <;> rfl

/-- An analysis finds the executions left over from the previous one and those completed since,
counts them, and leaves those over that it has not labeled. -/
theorem Profiled.analyse {params : DriverParams} (hps : params.usePS = true) {s t : Driver}
    (h : s.Profiled) {input : StepInput} (hanalyse : s.analyse params input = .ok t) :
    t.Profiled ∧ ∀ fid, ∃ new, t.executions fid = s.executions fid ++ (s.leftOver fid ++ new) ∧
      new.Nodup ∧ ∀ it ∈ new, it ∉ s.executions fid := by
  obtain ⟨manager, report, hpurge, ht⟩ := analyse_ok hanalyse
  obtain ⟨hstack, hnext, hexec, hfid⟩ := foldl_recordLabel input.labels s.manager
  obtain ⟨hstack', hnext', hlabel, hmap⟩ := ADEvent.purgeCallList_execData hpurge
  have hmanager : t.manager = manager := by rw [ht]
  have hfid' : ∀ it, (t.manager.calls it).fid = (s.manager.calls it).fid := fun it => by
    rw [hmanager, ← hfid it]
    exact congrArg Prod.snd (hlabel it)
  have hclosed : ∀ {it}, s.manager.Closed it → t.manager.Closed it := by
    intro it hit
    rw [ADEvent.Closed, hmanager, hstack', hstack, hnext', hnext]
    exact hit
  have hexecutions : ∀ fid, t.executions fid = s.executions fid ++ s.manager.execDataMap fid := by
    intro fid
    rw [executions, ht, List.flatMap_append, List.flatMap_singleton, hexec]
    rfl
  have hleft : ∀ fid, t.manager.execDataMap fid = t.leftOver fid := by
    intro fid
    rw [leftOver, ht, List.getLast?_concat, hmap fid]
    refine List.filter_congr fun it _ => ?_
    have hsame : (manager.calls it).label =
        ((input.labels.foldl recordLabel s.manager).calls it).label :=
      congrArg Prod.fst (hlabel it)
    rw [hsame]
  have hstats : ∀ fid, t.profileCounts fid = s.profileCounts fid +
      (((s.manager.execDataMap fid).length : ℚ), ((s.manager.execDataMap fid).length : ℚ)) := by
    intro fid
    have hcounts := ADLocalFuncStatistics.counts_gatherStatistics
      (input.labels.foldl recordLabel s.manager) params.programIdx params.rank s.step fid
    rw [hexec, hnext] at hcounts
    rw [Driver.profileCounts, ht, statistics, Driver.bufferStorePSdata, if_pos hps]
    simp only
    rw [← List.append_assoc, List.map_append, List.sum_append, List.map_singleton,
      List.sum_singleton, hcounts fun it hit => ?_]
    · rfl
    · obtain ⟨hclosed, hfunc⟩ := h.execData_closed fid it hit
      exact ⟨hclosed.1, (hfid it).trans hfunc⟩
  refine ⟨⟨?_, fun fid it hit => ?_, fun fid => ?_, fun fid => ?_⟩, fun fid => ?_⟩
  · refine ⟨?_, ?_, ?_⟩
    · rw [hmanager, hstack', hstack, hnext', hnext]
      exact h.stacksValid.lt
    · rw [hmanager, hstack', hstack]
      exact h.stacksValid.nodup
    · rw [hmanager, hstack', hstack]
      exact h.stacksValid.thread_eq
  · rw [hfid']
    rw [hexecutions fid] at hit
    have hit := (List.mem_append.mp hit).elim (h.executions_closed fid it)
      (h.execData_closed fid it)
    exact ⟨hclosed hit.1, hit.2⟩
  · rw [hstats fid, h.profileCounts fid, hexecutions fid, List.length_append, Nat.cast_add]
    rfl
  · exact ⟨[], by rw [hleft fid, List.append_nil], List.nodup_nil, fun _ hit => by cases hit⟩
  · obtain ⟨new, hnew, hnodup, hfresh⟩ := h.execData fid
    exact ⟨new, by rw [hexecutions fid, hnew], hnodup, fun it hit => (hfresh it hit).1⟩

/-- An analysis finds no execution again exactly if the previous one left none over. -/
theorem Profiled.analyse_countsOnce_iff {params : DriverParams} (hps : params.usePS = true)
    {s t : Driver} (h : s.Profiled) {input : StepInput}
    (hanalyse : s.analyse params input = .ok t) :
    t.CountsOnce ↔ s.CountsOnce ∧ ∀ fid, s.leftOver fid = [] := by
  obtain ⟨ht, hnew⟩ := h.analyse hps hanalyse
  rw [ht.countsOnce_iff, h.countsOnce_iff, ← forall_and]
  refine forall_congr' fun fid => ?_
  obtain ⟨new, hexec, hnodup, hfresh⟩ := hnew fid
  rw [hexec, List.nodup_append', List.nodup_append']
  constructor
  · rintro ⟨hold, -, hdisjoint⟩
    refine ⟨hold, List.eq_nil_iff_forall_not_mem.mpr fun it hit => ?_⟩
    exact hdisjoint (s.leftOver_subset fid hit) (List.mem_append_left _ hit)
  · rintro ⟨hold, hnil⟩
    rw [hnil]
    refine ⟨hold, ⟨List.nodup_nil, hnodup, List.disjoint_nil_left new⟩, ?_⟩
    exact fun it hit hit' => hfresh it hit' hit

/-- One action keeps the invariant, and the profile counts once as long as it did and the action
analyses no execution again. -/
theorem Profiled.exec {params : DriverParams} (hps : params.usePS = true) {s t : Driver}
    (h : s.Profiled) {a : DriverAction} (hexec : exec params s a = .ok t) :
    t.Profiled ∧ (t.CountsOnce ↔ s.CountsOnce ∧ AllLabeled params s a) := by
  cases a with
  | endRun =>
    cases hexec
    obtain ⟨ht, hexec⟩ := h.sendPSdata params true
    refine ⟨ht, ?_⟩
    rw [ht.countsOnce_iff, h.countsOnce_iff, hexec]
    exact (and_iff_left trivial).symm
  | runFrame input =>
    rw [h.allLabeled_iff]
    obtain ⟨s₁, hread, hrest⟩ := runFrame_ok hexec
    have h₁ : s₁.Profiled ∧ s₁.executions = s.executions ∧ s₁.leftOver = s.leftOver ∧
        s₁.step = s.step := by
      rcases hread with ⟨-, rfl⟩ | ⟨p, -, hframe⟩
      · exact ⟨h, rfl, rfl, rfl⟩
      · exact h.readFrame hframe
    obtain ⟨h₁, hexec₁, hleft₁, hstep₁⟩ := h₁
    have honce₁ : s₁.CountsOnce ↔ s.CountsOnce := by
      rw [h₁.countsOnce_iff, h.countsOnce_iff, hexec₁]
    rcases hrest with ⟨rfl, hnone⟩ | ⟨s₂, hanalyse, rfl⟩
    · refine ⟨h₁, honce₁.trans (and_iff_left fun _ fid => ?_).symm⟩
      rw [← hleft₁]
      refine List.eq_nil_iff_forall_not_mem.mpr fun it hit => ?_
      obtain ⟨new, hmap, -⟩ := h₁.execData fid
      have hit : it ∈ t.manager.execDataMap fid := hmap ▸ List.mem_append_left _ hit
      rw [hnone fid (mem_functions (h₁.execData_closed fid it hit))] at hit
      cases hit
    · have hsend : ∀ u : Driver, u.Profiled →
          ({ u.sendPSdata params false with
            step := (u.sendPSdata params false).step + 1 } : Driver).Profiled ∧
          ({ u.sendPSdata params false with
            step := (u.sendPSdata params false).step + 1 } : Driver).executions = u.executions := by
        intro u hu
        obtain ⟨hsent, hexec⟩ := hu.sendPSdata params false
        obtain ⟨ht, hexec', -⟩ := hsent.extends (t := { u.sendPSdata params false with
          step := (u.sendPSdata params false).step + 1 }) (ADEvent.Extends.refl _) rfl rfl
        exact ⟨ht, hexec'.trans hexec⟩
      rcases hanalyse with ⟨hanalyse, hdo⟩ | ⟨rfl, hdo⟩
      · obtain ⟨ht, hexec⟩ := hsend s₂ (h₁.analyse hps hanalyse).1
        refine ⟨ht, ?_⟩
        rw [ht.countsOnce_iff, hexec, ← (h₁.analyse hps hanalyse).1.countsOnce_iff,
          h₁.analyse_countsOnce_iff hps hanalyse, honce₁, hleft₁, ← hstep₁, hdo]
        simp
      · obtain ⟨ht, hexec⟩ := hsend s₂ h₁
        refine ⟨ht, ?_⟩
        rw [ht.countsOnce_iff, hexec, ← h₁.countsOnce_iff, honce₁, ← hstep₁, hdo]
        simp

/-- In every run of a rank with a parameter server, the function profile has every execution once
if and only if each analysis is made when the executions of the previous one are labeled. -/
theorem profile_countsOnce_iff (params : DriverParams) (hps : params.usePS = true)
    (actions : List DriverAction) {s : Driver} (hrun : actions.foldlM (exec params) new = .ok s) :
    s.CountsOnce ↔ LoopGuard (exec params) (AllLabeled params) new actions := by
  have hloop : ∀ (actions : List DriverAction) (s t : Driver), s.Profiled →
      actions.foldlM (exec params) s = .ok t →
      (t.CountsOnce ↔ s.CountsOnce ∧ LoopGuard (exec params) (AllLabeled params) s actions) := by
    intro actions
    induction actions with
    | nil =>
      intro s t _ hrun
      cases hrun
      exact (and_iff_left trivial).symm
    | cons a rest ih =>
      intro s t hs hrun
      rw [List.foldlM_cons] at hrun
      cases ha : exec params s a with
      | error e =>
        rw [ha] at hrun
        cases hrun
      | ok s₁ =>
        rw [ha] at hrun
        obtain ⟨hs₁, honce⟩ := hs.exec hps ha
        rw [ih s₁ t hs₁ hrun, honce, LoopGuard, ha, and_assoc]
  rw [hloop actions new s profiled_new hrun]
  exact and_iff_right (profiled_new.countsOnce_iff.mpr fun _ => List.nodup_nil)

/-- Two steps with one call of a function each, and the labels that their analyses give. -/
def twoCalls (labels labels' : List CallLabel) : List DriverAction :=
  [.runFrame { callsOnThreads 0 [(0, 100, 150)] with labels := labels },
    .runFrame { callsOnThreads 1 [(0, 200, 250)] with labels := labels' }, .endRun]

/-- With the first call labeled in its own step, each call is counted once. -/
theorem profile_countsOnce_iff_labeled :
    ∃ s, (twoCalls [⟨0, 0, some 1⟩] [⟨1, 0, some 1⟩]).foldlM (exec everyStep) new = .ok s ∧
      s.CountsOnce := by
  cases hrun : (twoCalls [⟨0, 0, some 1⟩] [⟨1, 0, some 1⟩]).foldlM (exec everyStep) new with
  | error e =>
    have hok : ((twoCalls [⟨0, 0, some 1⟩] [⟨1, 0, some 1⟩]).foldlM (exec everyStep)
        new).isOk = true := by
      decide +kernel
    rw [hrun] at hok
    cases hok
  | ok s =>
    exact ⟨s, rfl, (profile_countsOnce_iff everyStep rfl _ hrun).mpr (by decide +kernel)⟩

/-- The first call is not labeled in its own step, and both analyses count it. -/
theorem not_profile_countsOnce :
    ¬∀ (params : DriverParams) (actions : List DriverAction) (s : Driver),
      params.usePS = true → actions.foldlM (exec params) new = .ok s → s.CountsOnce := by
  intro h
  have hrun : ∃ s ∈ ((twoCalls [] [⟨0, 0, some 1⟩, ⟨1, 0, some 1⟩]).foldlM (exec everyStep)
      new).toOption, s.profileCounts 5 = (3, 3) ∧ (s.executions 5).dedup.length = 2 := by
    decide +kernel
  obtain ⟨s, hs, hcounts, hlength⟩ := hrun
  cases hresult : (twoCalls [] [⟨0, 0, some 1⟩, ⟨1, 0, some 1⟩]).foldlM (exec everyStep) new with
  | error e =>
    rw [hresult] at hs
    cases hs
  | ok t =>
    rw [hresult] at hs
    cases hs
    have honce := h everyStep _ s rfl hresult 5
    rw [hcounts, hlength] at honce
    norm_num at honce

end Driver

end Chimbuko
