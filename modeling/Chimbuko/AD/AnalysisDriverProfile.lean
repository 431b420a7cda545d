import Chimbuko.AD.AnalysisDriverRuns

/-!
# The driver's view of its algorithm

To the rest of the driver an analysis is a list of labels: each execution that waits gets a score,
and a label if the model is good enough, and a skipped one is labeled as normal. So a run of the
driver with its algorithm is a run of the driver that is given labels. The profile that such a run
sends counts every execution that an analysis finds waiting, and it counts those again that were
not labeled.
-/

namespace Chimbuko

open ADExecDataInterface ADOutlier Retaking TransitionSystem

namespace Driver

/-- What recording a label does to an execution. -/
def labelCall (r : CallLabel) (d : ExecData) : ExecData :=
  match r.label with
  | none => d.setOutlierScore r.score
  | some label => (d.setOutlierScore r.score).setLabel label

/-- Recording a label changes its call only. -/
theorem calls_recordLabel (m : ADEvent) (r : CallLabel) (it : CallRef) :
    (recordLabel m r).calls it = if it = r.call then labelCall r (m.calls it) else m.calls it := by
  unfold recordLabel ADEvent.modifyCall labelCall
  by_cases hit : it = r.call
  · rw [if_pos hit, hit]
    exact Function.update_self ..
  · rw [if_neg hit]
    exact Function.update_of_ne hit ..

/-- The label of a call is the one that is found. -/
theorem find?_call {labels : List CallLabel} (hnodup : (labels.map CallLabel.call).Nodup)
    {r : CallLabel} (hr : r ∈ labels) : labels.find? (fun r' => r'.call = r.call) = some r := by
  induction labels with
  | nil => cases hr
  | cons first rest ih =>
    obtain ⟨hfresh, hrest⟩ := List.nodup_cons.mp hnodup
    rcases List.mem_cons.mp hr with rfl | hmem
    · rw [List.find?_cons, decide_eq_true rfl]
    · have hne : decide (first.call = r.call) = false :=
        decide_eq_false fun heq => hfresh (heq ▸ List.mem_map_of_mem hmem)
      rw [List.find?_cons, hne]
      exact ih hrest hmem

/-- Recording labels only changes the executions, each by its own label. -/
theorem foldl_recordLabel_eq {labels : List CallLabel} (hnodup : (labels.map CallLabel.call).Nodup)
    (m : ADEvent) :
    labels.foldl recordLabel m =
      { m with
        calls := fun it =>
          ((labels.find? fun r => r.call = it).map fun r => labelCall r (m.calls it)).getD
            (m.calls it) } := by
  induction labels generalizing m with
  | nil => rfl
  | cons r rest ih =>
    obtain ⟨hfresh, hrest⟩ := List.nodup_cons.mp hnodup
    have hcalls : (fun it => ((rest.find? fun r => r.call = it).map fun r' =>
        labelCall r' ((recordLabel m r).calls it)).getD ((recordLabel m r).calls it)) =
        fun it => (((r :: rest).find? fun r => r.call = it).map fun r' =>
          labelCall r' (m.calls it)).getD (m.calls it) := by
      funext it
      rw [List.find?_cons, calls_recordLabel]
      by_cases hit : it = r.call
      · have hnone : rest.find? (fun r => r.call = it) = none := by
          apply List.find?_eq_none.mpr
          intro r' hr' heq
          apply hfresh
          rw [← hit, ← of_decide_eq_true heq]
          exact List.mem_map_of_mem hr'
        rw [hnone, if_pos hit, hit, decide_eq_true rfl]
        rfl
      · have hne : decide (r.call = it) = false := decide_eq_false (Ne.symm hit)
        rw [if_neg hit, hne]
    rw [List.foldl_cons, ih hrest, hcalls]
    rfl

/-- The labels of an analysis are those of the executions that wait, each once. -/
def LabelsWaiting (params : DriverParams) (self : Driver) : DriverAction → Prop
  | .runFrame input =>
    match self.readStep input with
    | .ok (driver, true) => doAnalysisOnStep params driver.step = true →
      (input.labels.map CallLabel.call).Nodup ∧
        ∀ it, it ∈ input.labels.map CallLabel.call ↔
          it ∈ driver.manager.execDataMap (driver.manager.calls it).fid
    | _ => True
  | .endRun => True

/-- Reading keeps the statistics and what the last analysis left over. -/
theorem Profiled.readStep {self t : Driver} (h : self.Profiled) {input : StepInput}
    {haveData : Bool} (hread : self.readStep input = .ok (t, haveData)) :
    t.Profiled ∧ t.executions = self.executions ∧ t.leftOver = self.leftOver := by
  unfold Driver.readStep at hread
  cases hparsed : input.parsed with
  | none =>
    rw [hparsed] at hread
    cases hread
    exact ⟨h, rfl, rfl⟩
  | some p =>
    rw [hparsed] at hread
    obtain ⟨t', hframe, hread⟩ := bind_eq_ok hread
    cases hread
    obtain ⟨ht, hexec, hleft, -⟩ := h.readFrame hframe
    exact ⟨ht, hexec, hleft⟩

/-- A step that found data goes on with what is left of an analysis, or with what was read. -/
theorem exec_runFrame {params : DriverParams} {self driver next : Driver} {input : StepInput}
    (hread : self.readStep input = .ok (driver, true))
    (hnext : doAnalysisOnStep params driver.step = true ∧ driver.analyse params input = .ok next ∨
      doAnalysisOnStep params driver.step = false ∧ next = driver) :
    exec params self (.runFrame input) = .ok
      { next.sendPSdata params false with step := (next.sendPSdata params false).step + 1 } := by
  change (self.runFrame params input >>= _) = _
  unfold runFrame
  rw [hread]
  rcases hnext with ⟨hdo, hanalyse⟩ | ⟨hdo, rfl⟩
  · simp only [bind, Except.bind, hdo, if_true, hanalyse]
    rfl
  · simp only [bind, Except.bind, hdo]
    rfl

end Driver

/-- The labels that an analysis gives to the executions that it ignored and to those that it
took. -/
def labelsOf {P : Type} (assess : P → ℕ → ℚ → Assessment) (iface : ADExecDataInterface) (param : P)
    (ignored presented : List CallRef) : List CallLabel :=
  (ignored.map fun it =>
    { call := it, score := (iface.manager.calls it).score, label := some 1 }) ++
  presented.map fun it =>
    let d := iface.manager.calls it
    let a := assess param d.fid (iface.getStatisticValue d)
    { call := it, score := a.2, label := labelCode a.1 }

/-- The calls with labels are those ignored and those presented. -/
theorem call_labelsOf {P : Type} (assess : P → ℕ → ℚ → Assessment) (iface : ADExecDataInterface)
    (param : P) (ignored presented : List CallRef) :
    (labelsOf assess iface param ignored presented).map CallLabel.call = ignored ++ presented := by
  unfold labelsOf
  rw [List.map_append, List.map_map, List.map_map]
  exact congrArg₂ _ (List.map_id ignored) (List.map_id presented)

/-- An analysis leaves the executions as recording these labels does. -/
theorem foldl_labelsOf {P : Type} {A : ADAlgorithm P} {assess : P → ℕ → ℚ → Assessment}
    {iface presented done : ADExecDataInterface} {ignored : List CallRef} {reply : P}
    {before synced after : ADOutlier P}
    (h : Analysed A assess iface presented done ignored reply before synced after)
    (hvalid : ExecsValid iface.manager)
    (hnodup : (ignored ++ presentedCalls presented.manager iface.dsetFidMap).Nodup) :
    (labelsOf assess iface synced.param ignored
      (presentedCalls presented.manager iface.dsetFidMap)).foldl Driver.recordLabel iface.manager =
        done.manager := by
  set labels := labelsOf assess iface synced.param ignored
    (presentedCalls presented.manager iface.dsetFidMap) with hlabels
  have hcalls : (labels.map CallLabel.call).Nodup := by
    rw [hlabels, call_labelsOf]
    exact hnodup
  have hmanager : done.manager = { iface.manager with calls := done.manager.calls } := by
    have hpresented := h.ignoring.manager
    rw [h.recorded]
    unfold recorded assessCalls
    simp only [hpresented]
    rfl
  rw [Driver.foldl_recordLabel_eq hcalls, hmanager]
  congr 1
  funext it
  have hfind : ∀ r ∈ labels, r.call = it → labels.find? (fun r => r.call = it) = some r := by
    rintro r hr rfl
    exact Driver.find?_call hcalls hr
  rcases h.call_cases hvalid it with ⟨hin, -, heq⟩ | ⟨hnot, ⟨hin, heq⟩ | ⟨hnot', heq⟩⟩
  · rw [hfind { call := it, score := (iface.manager.calls it).score, label := some 1 } _ rfl, heq]
    · rfl
    · exact List.mem_append_left _ (List.mem_map.mpr ⟨it, hin, rfl⟩)
  · rw [hfind _ (List.mem_append_right _ (List.mem_map_of_mem hin)) rfl, heq]
    rfl
  · have hnone : labels.find? (fun r => r.call = it) = none := by
      apply List.find?_eq_none.mpr
      intro r hr hit
      have hmem : it ∈ labels.map CallLabel.call := by
        rw [← of_decide_eq_true hit]
        exact List.mem_map_of_mem hr
      rw [hlabels, call_labelsOf] at hmem
      exact (List.mem_append.mp hmem).elim hnot hnot'
    rw [hnone, heq]
    rfl

namespace AnalysisDriver

variable [LibM] {params : AnalysisParams} {model : params.algo.Param}
  {s t : AnalysisDriver params.algo.Param}

/-- An analysis is one of the driver that is given labels, those of the executions that wait. -/
theorem analyse_labels {skipped : List CallRef}
    (h : Accounted params s.driver.manager s.funcSeen s.given skipped)
    {input : AnalysisInput params.algo.Param}
    (hlists : ListsFunctions input.fids s.driver.manager) (hanalyse : s.analyse input = .ok t) :
    ∃ labels : List CallLabel,
      s.driver.analyse params.driver
        { parsed := input.parsed, labels := labels, threads := input.threads } = .ok t.driver ∧
      (labels.map CallLabel.call).Nodup ∧
      ∀ it, it ∈ labels.map CallLabel.call ↔
        it ∈ s.driver.manager.execDataMap (s.driver.manager.calls it).fid := by
  obtain ⟨presented, done, ignored, synced, hanalysed, htook, -, -, hdriver⟩ :=
    analyse_analysed h.executions hlists hanalyse
  have hsetup := params.setupInterface_eq s.funcSeen s.driver.manager input.fids
  have hfirst := hanalysed.firstCalls (by rw [hsetup])
  have hcalls := givenOf_calls hanalysed
  generalize params.setupInterface s.funcSeen s.driver.manager input.fids = iface at *
  have hmanager : iface.manager = s.driver.manager := by rw [hsetup]
  have hignored : ignored.Nodup := by
    by_cases hon : params.ignoresFirst = true
    · have hbefore : iface.localFuncExecSeen.Nodup := by
        rw [hsetup, hon]
        exact h.nodup
      have hafter := hfirst.nodup hbefore
      rw [hfirst.seen, List.nodup_append'] at hafter
      exact (List.nodup_reverse.mp hafter.1).of_map
    · have hflag : iface.ignoreFirstFuncCall = false := by
        rw [hsetup]
        exact Bool.eq_false_iff.mpr hon
      rw [hfirst.off hflag]
      exact List.nodup_nil
  have hnodup : (ignored ++ presentedCalls presented.manager iface.dsetFidMap).Nodup := by
    rw [List.nodup_append', ← hcalls]
    refine ⟨hignored, htook.nodup, fun it hit hin => ?_⟩
    obtain ⟨e, he, rfl⟩ := List.mem_map.mp hin
    exact htook.disjoint e he hit
  have hvalid : ExecsValid iface.manager := by
    rw [hmanager]
    exact h.executions.execsValid
  have hfold := foldl_labelsOf hanalysed hvalid hnodup
  refine ⟨labelsOf params.algo.assess iface synced.param ignored
    (presentedCalls presented.manager iface.dsetFidMap), ?_, ?_, fun it => ?_⟩
  · rw [hmanager] at hfold
    unfold Driver.analyse at hdriver ⊢
    dsimp only at hdriver ⊢
    rw [hfold]
    exact hdriver
  · rw [call_labelsOf]
    exact hnodup
  · rw [call_labelsOf, List.mem_append, ← hcalls]
    constructor
    · rintro (hit | hit)
      · exact (htook.ignored_mem it hit).1
      · obtain ⟨e, he, rfl⟩ := List.mem_map.mp hit
        have hmem := (htook.given_mem e he).1
        rwa [(h.executions.closed _ _ hmem).2]
    · intro hit
      exact htook.all _ it hit (h.unlabeled hit)

/-- An action is one of the driver that is given the labels of the executions that wait. -/
theorem exec_driver {skipped : List CallRef}
    (h : Accounted params s.driver.manager s.funcSeen s.given skipped)
    {a : AnalysisAction params.algo.Param} (hlists : s.Lists a) (hexec : s.exec a = .ok t) :
    ∃ a', Driver.LabelsWaiting params.driver s.driver a' ∧
      Driver.exec params.driver s.driver a' = .ok t.driver := by
  cases a with
  | endRun =>
    cases hexec
    exact ⟨.endRun, trivial, rfl⟩
  | runFrame input =>
    obtain ⟨⟨t', haveData⟩, hframe, hexec⟩ := bind_eq_ok hexec
    cases hexec
    obtain ⟨driver, hread, hcase⟩ := runFrame_cases hframe
    unfold Lists at hlists
    dsimp only at hlists
    rw [hread] at hlists
    have hafter : Accounted params driver.manager s.funcSeen s.given skipped :=
      h.completes (Driver.readStep_cases hread).1
    have hreads : ∀ labels : List CallLabel, s.driver.readStep
        { parsed := input.parsed, labels := labels, threads := input.threads } =
          .ok (driver, haveData) := fun _ => hread
    rcases hcase with ⟨rfl, rfl⟩ | ⟨rfl, u, ⟨hdo, hanalyse⟩ | ⟨hdo, rfl⟩, rfl⟩
    · refine ⟨.runFrame { parsed := input.parsed, labels := [], threads := input.threads }, ?_, ?_⟩
      · unfold Driver.LabelsWaiting
        dsimp only
        rw [hreads]
        trivial
      · change (Driver.runFrame params.driver s.driver _ >>= _) = _
        unfold Driver.runFrame
        rw [hreads]
        rfl
    · obtain ⟨labels, hlabels, hnodup, hwaiting⟩ :=
        analyse_labels (s := { s with driver := driver }) hafter hlists hanalyse
      refine ⟨.runFrame { parsed := input.parsed, labels := labels, threads := input.threads },
        ?_, Driver.exec_runFrame (hreads labels) (Or.inl ⟨hdo, hlabels⟩)⟩
      unfold Driver.LabelsWaiting
      dsimp only
      rw [hreads]
      exact fun _ => ⟨hnodup, hwaiting⟩
    · refine ⟨.runFrame { parsed := input.parsed, labels := [], threads := input.threads },
        ?_, Driver.exec_runFrame (hreads []) (Or.inr ⟨hdo, rfl⟩)⟩
      unfold Driver.LabelsWaiting
      dsimp only
      rw [hreads]
      exact fun hdue => absurd (hdo.symm.trans hdue) Bool.false_ne_true

/-- A run of the driver with its algorithm is a run of the driver that is given labels: on each
step that is analysed, of exactly the executions that wait, each once. -/
theorem runs_driver (hrun : Runs (StepOf exec) Lists (start params model) s) :
    Runs (StepOf (Driver.exec params.driver)) (Driver.LabelsWaiting params.driver) Driver.new
      s.driver := by
  refine (hrun.invariant (fun s => (∃ skipped,
      Accounted params s.driver.manager s.funcSeen s.given skipped) ∧
    Runs (StepOf (Driver.exec params.driver)) (Driver.LabelsWaiting params.driver) Driver.new
      s.driver) ⟨⟨[], accounted_new params⟩, .refl⟩ ?_).2
  rintro s a t ⟨⟨skipped, h⟩, hdriver⟩ hlists hexec
  obtain ⟨a', hlabels, hexec'⟩ := exec_driver h hlists hexec
  exact ⟨accounted_exec h hlists hexec, hdriver.tail hlabels hexec'⟩

omit [LibM] in
/-- The driver is given the labels of three analyses. -/
theorem runs_driver_threeCalls : letI := LibM.interpolated
    ∃ s : AnalysisDriver SstdParam,
      s.given.map (fun g => g.map GivenExec.label) = [[0], [1, 1], [1]] ∧
      Runs (StepOf (Driver.exec (everyCall (.sstd 6) true).driver))
        (Driver.LabelsWaiting (everyCall (.sstd 6) true).driver) Driver.new s.driver := by
  let _ := LibM.interpolated
  let params := everyCall (.sstd 6) true
  have hrun : ∃ s ∈ runAll (@exec _ params) Lists (start params SstdParam.new)
      (oneCallPerStep SstdParam.new 3),
      s.given.map (fun g => g.map GivenExec.label) = [[0], [1, 1], [1]] := by
    decide +kernel
  obtain ⟨s, hs, hlabels⟩ := hrun
  have hruns : Runs (StepOf (@exec _ params)) Lists (start params SstdParam.new) s :=
    runs_of_runAll _ hs
  exact ⟨s, hlabels, runs_driver hruns⟩

/-- The profile of a run, next to what its analyses took. -/
structure ProfileFollows (s : AnalysisDriver params.algo.Param) : Prop where
  accounted : ∃ skipped, Accounted params s.driver.manager s.funcSeen s.given skipped
  profiled : s.driver.Profiled
  left : (∀ fid, s.driver.leftOver fid = []) ↔ ∀ g ∈ s.given.getLast?, ∀ e ∈ g, e.label ≠ 0
  counts : s.driver.CountsOnce ↔ ∀ g ∈ s.given.dropLast, ∀ e ∈ g, e.label ≠ 0

omit [LibM] in
/-- What leaves the statistics and the analyses as they are. -/
theorem ProfileFollows.of_same (h : ProfileFollows s) (hprofiled : t.driver.Profiled)
    (haccounted : ∃ skipped, Accounted params t.driver.manager t.funcSeen t.given skipped)
    (hexec : t.driver.executions = s.driver.executions)
    (hleft : t.driver.leftOver = s.driver.leftOver) (hgiven : t.given = s.given) :
    ProfileFollows t := by
  refine ⟨haccounted, hprofiled, ?_, ?_⟩
  · rw [hleft, hgiven]
    exact h.left
  · rw [hprofiled.countsOnce_iff, hexec, ← h.profiled.countsOnce_iff, hgiven]
    exact h.counts

/-- An analysis keeps the profile in step. -/
theorem ProfileFollows.analyse (hps : params.driver.usePS = true) (h : ProfileFollows s)
    {input : AnalysisInput params.algo.Param}
    (hlists : ListsFunctions input.fids s.driver.manager) (hanalyse : s.analyse input = .ok t) :
    ProfileFollows t := by
  obtain ⟨skipped, haccounted⟩ := h.accounted
  obtain ⟨labels, hdriver, -, -⟩ := analyse_labels haccounted hlists hanalyse
  obtain ⟨presented, done, ignored, synced, -, htook, -, hgiven, -⟩ :=
    analyse_analysed haccounted.executions hlists hanalyse
  obtain ⟨skipped', haccounted'⟩ := accounted_analyse haccounted hlists hanalyse
  have hprofiled := (h.profiled.analyse hps hdriver).1
  have hleft : ∀ fid, t.driver.leftOver fid = t.driver.manager.execDataMap fid := by
    intro fid
    obtain ⟨manager, report, -, ht⟩ := Driver.analyse_ok hdriver
    have hlast : t.driver.analyses.getLast?.map (fun r => r.execData fid) =
        some (s.driver.manager.execDataMap fid) := by
      rw [ht, List.getLast?_concat, Option.map_some,
        (Driver.foldl_recordLabel labels s.driver.manager).2.2.1]
    unfold Driver.leftOver
    rw [hlast, htook.execData]
    rfl
  refine ⟨⟨skipped', haccounted'⟩, hprofiled, ?_, ?_⟩
  · rw [hgiven, List.getLast?_concat]
    constructor
    · intro hnil g hg e he hzero
      rw [Option.mem_some_iff] at hg
      have hwaits := (haccounted'.waiting g (by rw [hgiven, List.getLast?_concat, hg]; rfl) e he
        hzero).2
      rw [← hleft, hnil] at hwaits
      exact List.not_mem_nil hwaits
    · intro hall fid
      rw [hleft, List.eq_nil_iff_forall_not_mem]
      intro it hit
      obtain ⟨e, he, rfl, -⟩ := htook.given_of_waits haccounted.executions
        (fun fid it hmem => haccounted.unlabeled hmem) hit
      apply hall _ rfl e he
      rw [← (htook.given_mem e he).2.2.1, haccounted'.unlabeled hit]
  · rw [h.profiled.analyse_countsOnce_iff hps hdriver, h.counts, h.left, hgiven,
      List.dropLast_concat]
    constructor
    · rintro ⟨hbefore, hlast⟩ g hg
      by_cases hin : g ∈ s.given.dropLast
      · exact hbefore g hin
      · have hne := List.ne_nil_of_mem hg
        rw [← List.dropLast_append_getLast hne, List.mem_append, List.mem_singleton] at hg
        apply hlast g
        rw [List.getLast?_eq_some_getLast hne, hg.resolve_left hin]
        rfl
    · intro hall
      exact ⟨fun g hg => hall g (List.mem_of_mem_dropLast hg),
        fun g hg => hall g (List.mem_of_getLast? hg)⟩

/-- In every run with a parameter server, the function profile has each execution once exactly if
every analysis but the last one labeled all executions that it took. -/
theorem profile_once_iff_labeled (hps : params.driver.usePS = true)
    (hrun : Runs (StepOf exec) Lists (start params model) s) :
    s.driver.CountsOnce ↔ ∀ g ∈ s.given.dropLast, ∀ e ∈ g, e.label ≠ 0 := by
  have hsend : ∀ (u : Driver) (force : Bool), u.Profiled →
      (u.sendPSdata params.driver force).Profiled ∧
        (u.sendPSdata params.driver force).executions = u.executions ∧
        (u.sendPSdata params.driver force).leftOver = u.leftOver := by
    intro u force hu
    obtain ⟨-, hmanager, hanalyses⟩ := Driver.statistics_sendPSdata params.driver u force
    obtain ⟨hprofiled, hexec⟩ := hu.sendPSdata params.driver force
    refine ⟨hprofiled, hexec, ?_⟩
    funext fid
    unfold Driver.leftOver
    rw [hmanager, hanalyses]
  refine (hrun.invariant ProfileFollows ⟨⟨[], accounted_new params⟩, Driver.profiled_new, ?_, ?_⟩
    ?_).counts
  · exact iff_of_true (fun _ => rfl) fun _ hg => nomatch hg
  · exact iff_of_true (Driver.profiled_new.countsOnce_iff.mpr fun _ => List.nodup_nil)
      fun _ hg => nomatch hg
  · intro s a t h hlists hexec
    obtain ⟨skipped, haccounted⟩ := h.accounted
    have haccounted' := accounted_exec haccounted hlists hexec
    cases a with
    | endRun =>
      cases hexec
      obtain ⟨hprofiled, hexecs, hleft⟩ := hsend s.driver true h.profiled
      exact h.of_same hprofiled haccounted' hexecs hleft rfl
    | runFrame input =>
      obtain ⟨⟨t', haveData⟩, hframe, hexec⟩ := bind_eq_ok hexec
      cases hexec
      obtain ⟨driver, hread, hcase⟩ := runFrame_cases hframe
      unfold Lists at hlists
      dsimp only at hlists
      rw [hread] at hlists
      obtain ⟨hprofiled, hexecs, hleft⟩ := h.profiled.readStep hread
      have hafter : ProfileFollows { s with driver := driver } :=
        h.of_same hprofiled ⟨skipped, haccounted.completes (Driver.readStep_cases hread).1⟩
          hexecs hleft rfl
      have hnext : ∀ u : AnalysisDriver params.algo.Param, ProfileFollows u →
          ProfileFollows { u with driver := { u.driver.sendPSdata params.driver false with
            step := (u.driver.sendPSdata params.driver false).step + 1 } } := by
        intro u hu
        obtain ⟨hprofiled, hexecs, hleft⟩ := hsend u.driver false hu.profiled
        have hmanager := (Driver.statistics_sendPSdata params.driver u.driver false).2.1
        refine hu.of_same ⟨hprofiled.stacksValid, hprofiled.executions_closed,
          hprofiled.profileCounts, hprofiled.execData⟩ ?_ hexecs hleft rfl
        dsimp only
        rw [hmanager]
        exact hu.accounted
      rcases hcase with ⟨-, rfl⟩ | ⟨-, u, ⟨-, hanalyse⟩ | ⟨-, rfl⟩, rfl⟩
      · exact hafter
      · exact hnext u (hafter.analyse hps hlists hanalyse)
      · exact hnext _ hafter

omit [LibM] in
/-- The server's model has no values, so the second analysis takes and counts the first call
again. -/
theorem profile_once_iff_labeled_twoCalls : letI := LibM.interpolated
    ∃ s : AnalysisDriver SstdParam,
      s.given.map (fun g => g.map GivenExec.call) = [[0], [0, 1]] ∧ ¬s.driver.CountsOnce := by
  let _ := LibM.interpolated
  let params := { everyCall (.sstd 6) true with driver := Driver.everyStep }
  have hrun : ∃ s ∈ runAll (@exec _ params) Lists (start params SstdParam.new)
      (oneCallPerStep SstdParam.new 2),
      s.given.map (fun g => g.map GivenExec.call) = [[0], [0, 1]] ∧
        ∃ g ∈ s.given.dropLast, ∃ e ∈ g, e.label = 0 := by
    decide +kernel
  obtain ⟨s, hs, hgiven, g, hg, e, he, hlabel⟩ := hrun
  have hruns : Runs (StepOf (@exec _ params)) Lists (start params SstdParam.new) s :=
    runs_of_runAll _ hs
  refine ⟨s, hgiven, fun honce => ?_⟩
  exact (profile_once_iff_labeled rfl hruns).mp honce g hg e he hlabel

end AnalysisDriver

end Chimbuko
