import Chimbuko.AD.AnalysisDriverModels
import Mathlib.Data.Nat.Count

/-!
# The end of the input

Once the stream has ended no executions are completed any more, and the loop goes on for as long as
some wait. Those are taken by every analysis. If models are synchronised, the values of what waits
go out with each of them, so that after a number of steps there are enough and the loop ends. If
the model is frozen, what the first analysis does not label is never labeled.
-/

namespace Chimbuko

open Batching TransitionSystem

namespace Driver

/-- Sending statistics leaves the step. -/
theorem step_sendPSdata (params : DriverParams) (self : Driver) (force : Bool) :
    (self.sendPSdata params force).step = self.step := by
  unfold sendPSdata
  split
  · split <;> rfl
  · rfl

/-- An analysis leaves the step. -/
theorem step_analyse {params : DriverParams} {self t : Driver} {input : StepInput}
    (h : self.analyse params input = .ok t) : t.step = self.step := by
  obtain ⟨manager, report, -, ht⟩ := analyse_ok h
  have hbuffer : ∀ u : Driver, (u.bufferStorePSdata params).step = u.step := by
    intro u
    unfold bufferStorePSdata
    split <;> rfl
  rw [ht]
  exact hbuffer _

/-- The number of steps before some step that are analysed. -/
def analysesBefore (params : DriverParams) (step : ℕ) : ℕ :=
  step.count fun k => doAnalysisOnStep params k

/-- So many consecutive steps have so many analyses. -/
theorem analysesBefore_add_le (params : DriverParams) (step count : ℕ) :
    analysesBefore params step + count ≤
      analysesBefore params (step + count * (params.analysisStepFreq : ℕ)) := by
  induction count with
  | zero => rw [Nat.zero_mul, Nat.add_zero, Nat.add_zero]
  | succ count ih =>
    -- one of the steps from the last of these on is analysed
    have hone : ∀ a, analysesBefore params a + 1 ≤
        analysesBefore params (a + (params.analysisStepFreq : ℕ)) := by
      intro a
      set freq := (params.analysisStepFreq : ℕ)
      have hpos : 0 < freq := params.analysisStepFreq.pos
      obtain ⟨k, hle, hlt, hdue⟩ : ∃ k, a ≤ k ∧ k < a + freq ∧
          doAnalysisOnStep params k = true := by
        refine ⟨freq * ((a + freq - 1) / freq), ?_, ?_, decide_eq_true (Nat.mul_mod_right _ _)⟩
        · have hdiv := Nat.div_add_mod (a + freq - 1) freq
          have hmod := Nat.mod_lt (a + freq - 1) hpos
          omega
        · have hdiv := Nat.mul_div_le (a + freq - 1) freq
          omega
      have hbefore : analysesBefore params a ≤ analysesBefore params k := Nat.count_monotone _ hle
      have hafter : analysesBefore params (k + 1) ≤ analysesBefore params (a + freq) :=
        Nat.count_monotone _ hlt
      have hcount : analysesBefore params (k + 1) = analysesBefore params k + 1 := by
        unfold analysesBefore
        rw [Nat.count_succ, if_pos hdue]
      omega
    have hnext := hone (step + count * (params.analysisStepFreq : ℕ))
    have hmul : step + (count + 1) * (params.analysisStepFreq : ℕ) =
        step + count * (params.analysisStepFreq : ℕ) + (params.analysisStepFreq : ℕ) := by ring
    rw [hmul]
    omega

end Driver

namespace AnalysisDriver

variable [LibM] {params : AnalysisParams} {model : params.algo.Param}

/-- Steps without input that all report data. -/
inductive Idles (s : AnalysisDriver params.algo.Param) :
    ℕ → AnalysisDriver params.algo.Param → Prop
  | refl : Idles s 0 s
  | step {n : ℕ} {t u : AnalysisDriver params.algo.Param}
      {input : AnalysisInput params.algo.Param} : Idles s n t → input.parsed = none →
      t.Lists (.runFrame input) → t.runFrame input = .ok (u, true) → Idles s (n + 1) u

/-- A step without input: nothing is read, and there are data if executions wait. -/
theorem runFrame_none_cases {t u : AnalysisDriver params.algo.Param}
    {input : AnalysisInput params.algo.Param} {haveData : Bool} (hnone : input.parsed = none)
    (hlists : t.Lists (.runFrame input)) (h : t.runFrame input = .ok (u, haveData)) :
    ListsFunctions input.fids t.driver.manager ∧
      haveData = (t.driver.manager.functions.any fun fid =>
        0 < (t.driver.manager.execDataMap fid).length) ∧
      (haveData = false ∧ u = t ∨ haveData = true ∧ ∃ v : AnalysisDriver params.algo.Param,
        (Driver.doAnalysisOnStep params.driver t.driver.step = true ∧ t.analyse input = .ok v ∨
          Driver.doAnalysisOnStep params.driver t.driver.step = false ∧ v = t) ∧
        u.driver.manager = v.driver.manager ∧ u.given = v.given ∧
        u.driver.step = v.driver.step + 1 ∧ u.outlier = v.outlier ∧ u.funcSeen = v.funcSeen) := by
  obtain ⟨driver, hread, hcase⟩ := runFrame_cases h
  have hsame :
      t.driver.readStep { parsed := input.parsed, labels := [], threads := input.threads } =
      .ok (t.driver, t.driver.manager.functions.any fun fid =>
        0 < (t.driver.manager.execDataMap fid).length) := by
    unfold Driver.readStep
    rw [hnone]
    rfl
  unfold Lists at hlists
  dsimp only at hlists
  rw [hsame] at hread hlists
  cases hread
  refine ⟨hlists, rfl, ?_⟩
  rcases hcase with ⟨hno, rfl⟩ | ⟨hyes, v, hv, rfl⟩
  · exact Or.inl ⟨hno, rfl⟩
  · refine Or.inr ⟨hyes, v, hv, ?_, rfl, ?_, rfl, rfl⟩
    · exact (Driver.statistics_sendPSdata params.driver v.driver false).2.1
    · exact congrArg (· + 1) (Driver.step_sendPSdata params.driver v.driver false)

/-- There was an analysis for each step that is one for it. -/
theorem given_length {s : AnalysisDriver params.algo.Param}
    (hrun : Runs (StepOf exec) Lists (start params model) s) :
    s.given.length = Driver.analysesBefore params.driver s.driver.step := by
  refine hrun.invariant
    (fun s => s.given.length = Driver.analysesBefore params.driver s.driver.step) ?_ ?_
  · exact (Nat.count_zero _).symm
  · intro s a t h _ hexec
    cases a with
    | endRun =>
      cases hexec
      dsimp only
      rw [Driver.step_sendPSdata]
      exact h
    | runFrame input =>
      obtain ⟨⟨t', haveData⟩, hframe, hexec⟩ := bind_eq_ok hexec
      cases hexec
      obtain ⟨driver, hread, hcase⟩ := runFrame_cases hframe
      have hstep := (Driver.readStep_cases hread).2.1
      rw [← hstep] at h
      have hcount : ∀ k, Driver.analysesBefore params.driver (k + 1) =
          Driver.analysesBefore params.driver k +
            if Driver.doAnalysisOnStep params.driver k = true then 1 else 0 := fun k =>
        Nat.count_succ _ k
      rcases hcase with ⟨-, rfl⟩ | ⟨-, u, ⟨hdo, hanalyse⟩ | ⟨hdo, rfl⟩, rfl⟩
      · exact h
      · obtain ⟨data, -, hdriver, -, hgiven⟩ := analyse_cases hanalyse
        have hsame := Driver.step_analyse hdriver
        dsimp only at hsame ⊢
        rw [Driver.step_sendPSdata, hsame, hcount, if_pos hdo, hgiven, List.length_append,
          List.length_singleton]
        exact congrArg (· + 1) h
      · dsimp only
        rw [Driver.step_sendPSdata, hcount, hdo]
        exact h

variable {s t u : AnalysisDriver params.algo.Param} {n : ℕ}

/-- Steps without input continue a run. -/
theorem Idles.runs (h : Idles s n t)
    (hrun : Runs (StepOf exec) Lists (start params model) s) :
    Runs (StepOf exec) Lists (start params model) t := by
  induction h with
  | refl => exact hrun
  | @step n t u input _ _ hlists hframe ih =>
    refine ih.tail hlists ?_
    change (t.runFrame input >>= _) = Except.ok u
    rw [hframe]
    rfl

/-- Each step without input is counted. -/
theorem Idles.step_eq (h : Idles s n t) : t.driver.step = s.driver.step + n := by
  induction h with
  | refl => rfl
  | @step n t u input _ hnone hlists hframe ih =>
    obtain ⟨-, -, hcase⟩ := runFrame_none_cases hnone hlists hframe
    rcases hcase with ⟨hno, -⟩ | ⟨-, v, hv, -, -, hstep, -⟩
    · cases hno
    · have hsame : v.driver.step = t.driver.step := by
        rcases hv with ⟨-, hanalyse⟩ | ⟨-, rfl⟩
        · obtain ⟨data, -, hdriver, -, -⟩ := analyse_cases hanalyse
          exact (Driver.step_analyse hdriver).trans rfl
        · rfl
      rw [hstep, hsame, ih]
      rfl

/-- What waits after an analysis waited before and was taken by it. -/
theorem waiting_analyse {input : AnalysisInput params.algo.Param}
    (hrun : Runs (StepOf exec) Lists (start params model) s)
    (hlists : ListsFunctions input.fids s.driver.manager) (h : s.analyse input = .ok t) :
    ∃ g, t.given = s.given ++ [g] ∧ ∀ fid,
      t.driver.manager.execDataMap fid =
        (s.driver.manager.execDataMap fid).filter
          (fun it => (t.driver.manager.calls it).label = 0) ∧
      ∀ it ∈ t.driver.manager.execDataMap fid, it ∈ g.map GivenExec.call := by
  obtain ⟨skipped, haccounted⟩ := (modelled hrun).accounted
  obtain ⟨presented, done, ignored, synced, -, htook, -, hgiven, -⟩ :=
    analyse_analysed haccounted.executions hlists h
  refine ⟨givenOf done, hgiven, fun fid => ⟨htook.execData fid, fun it hit => ?_⟩⟩
  obtain ⟨e, he, hcall, -⟩ := htook.given_of_waits haccounted.executions
    (fun fid it hmem => haccounted.unlabeled hmem) hit
  exact List.mem_map.mpr ⟨e, he, hcall⟩

/-- What still waits was taken by every analysis since the end of the input. -/
theorem Idles.taken
    (hrun : Runs (StepOf exec) Lists (start params model) s) (h : Idles s n t) :
    ∃ rounds, t.given = s.given ++ rounds ∧
      ∀ fid, ∀ it ∈ t.driver.manager.execDataMap fid, ∀ g ∈ rounds, it ∈ g.map GivenExec.call := by
  induction h with
  | refl => exact ⟨[], (List.append_nil _).symm, fun _ _ _ g hg => absurd hg List.not_mem_nil⟩
  | @step n t u input hbefore hnone hlists hframe ih =>
    obtain ⟨rounds, hgiven, hrounds⟩ := ih
    obtain ⟨hfids, -, hcase⟩ := runFrame_none_cases hnone hlists hframe
    rcases hcase with ⟨hno, -⟩ | ⟨-, v, ⟨-, hanalyse⟩ | ⟨-, rfl⟩, hmanager, hgiven', -⟩
    · cases hno
    · obtain ⟨g, hg, hwaiting⟩ := waiting_analyse (hbefore.runs hrun) hfids hanalyse
      refine ⟨rounds ++ [g], ?_, fun fid it hit g' hg' => ?_⟩
      · rw [hgiven', hg, hgiven, List.append_assoc]
      · rw [hmanager] at hit
        rcases List.mem_append.mp hg' with hold | hnew
        · apply hrounds fid it _ g' hold
          rw [(hwaiting fid).1] at hit
          exact (List.mem_filter.mp hit).1
        · rw [List.mem_singleton.mp hnew]
          exact (hwaiting fid).2 it hit
    · refine ⟨rounds, hgiven'.trans hgiven, fun fid it hit => ?_⟩
      rw [hmanager] at hit
      exact hrounds fid it hit

omit [LibM] in
/-- Each analysis that took an execution of a function has a value of it. -/
theorem length_valuesAt_take {given : List (List GivenExec)} {fid first : ℕ}
    (h : ∀ k g, first ≤ k → given[k]? = some g → ∃ e ∈ g, e.fid = fid) {k : ℕ}
    (hk : k ≤ given.length) : k - first ≤ (valuesAt (given.take k).flatten fid).length := by
  induction k with
  | zero => rw [Nat.zero_sub]; exact Nat.zero_le _
  | succ k ih =>
    have hget : given[k]? = some given[k] := List.getElem?_eq_getElem hk
    rw [List.take_add_one, hget, List.flatten_append, valuesAt_append, List.length_append]
    have hbefore := ih (Nat.le_of_succ_le hk)
    by_cases hfirst : first ≤ k
    · obtain ⟨e, he, hfid⟩ := h k _ hfirst hget
      have hvalue : 0 < (valuesAt (some given[k]).toList.flatten fid).length := by
        unfold valuesAt
        rw [List.length_map]
        apply List.length_pos_of_mem (a := e)
        rw [Option.toList_some, List.flatten_singleton]
        exact List.mem_filter.mpr ⟨he, decide_eq_true hfid⟩
      omega
    · omega

/-- What waits at the end of steps without input was taken by every analysis in them, and none of
these had enough values of its function to label it. -/
theorem Idles.waiting_cases {Holds : params.algo.Param → (ℕ → List ℚ) → Prop}
    (hkeeps : params.algo.setAlgorithm.toADAlgorithm.Keeps Holds params.algo.Ready)
    (hdecides : params.algo.setAlgorithm.Decides Holds params.algo.assess params.algo.Usable
      params.algo.enough)
    (hps : params.driver.usePS = false) {pushed : ℕ → List ℚ} (hmodel : Holds model pushed)
    (hrun : Runs (StepOf exec) Lists (start params model) s) (h : Idles s n t) {fid : ℕ}
    {it : CallRef} (hit : it ∈ t.driver.manager.execDataMap fid) {k : ℕ}
    (hk : s.given.length ≤ k) (hk' : k < t.given.length) :
    (pushed fid).length + (outBy params.SyncsOn (k + 1) - s.given.length) < params.algo.enough := by
  obtain ⟨rounds, hgiven, hrounds⟩ := h.taken hrun
  have hmodelled := modelled (h.runs hrun)
  obtain ⟨skipped, haccounted⟩ := hmodelled.accounted
  have hfid := (haccounted.executions.closed fid it hit).2
  -- the entry of the execution in the round of an analysis
  have htaken : ∀ k g, s.given.length ≤ k → t.given[k]? = some g →
      ∃ e ∈ g, e.call = it ∧ e.fid = fid ∧ e.label = 0 := by
    intro k g hk hg
    have hmem : g ∈ t.given := List.mem_of_getElem? hg
    rw [hgiven, List.getElem?_append_right hk] at hg
    obtain ⟨e, he, hcall⟩ := List.mem_map.mp (hrounds fid it hit g (List.mem_of_getElem? hg))
    have hfunc : e.fid = fid := by
      rw [← (haccounted.taken g hmem e he).2.1, hcall, hfid]
    refine ⟨e, he, hcall, hfunc, ?_⟩
    by_contra hne
    have hnot := (haccounted.labeled g hmem e he hne).2
    rw [hcall, hfunc] at hnot
    exact hnot hit
  have hget : t.given[k]? = some t.given[k] := List.getElem?_eq_getElem hk'
  obtain ⟨e, he, -, hfunc, hzero⟩ := htaken k _ hk hget
  have hlabel := (hmodelled.labeled hps hkeeps hdecides pushed hmodel k _ hget e he).not
  rw [not_not, hfunc] at hlabel
  have hfew := hlabel.mp hzero
  have hout : outBy params.SyncsOn (k + 1) ≤ k + 1 := outBy_le (k + 1)
  have hmany := length_valuesAt_take (fun k g hk hg => (htaken k g hk hg).imp fun e he =>
    ⟨he.1, he.2.2.1⟩) (hout.trans hk')
  omega

/-- If models are synchronised at some frequency, then when what waits has gone out as often as a
model needs values, it is labeled. -/
theorem Idles.count_le {Holds : params.algo.Param → (ℕ → List ℚ) → Prop}
    (hkeeps : params.algo.setAlgorithm.toADAlgorithm.Keeps Holds params.algo.Ready)
    (hdecides : params.algo.setAlgorithm.Decides Holds params.algo.assess params.algo.Usable
      params.algo.enough)
    (hps : params.driver.usePS = false) (hfreq : 0 < params.globalModelSyncFreq)
    {pushed : ℕ → List ℚ} (hmodel : Holds model pushed)
    (hrun : Runs (StepOf exec) Lists (start params model) s) (h : Idles s n t) :
    n ≤ (params.globalModelSyncFreq.toNat + params.algo.enough - 1) *
      (params.driver.analysisStepFreq : ℕ) := by
  cases h with
  | refl => exact Nat.zero_le _
  | @step n u _ input hbefore hnone hlists hframe =>
    by_contra hlong
    set count := params.globalModelSyncFreq.toNat + params.algo.enough - 1
    set freq := (params.driver.analysisStepFreq : ℕ)
    have hn : count * freq ≤ n := by omega
    -- the last step found an execution that waits
    have hdata := (runFrame_none_cases hnone hlists hframe).2.1
    obtain ⟨fid, -, hpos⟩ := List.any_eq_true.mp hdata.symm
    obtain ⟨it, hit⟩ := List.exists_mem_of_length_pos (of_decide_eq_true hpos)
    have hcalls : s.given.length + count ≤ u.given.length := by
      rw [given_length hrun, given_length (hbefore.runs hrun), hbefore.step_eq]
      apply (Driver.analysesBefore_add_le _ _ _).trans
      exact Nat.count_monotone _ (Nat.add_le_add_left hn _)
    have henough : 0 < params.algo.enough := hdecides.enough_pos
    obtain ⟨j, hj, hsyncs⟩ := AnalysisParams.exists_syncsOn hfreq
      (s.given.length + (params.algo.enough - 1))
    have hfew := hbefore.waiting_cases hkeeps hdecides hps hmodel hrun hit
      (k := s.given.length + (params.algo.enough - 1) + j) (by omega) (by omega)
    rw [outBy, if_pos hsyncs] at hfew
    omega

/-- Without a server, from any state that a run reaches, the loop reports data for at most so many
steps without input: models are synchronised at some frequency, and when what waits has gone out
as often as a model needs values, it is labeled. -/
theorem idles_le (hproper : params.algo.Proper) (hps : params.driver.usePS = false)
    (hfreq : 0 < params.globalModelSyncFreq) {pushed : ℕ → List ℚ}
    (hmodel : params.algo.Holds model pushed)
    (hrun : Runs (StepOf exec) Lists (start params model) s) (h : Idles s n t) :
    n ≤ (params.globalModelSyncFreq.toNat + params.algo.enough - 1) *
      (params.driver.analysisStepFreq : ℕ) :=
  h.count_le (params.algo.keeps hproper) params.algo.decides hps hfreq hmodel hrun

/-- With a frozen model it depends on this model alone whether an execution that is taken is
labeled. -/
theorem labeled_iff_frozen (hproper : params.algo.Proper) (hps : params.driver.usePS = false)
    (hfreq : params.globalModelSyncFreq ≤ 0) {pushed : ℕ → List ℚ}
    (hmodel : params.algo.Holds model pushed)
    (hrun : Runs (StepOf exec) Lists (start params model) s) {g : List GivenExec}
    (hg : g ∈ s.given) {e : GivenExec} (he : e ∈ g) :
    e.label ≠ 0 ↔ params.algo.enough ≤ (pushed e.fid).length := by
  obtain ⟨k, hk⟩ := List.mem_iff_getElem?.mp hg
  have hnever : ∀ k, ¬params.SyncsOn k := fun k hsyncs => absurd hsyncs.1 (not_lt.mpr hfreq)
  rw [(modelled hrun).labeled hps (params.algo.keeps hproper) params.algo.decides pushed hmodel
    k g hk e he, outBy_eq_zero hnever]
  rfl

/-- What a frozen model does not label waits after the next analysis. -/
theorem waiting_frozen (hproper : params.algo.Proper) (hps : params.driver.usePS = false)
    (hfreq : params.globalModelSyncFreq ≤ 0) {pushed : ℕ → List ℚ}
    (hmodel : params.algo.Holds model pushed)
    (hrun : Runs (StepOf exec) Lists (start params model) s) {g : List GivenExec}
    (hg : g ∈ s.given) {e : GivenExec} (he : e ∈ g)
    (hlacks : (pushed e.fid).length < params.algo.enough) :
    (s.driver.manager.calls e.call).label = 0 := by
  obtain ⟨skipped, h⟩ := (modelled hrun).accounted
  obtain ⟨hclosed, hfid, -⟩ := h.taken g hg e he
  rcases h.accounted e.call hclosed with ⟨-, hzero⟩ | ⟨g', hg', e', he', hcall, hne⟩ | hskipped
  · exact hzero
  · have hfid' := (h.taken g' hg' e' he').2.1
    rw [hcall, hfid] at hfid'
    rw [labeled_iff_frozen hproper hps hfreq hmodel hrun hg' he', ← hfid'] at hne
    exact absurd hne (not_le.mpr hlacks)
  · exact absurd hskipped (h.disjoint g hg e he)

omit [LibM] in
/-- A step without input that reports data. -/
def noInput {P : Type} (reply : P) : AnalysisInput P :=
  { parsed := none, fids := [5], threads := [], reply := reply }

/-- What reports data has done a step. -/
theorem Idles.of_reports {input : AnalysisInput params.algo.Param} (hnone : input.parsed = none)
    (hlists : s.Lists (.runFrame input))
    (h : (s.runFrame input).toOption.map Prod.snd = some true) : ∃ t, Idles s 1 t := by
  cases hframe : s.runFrame input with
  | error e =>
    rw [hframe] at h
    cases h
  | ok result =>
    obtain ⟨t, haveData⟩ := result
    rw [hframe] at h
    cases h
    exact ⟨t, Idles.refl.step hnone hlists hframe⟩

omit [LibM] in
/-- After one call, which is not labeled in the step that reads it, there is a step without input
that reports data, and there are never more than two. -/
theorem idles_le_oneCall : letI := LibM.interpolated
    ∃ s : AnalysisDriver (everyCall (.sstd 6) true).algo.Param,
      s.given.map (fun g => g.map GivenExec.label) = [[0]] ∧ (∃ t, Idles s 1 t) ∧
        ∀ n t, Idles s n t → n ≤ 2 := by
  let _ := LibM.interpolated
  let params := everyCall (.sstd 6) true
  have hrun : ∃ s ∈ runAll (@exec _ params) Lists (start params SstdParam.new)
      (oneCallPerStep SstdParam.new 1), s.given.map (fun g => g.map GivenExec.label) = [[0]] ∧
        s.Lists (.runFrame (noInput SstdParam.new)) ∧
        (s.runFrame (noInput SstdParam.new)).toOption.map Prod.snd = some true := by
    decide +kernel
  obtain ⟨s, hs, hgiven, hlists, hreports⟩ := hrun
  have hproper : params.algo.Proper := trivial
  have hruns : Runs (StepOf (@exec _ params)) Lists (start params SstdParam.new) s :=
    runs_of_runAll _ hs
  have hmodel : ADOutlierSSTD.Holds SstdParam.new fun _ => [] :=
    holdsAt_empty ADOutlierSSTD.collects_default
  exact ⟨s, hgiven, Idles.of_reports rfl hlists hreports,
    fun n t h => idles_le hproper rfl (by decide) hmodel hruns h⟩

/-- Without a server and with a frozen model the executions that wait after the first analysis
without input are of functions for which the model lacks values, and they wait forever. -/
theorem idles_frozen (hproper : params.algo.Proper) (hps : params.driver.usePS = false)
    (hfreq : params.globalModelSyncFreq ≤ 0) {pushed : ℕ → List ℚ}
    (hmodel : params.algo.Holds model pushed)
    (hrun : Runs (StepOf exec) Lists (start params model) s) (h : Idles s n t)
    (hn : (params.driver.analysisStepFreq : ℕ) ≤ n) {m : ℕ} (h' : Idles t m u) (fid : ℕ) :
    u.driver.manager.execDataMap fid = t.driver.manager.execDataMap fid ∧
      ∀ it ∈ u.driver.manager.execDataMap fid, (pushed fid).length < params.algo.enough := by
  have hcalls : s.given.length + 1 ≤ t.given.length := by
    rw [given_length hrun, given_length (h.runs hrun), h.step_eq]
    apply (Driver.analysesBefore_add_le _ _ 1).trans
    rw [one_mul]
    exact Nat.count_monotone _ (Nat.add_le_add_left hn _)
  have hlacks : ∀ fid, ∀ it ∈ t.driver.manager.execDataMap fid,
      (pushed fid).length < params.algo.enough := by
    intro fid it hit
    have hfew := h.waiting_cases (params.algo.keeps hproper) params.algo.decides hps
        hmodel hrun hit (le_refl _) hcalls
    omega
  have hsame : u.driver.manager.execDataMap = t.driver.manager.execDataMap := by
    induction h' with
    | refl => rfl
    | @step m u v input hbefore hnone hlists hframe ih =>
      obtain ⟨hfids, -, hcase⟩ := runFrame_none_cases hnone hlists hframe
      rcases hcase with ⟨hno, -⟩ | ⟨-, w, ⟨-, hanalyse⟩ | ⟨-, rfl⟩, hmanager, hgiven, -⟩
      · cases hno
      · have hrunU := hbefore.runs (h.runs hrun)
        have hrunV := (hbefore.step hnone hlists hframe).runs (h.runs hrun)
        rw [← ih]
        funext fid
        obtain ⟨g, hg, hwaiting⟩ := waiting_analyse hrunU hfids hanalyse
        rw [hmanager, (hwaiting fid).1, List.filter_eq_self]
        intro it hit
        rw [ih] at hit
        -- the execution was taken by the first analysis, and its function lacks values
        obtain ⟨rounds, hrounds, htaken⟩ := h.taken hrun
        obtain ⟨later, hlater, -⟩ := hbefore.taken (h.runs hrun)
        have hpos : 0 < rounds.length := by
          have hlength := congrArg List.length hrounds
          rw [List.length_append] at hlength
          omega
        obtain ⟨round, hround⟩ := List.exists_mem_of_length_pos hpos
        obtain ⟨e, he, hcall⟩ := List.mem_map.mp (htaken fid it hit round hround)
        have hmem : round ∈ t.given := by
          rw [hrounds]
          exact List.mem_append_right _ hround
        have hmemV : round ∈ v.given := by
          rw [hgiven, hg, hlater]
          exact List.mem_append_left _ (List.mem_append_left _ hmem)
        obtain ⟨skipped, haccounted⟩ := (modelled (h.runs hrun)).accounted
        have hfunc : e.fid = fid := by
          rw [← (haccounted.taken round hmem e he).2.1, hcall]
          exact (haccounted.executions.closed fid it hit).2
        have hzero := waiting_frozen hproper hps hfreq hmodel hrunV hmemV he
          (hfunc ▸ hlacks fid it hit)
        rw [hcall, hmanager] at hzero
        exact decide_eq_true hzero
      · rw [hmanager]
        exact ih
  rw [hsame]
  exact ⟨rfl, hlacks fid⟩

/-- Without a server and with a frozen model the loop ends soon or never: in all states after the
first analysis without input a step without input reports data exactly if some executions waited
after that analysis, and all of these are of functions for which the model lacks values. -/
theorem idles_forever_iff (hproper : params.algo.Proper) (hps : params.driver.usePS = false)
    (hfreq : params.globalModelSyncFreq ≤ 0) {pushed : ℕ → List ℚ}
    (hmodel : params.algo.Holds model pushed)
    (hrun : Runs (StepOf exec) Lists (start params model) s) (h : Idles s n t)
    (hn : (params.driver.analysisStepFreq : ℕ) ≤ n) {m : ℕ} (h' : Idles t m u)
    {input : AnalysisInput params.algo.Param} (hnone : input.parsed = none)
    (hlists : u.Lists (.runFrame input)) {v : AnalysisDriver params.algo.Param} {haveData : Bool}
    (hframe : u.runFrame input = .ok (v, haveData)) :
    (haveData = true ↔ ∃ fid, t.driver.manager.execDataMap fid ≠ []) ∧
      ∀ fid, ∀ it ∈ t.driver.manager.execDataMap fid,
        (pushed fid).length < params.algo.enough := by
  have hfrozen := fun fid => idles_frozen hproper hps hfreq hmodel hrun h hn h' fid
  obtain ⟨skipped, haccounted⟩ := (modelled (h'.runs (h.runs hrun))).accounted
  refine ⟨?_, fun fid it hit => (hfrozen fid).2 it ((hfrozen fid).1 ▸ hit)⟩
  rw [(runFrame_none_cases hnone hlists hframe).2.1, List.any_eq_true]
  constructor
  · rintro ⟨fid, -, hpos⟩
    refine ⟨fid, ?_⟩
    rw [← (hfrozen fid).1]
    exact List.ne_nil_of_length_pos (of_decide_eq_true hpos)
  · rintro ⟨fid, hne⟩
    rw [← (hfrozen fid).1] at hne
    obtain ⟨it, hit⟩ := List.exists_mem_of_ne_nil _ hne
    exact ⟨fid, Driver.mem_functions (haccounted.executions.closed fid it hit),
      decide_eq_true (List.length_pos_of_mem hit)⟩

omit [LibM] in
/-- With no values in the frozen model a call waits, and the steps without input report data. -/
theorem idles_forever_iff_oneCall : letI := LibM.interpolated
    ∃ t : AnalysisDriver (everyCall (.sstd 6) true).algo.Param,
      (∃ fid, t.driver.manager.execDataMap fid ≠ []) ∧
      ∀ fid, ∀ it ∈ t.driver.manager.execDataMap fid, ([] : List ℚ).length < 2 := by
  let _ := LibM.interpolated
  let params := { everyCall (.sstd 6) true with globalModelSyncFreq := 0 }
  have hrun : ∃ s ∈ runAll (@exec _ params) Lists (start params SstdParam.new)
      (oneCallPerStep SstdParam.new 1), s.Lists (.runFrame (noInput SstdParam.new)) ∧
        ∃ t ∈ (s.runFrame (noInput SstdParam.new)).toOption, t.2 = true ∧
          t.1.Lists (.runFrame (noInput SstdParam.new)) ∧
          (t.1.runFrame (noInput SstdParam.new)).toOption.map Prod.snd = some true := by
    decide +kernel
  obtain ⟨s, hs, hlists, ⟨t, haveData⟩, ht, rfl, hlists', hreports⟩ := hrun
  have hproper : params.algo.Proper := trivial
  have hruns : Runs (StepOf (@exec _ params)) Lists (start params SstdParam.new) s :=
    runs_of_runAll _ hs
  have hframe : s.runFrame (noInput SstdParam.new) = .ok (t, true) := by
    cases hframe : s.runFrame (noInput SstdParam.new) with
    | error e =>
      rw [hframe] at ht
      cases ht
    | ok result =>
      rw [hframe] at ht
      cases ht
      rfl
  cases hnext : t.runFrame (noInput SstdParam.new) with
  | error e =>
    rw [hnext] at hreports
    cases hreports
  | ok result =>
    have hmodel : ADOutlierSSTD.Holds SstdParam.new fun _ => [] :=
      holdsAt_empty ADOutlierSSTD.collects_default
    obtain ⟨hiff, hlacks⟩ := idles_forever_iff hproper rfl le_rfl hmodel hruns
      (Idles.refl.step rfl hlists hframe) le_rfl .refl rfl hlists' hnext
    rw [hnext] at hreports
    exact ⟨t, hiff.mp (Option.some.inj hreports), hlacks⟩

end AnalysisDriver

end Chimbuko
