import Chimbuko.AD.AnalysisDriver
import Chimbuko.AD.DriverWindow
import Chimbuko.Core.ADOutlierHBOSLabels
import Chimbuko.Library.Retaking

/-!
# Runs of the driver with its algorithm

Every completed execution waits in the exec-data map until an analysis labels it. The first one of
a function on a thread may be labeled without looking at it; of the others each analysis takes all
that wait, puts their values into the local model, and labels those for whose function the model
is good enough. The others are taken again by the next analysis.
-/

namespace Chimbuko

open ADExecDataInterface ADOutlier Retaking TransitionSystem

namespace Driver

/-- Adding events completes calls. -/
theorem completes_addEvents {m m' : ADEvent} {events : List Event}
    (h : addEvents m events = .ok m') : m.Completes m' := by
  refine foldlM_invariant (P := m.Completes) (fun m₁ e m₂ hm₁ hadd => hm₁.trans ?_) events
    (ADEvent.Completes.refl m) h
  obtain ⟨result, hevent, hresult⟩ := bind_eq_ok hadd
  cases hresult
  exact ADEvent.completes_addEvent hevent

/-- Reading a frame adds events, and there are data if executions wait. -/
theorem readStep_cases {self t : Driver} {input : StepInput} {haveData : Bool}
    (h : self.readStep input = .ok (t, haveData)) :
    self.manager.Completes t.manager ∧ t.step = self.step ∧
      haveData = t.manager.functions.any fun fid => 0 < (t.manager.execDataMap fid).length := by
  unfold readStep at h
  cases hparsed : input.parsed with
  | none =>
    rw [hparsed] at h
    cases h
    exact ⟨.refl _, rfl, rfl⟩
  | some p =>
    rw [hparsed] at h
    obtain ⟨t', hread, h⟩ := bind_eq_ok h
    cases h
    obtain ⟨events, manager, registered, -, -, hevents, ht⟩ := readFrame_ok hread
    refine ⟨?_, by rw [ht]; rfl, rfl⟩
    rw [ht]
    have hlink : self.manager.Completes (self.link p).manager :=
      ADEvent.completes_of_eq rfl rfl rfl (fun _ => rfl) fun _ => rfl
    exact hlink.trans (completes_addEvents hevents)

end Driver

/-- Executions in order make a valid exec-data map. -/
theorem ADEvent.Executions.execsValid {m : ADEvent} (h : m.Executions) : ExecsValid m :=
  ⟨h.nodup, fun fid it hit => (h.closed fid it hit).2⟩

/-- What an analysis did to the executions: it ignored some, took others and may have labeled
them, and those with a label left the exec-data map. -/
structure Took (value : ExecData → ℚ) (m m' : ADEvent) (ignored : List CallRef)
    (given : List GivenExec) : Prop where
  callStack : m'.callStack = m.callStack
  nextRef : m'.nextRef = m.nextRef
  fid : ∀ it, (m'.calls it).fid = (m.calls it).fid
  measured : ∀ it, (m'.calls it).measured = (m.calls it).measured
  execData : ∀ fid, m'.execDataMap fid =
    (m.execDataMap fid).filter fun it => (m'.calls it).label = 0
  ignored_mem : ∀ it ∈ ignored, it ∈ m.execDataMap (m.calls it).fid ∧ (m.calls it).label = 0 ∧
    (m'.calls it).label = 1
  nodup : (given.map GivenExec.call).Nodup
  given_mem : ∀ e ∈ given, e.call ∈ m.execDataMap e.fid ∧ (m.calls e.call).label = 0 ∧
    (m'.calls e.call).label = e.label ∧ value (m.calls e.call) = e.value
  disjoint : ∀ e ∈ given, e.call ∉ ignored
  other : ∀ it, it ∉ ignored → it ∉ given.map GivenExec.call →
    (m'.calls it).label = (m.calls it).label
  all : ∀ fid, ∀ it ∈ m.execDataMap fid, (m.calls it).label = 0 →
    it ∈ ignored ∨ it ∈ given.map GivenExec.call

/-- What waits and is not ignored is taken, as an execution of its function. -/
theorem Took.given_of_not_ignored {value : ExecData → ℚ} {m m' : ADEvent}
    {ignored : List CallRef} {given : List GivenExec} (h : Took value m m' ignored given)
    (hexecutions : m.Executions) {fid : ℕ} {it : CallRef} (hit : it ∈ m.execDataMap fid)
    (hzero : (m.calls it).label = 0) (hnot : it ∉ ignored) :
    ∃ e ∈ given, e.call = it ∧ e.fid = fid := by
  obtain ⟨e, he, rfl⟩ := List.mem_map.mp ((h.all fid it hit hzero).resolve_left hnot)
  refine ⟨e, he, rfl, ?_⟩
  rw [← (hexecutions.closed _ _ (h.given_mem e he).1).2, (hexecutions.closed _ _ hit).2]

/-- What waits after an analysis was taken by it. -/
theorem Took.given_of_waits {value : ExecData → ℚ} {m m' : ADEvent} {ignored : List CallRef}
    {given : List GivenExec} (h : Took value m m' ignored given) (hexecutions : m.Executions)
    (hunlabeled : ∀ fid, ∀ it ∈ m.execDataMap fid, (m.calls it).label = 0) {fid : ℕ}
    {it : CallRef} (hit : it ∈ m'.execDataMap fid) : ∃ e ∈ given, e.call = it ∧ e.fid = fid := by
  rw [h.execData, List.mem_filter, decide_eq_true_iff] at hit
  refine h.given_of_not_ignored hexecutions hit.1 (hunlabeled fid it hit.1) fun hignored => ?_
  rw [(h.ignored_mem it hignored).2.2] at hit
  exact one_ne_zero hit.2

/-- The executions that an analysis took. -/
theorem givenOf_eq {P : Type} {A : ADAlgorithm P} {assess : P → ℕ → ℚ → Assessment}
    {iface presented done : ADExecDataInterface} {ignored : List CallRef} {reply : P}
    {before synced after : ADOutlier P}
    (h : Analysed A assess iface presented done ignored reply before synced after) :
    givenOf done = iface.dsetFidMap.flatMap fun fid =>
      (unlabeled presented.manager fid).map fun entry =>
        { call := entry.1, fid := fid, value := (presented.elemOf entry).value
          label := (done.manager.calls entry.1).label } := by
  have hmap : done.dsetFidMap = iface.dsetFidMap := by
    rw [h.recorded]
    exact h.ignoring.dsetFidMap
  have hcache : done.dsetCache = presented.dsetCache := by
    rw [h.recorded]
    rfl
  have hexecs : done.manager.execDataMap = presented.manager.execDataMap := by
    rw [h.recorded]
    rfl
  unfold givenOf
  rw [hmap, hcache, hexecs]
  have hsets : ∀ dset ∈ iface.dsetFidMap.zipIdx,
      (((presented.dsetCache.lookup dset.2).getD []).map fun e =>
        ({ call := (presented.manager.execDataMap dset.1).getD e.index 0, fid := dset.1
           value := e.value
           label := (done.manager.calls
            ((presented.manager.execDataMap dset.1).getD e.index 0)).label } : GivenExec)) =
      (unlabeled presented.manager dset.1).map fun entry =>
        { call := entry.1, fid := dset.1, value := (presented.elemOf entry).value
          label := (done.manager.calls entry.1).label } := by
    intro dset hdset
    rw [h.cached dset.2 dset.1 (List.mem_zipIdx_iff_getElem?.mp hdset)]
    unfold dataSetOf
    rw [List.map_map]
    apply List.map_congr_left
    intro entry hentry
    have hpos : (presented.manager.execDataMap dset.1)[entry.2]? = some entry.1 :=
      List.mem_zipIdx_iff_getElem?.mp (List.mem_filter.mp hentry).1
    have hcall : (presented.manager.execDataMap dset.1).getD (presented.elemOf entry).index 0 =
        entry.1 := by
      change (presented.manager.execDataMap dset.1).getD entry.2 0 = entry.1
      rw [List.getD_eq_getElem?_getD, hpos]
      rfl
    rw [Function.comp_apply, hcall]
  rw [List.flatMap_congr hsets]
  conv_rhs => rw [← List.zipIdx_map_fst 0 iface.dsetFidMap, List.flatMap_map]

/-- The executions that an analysis took are those that were presented. -/
theorem givenOf_calls {P : Type} {A : ADAlgorithm P} {assess : P → ℕ → ℚ → Assessment}
    {iface presented done : ADExecDataInterface} {ignored : List CallRef} {reply : P}
    {before synced after : ADOutlier P}
    (h : Analysed A assess iface presented done ignored reply before synced after) :
    (givenOf done).map GivenExec.call = presentedCalls presented.manager iface.dsetFidMap := by
  rw [givenOf_eq h, List.map_flatMap]
  unfold presentedCalls
  apply List.flatMap_congr
  intro fid _
  rw [List.map_map]
  rfl

/-- A purge after an analysis completes what the analysis did. -/
theorem took_of_analysed {P : Type} {A : ADAlgorithm P} {assess : P → ℕ → ℚ → Assessment}
    {iface presented done : ADExecDataInterface} {ignored : List CallRef} {reply : P}
    {before synced after : ADOutlier P}
    (h : Analysed A assess iface presented done ignored reply before synced after)
    (hvalid : iface.manager.Executions)
    (hlists : AnalysisDriver.ListsFunctions iface.dsetFidMap iface.manager) {m' : ADEvent}
    {threads : List Thread} {nKeepThread : ℕ} {report : ADEvent.PurgeReport}
    (hpurge : done.manager.purgeCallList threads nKeepThread = .ok (m', report)) :
    Took iface.getStatisticValue iface.manager m' ignored (givenOf done) := by
  obtain ⟨hstack, hnext, hlabels, hexecs⟩ := ADEvent.purgeCallList_execData hpurge
  have hcases := h.call_cases hvalid.execsValid
  have hdone : done.manager.callStack = iface.manager.callStack ∧
      done.manager.nextRef = iface.manager.nextRef ∧
      done.manager.execDataMap = iface.manager.execDataMap := by
    have hmanager := h.ignoring.manager
    rw [h.recorded]
    refine ⟨?_, ?_, h.ignoring.execDataMap⟩
    · change presented.manager.callStack = _
      rw [hmanager]
      rfl
    · change presented.manager.nextRef = _
      rw [hmanager]
      rfl
  have hkept : ∀ it, (done.manager.calls it).fid = (iface.manager.calls it).fid ∧
      (done.manager.calls it).measured = (iface.manager.calls it).measured := by
    intro it
    rcases hcases it with ⟨-, -, heq⟩ | ⟨-, ⟨-, heq⟩ | ⟨-, heq⟩⟩
    · rw [heq]
      exact ⟨rfl, rfl⟩
    · rw [heq]
      unfold assessed
      split <;> exact ⟨rfl, rfl⟩
    · rw [heq]
      exact ⟨rfl, rfl⟩
  have hlabel : ∀ it, (m'.calls it).label = (done.manager.calls it).label := fun it =>
    congrArg Prod.fst (hlabels it)
  have hmem : ∀ it, it ∈ presentedCalls presented.manager iface.dsetFidMap ↔
      ∃ fid ∈ iface.dsetFidMap, it ∈ iface.manager.execDataMap fid ∧
        (iface.manager.calls it).label = 0 ∧ it ∉ ignored := by
    intro it
    rw [mem_presentedCalls, h.ignoring.execDataMap]
    simp only [h.ignoring.label_eq]
  refine ⟨hstack.trans hdone.1, hnext.trans hdone.2.1, fun it => ?_, fun it => ?_, fun fid => ?_,
    fun it hit => ?_, ?_, fun e he => ?_, fun e he => ?_, fun it hnot hnot' => ?_,
    fun fid it hit hzero => ?_⟩
  · exact (congrArg Prod.snd (hlabels it)).trans (hkept it).1
  · exact (ADEvent.measured_purgeCallList hpurge it).trans (hkept it).2
  · rw [hexecs, hdone.2.2]
    apply List.filter_congr
    intro it _
    rw [hlabel]
  · obtain ⟨fid, -, hexec⟩ := h.ignored_mem it hit
    refine ⟨?_, h.ignoring.unlabeled it hit, ?_⟩
    · rwa [(hvalid.closed fid it hexec).2]
    · rw [hlabel]
      rcases hcases it with ⟨-, -, heq⟩ | ⟨hnot, -⟩
      · rw [heq]
        rfl
      · exact absurd hit hnot
  · rw [givenOf_calls h]
    exact nodup_presentedCalls (h.ignoring.execsValid hvalid.execsValid) hlists.1
  · have hcall : e.call ∈ presentedCalls presented.manager iface.dsetFidMap := by
      rw [← givenOf_calls h]
      exact List.mem_map_of_mem he
    obtain ⟨-, -, -, hzero, hnot⟩ := (hmem e.call).mp hcall
    rw [givenOf_eq h] at he
    obtain ⟨fid, hfid, he⟩ := List.mem_flatMap.mp he
    obtain ⟨entry, hentry, rfl⟩ := List.mem_map.mp he
    have hexec := (mem_unlabeled.mp (List.mem_map_of_mem hentry)).1
    rw [h.ignoring.execDataMap] at hexec
    refine ⟨hexec, hzero, hlabel _, ?_⟩
    rw [h.ignoring.elemOf_eq]
    rfl
  · have hcall : e.call ∈ presentedCalls presented.manager iface.dsetFidMap := by
      rw [← givenOf_calls h]
      exact List.mem_map_of_mem he
    obtain ⟨-, -, -, -, hnot⟩ := (hmem e.call).mp hcall
    exact hnot
  · rw [hlabel]
    rw [givenOf_calls h] at hnot'
    rcases hcases it with ⟨hit, -⟩ | ⟨-, ⟨hit, -⟩ | ⟨-, heq⟩⟩
    · exact absurd hit hnot
    · exact absurd hit hnot'
    · rw [heq]
  · by_cases hignored : it ∈ ignored
    · exact Or.inl hignored
    · apply Or.inr
      rw [givenOf_calls h, hmem]
      have hfid := Driver.mem_functions (hvalid.closed fid it hit)
      exact ⟨fid, hlists.2 fid hfid (List.ne_nil_of_mem hit), hit, hzero, hignored⟩

/-- Where the executions are that were completed so far. -/
structure Accounted (params : AnalysisParams) (m : ADEvent) (funcSeen : List (Thread × ℕ))
    (given : List (List GivenExec)) (skipped : List CallRef) : Prop where
  executions : m.Executions
  taken : ∀ g ∈ given, ∀ e ∈ g, m.Closed e.call ∧ (m.calls e.call).fid = e.fid ∧
    params.valueOf (m.calls e.call) = e.value
  retaken : Retaken GivenExec.call (fun e => e.label ≠ 0) given
  labeled : ∀ g ∈ given, ∀ e ∈ g, e.label ≠ 0 →
    (m.calls e.call).label = e.label ∧ e.call ∉ m.execDataMap e.fid
  waiting : ∀ g ∈ given.getLast?, ∀ e ∈ g, e.label = 0 →
    (m.calls e.call).label = 0 ∧ e.call ∈ m.execDataMap e.fid
  skipped_labeled : ∀ it ∈ skipped, m.Closed it ∧ (m.calls it).label = 1 ∧
    it ∉ m.execDataMap (m.calls it).fid
  disjoint : ∀ g ∈ given, ∀ e ∈ g, e.call ∉ skipped
  funcSeen_eq : funcSeen = skipped.map (site m)
  nodup : funcSeen.Nodup
  off : params.ignoresFirst = false → skipped = []
  seen : params.ignoresFirst = true → ∀ g ∈ given, ∀ e ∈ g, site m e.call ∈ funcSeen
  accounted : ∀ it, m.Closed it → it ∈ m.execDataMap (m.calls it).fid ∧ (m.calls it).label = 0 ∨
    (∃ g ∈ given, ∃ e ∈ g, e.call = it ∧ e.label ≠ 0) ∨ it ∈ skipped

variable {params : AnalysisParams} {m m' : ADEvent} {funcSeen funcSeen' : List (Thread × ℕ)}
  {given : List (List GivenExec)} {skipped ignored : List CallRef}

/-- At first there are no executions. -/
theorem accounted_new (params : AnalysisParams) : Accounted params ADEvent.new [] [] [] := by
  have hnone : ∀ {C : List GivenExec → Prop}, ∀ g ∈ ([] : List (List GivenExec)), C g :=
    fun _ h => absurd h List.not_mem_nil
  refine ⟨ADEvent.executions_new, hnone, retaken_nil, hnone, ?_, fun _ h => ?_, hnone, rfl,
    List.nodup_nil, fun _ => rfl, fun _ => hnone, fun it hit => ?_⟩
  · intro g hg
    cases hg
  · exact absurd h List.not_mem_nil
  · exact absurd hit.1 (Nat.not_lt_zero it)

/-- The value of an execution depends on what was measured. -/
theorem valueOf_congr {d d' : ExecData} (h : d'.measured = d.measured) :
    params.valueOf d' = params.valueOf d := by
  have hruntime : d'.runtime = d.runtime := congrArg (fun x => x.2.1) h
  have hexclusive : d'.exclusive = d.exclusive := congrArg (fun x => x.2.2) h
  unfold AnalysisParams.valueOf
  rw [hruntime, hexclusive]

/-- The function and thread of an execution depend on what was measured. -/
theorem site_congr {it : CallRef} (hfid : (m'.calls it).fid = (m.calls it).fid)
    (hmeasured : (m'.calls it).measured = (m.calls it).measured) : site m' it = site m it := by
  have hthread : (m'.calls it).thread = (m.calls it).thread := congrArg Prod.fst hmeasured
  unfold site
  rw [hthread, hfid]

/-- What waits has no label. -/
theorem Accounted.unlabeled (h : Accounted params m funcSeen given skipped) {fid : ℕ} {it : CallRef}
    (hit : it ∈ m.execDataMap fid) : (m.calls it).label = 0 := by
  obtain ⟨hclosed, hfid⟩ := h.executions.closed fid it hit
  rcases h.accounted it hclosed with ⟨-, hzero⟩ | ⟨g, hg, e, he, hcall, hne⟩ | hskipped
  · exact hzero
  · have hnot := (h.labeled g hg e he hne).2
    rw [← (h.taken g hg e he).2.1, hcall, hfid] at hnot
    exact absurd hit hnot
  · have hnot := (h.skipped_labeled it hskipped).2.2
    rw [hfid] at hnot
    exact absurd hit hnot

/-- Adding events completes executions, which wait from then on. -/
theorem Accounted.completes (h : Accounted params m funcSeen given skipped)
    (h' : m.Completes m') : Accounted params m' funcSeen given skipped := by
  have hfid : ∀ it, m.Closed it → (m'.calls it).fid = (m.calls it).fid := fun it hit =>
    congrArg Prod.snd (h'.labelOf it hit.1)
  have hlabel : ∀ it, m.Closed it → (m'.calls it).label = (m.calls it).label := fun it hit =>
    congrArg Prod.fst (h'.labelOf it hit.1)
  have hmap : ∀ fid it, m.Closed it → (it ∈ m'.execDataMap fid ↔ it ∈ m.execDataMap fid) := by
    intro fid it hit
    obtain ⟨new, hnew, -, hopen⟩ := h'.execData h.executions.stacksValid fid
    rw [hnew, List.mem_append]
    exact ⟨fun hmem => hmem.resolve_right fun hin => (hopen it hin).1 hit, Or.inl⟩
  have hlast : ∀ g ∈ given.getLast?, g ∈ given := fun g hg => List.mem_of_getLast? hg
  refine ⟨h.executions.completes h', fun g hg e he => ?_, h.retaken, fun g hg e he hne => ?_,
    fun g hg e he hzero => ?_, fun it hit => ?_, h.disjoint, ?_, h.nodup, h.off,
    fun hon g hg e he => ?_, fun it hit => ?_⟩
  · obtain ⟨hclosed, hfunc, hvalue⟩ := h.taken g hg e he
    exact ⟨h'.closed _ hclosed, (hfid _ hclosed).trans hfunc,
      (valueOf_congr (h'.measured _ hclosed)).trans hvalue⟩
  · have hclosed := (h.taken g hg e he).1
    obtain ⟨hsame, hnot⟩ := h.labeled g hg e he hne
    exact ⟨(hlabel _ hclosed).trans hsame, fun hmem => hnot ((hmap _ _ hclosed).mp hmem)⟩
  · have hclosed := (h.taken g (hlast g hg) e he).1
    obtain ⟨hsame, hmem⟩ := h.waiting g hg e he hzero
    exact ⟨(hlabel _ hclosed).trans hsame, (hmap _ _ hclosed).mpr hmem⟩
  · obtain ⟨hclosed, hone, hnot⟩ := h.skipped_labeled it hit
    refine ⟨h'.closed it hclosed, (hlabel it hclosed).trans hone, fun hmem => hnot ?_⟩
    rwa [hfid it hclosed, hmap _ _ hclosed] at hmem
  · rw [h.funcSeen_eq]
    apply List.map_congr_left
    intro it hit
    have hclosed := (h.skipped_labeled it hit).1
    exact (site_congr (hfid it hclosed) (h'.measured it hclosed)).symm
  · have hclosed := (h.taken g hg e he).1
    rw [site_congr (hfid _ hclosed) (h'.measured _ hclosed)]
    exact h.seen hon g hg e he
  · by_cases hclosed : m.Closed it
    · rw [hfid it hclosed, hlabel it hclosed, hmap _ _ hclosed]
      exact h.accounted it hclosed
    · refine Or.inl ⟨h'.pushed h.executions.stacksValid it hclosed hit, ?_⟩
      by_cases hlt : it < m.nextRef
      · have hsame := congrArg Prod.fst (h'.labelOf it hlt)
        exact hsame.trans (h.executions.unlabeled it hlt hclosed)
      · exact h'.opened it (Nat.le_of_not_lt hlt) hit.1

/-- An analysis labels executions that wait, or takes them without labeling them. -/
theorem Accounted.took (h : Accounted params m funcSeen given skipped) {g : List GivenExec}
    (htook : Took params.valueOf m m' ignored g)
    (hoff : params.ignoresFirst = false → ignored = [])
    (hseen : funcSeen' = (ignored.map (site m)).reverse ++ funcSeen) (hnodup : funcSeen'.Nodup)
    (hpassed : params.ignoresFirst = true → ∀ e ∈ g, site m e.call ∈ funcSeen') :
    Accounted params m' funcSeen' (given ++ [g]) (ignored.reverse ++ skipped) := by
  have hclosed : ∀ it, m'.Closed it ↔ m.Closed it := by
    intro it
    unfold ADEvent.Closed
    rw [htook.callStack, htook.nextRef]
  have hsite : ∀ it, site m' it = site m it := fun it =>
    site_congr (htook.fid it) (htook.measured it)
  have hmap : ∀ fid it, it ∈ m'.execDataMap fid ↔
      it ∈ m.execDataMap fid ∧ (m'.calls it).label = 0 := by
    intro fid it
    rw [htook.execData, List.mem_filter, decide_eq_true_iff]
  have hkept : ∀ it, (m.calls it).label ≠ 0 → (m'.calls it).label = (m.calls it).label := by
    intro it hne
    refine htook.other it (fun hit => hne (htook.ignored_mem it hit).2.1) fun hit => hne ?_
    obtain ⟨e, he, rfl⟩ := List.mem_map.mp hit
    exact (htook.given_mem e he).2.1
  have hmem : ∀ g', g' ∈ given ++ [g] → g' ∈ given ∨ g' = g := fun g' hg' =>
    (List.mem_append.mp hg').imp_right List.mem_singleton.mp
  have hlast : ∀ g' ∈ given.getLast?, g' ∈ given := fun g' hg' => List.mem_of_getLast? hg'
  have hexecutions : m'.Executions := by
    refine h.executions.of_sublist htook.callStack htook.nextRef (fun fid => ?_) htook.fid
      fun it hopen => ?_
    · rw [htook.execData]
      exact List.filter_sublist
    · refine htook.other it (fun hit => ?_) fun hit => ?_
      · exact hopen (h.executions.closed _ it (htook.ignored_mem it hit).1).1
      · obtain ⟨e, he, rfl⟩ := List.mem_map.mp hit
        exact hopen (h.executions.closed _ _ (htook.given_mem e he).1).1
  -- an execution that was taken before is not the first one of its function
  have hignored : ∀ g' ∈ given, ∀ e ∈ g', e.call ∉ ignored := by
    intro g' hg' e he hit
    by_cases hon : params.ignoresFirst = true
    · have hbefore := h.seen hon g' hg' e he
      rw [hseen, List.nodup_append'] at hnodup
      apply hnodup.2.2 _ hbefore
      rw [List.mem_reverse]
      exact List.mem_map_of_mem hit
    · rw [hoff (Bool.eq_false_iff.mpr hon)] at hit
      exact absurd hit List.not_mem_nil
  refine ⟨hexecutions, fun g' hg' e he => ?_, ?_, fun g' hg' e he hne => ?_,
    fun g' hg' e he hzero => ?_, fun it hit => ?_, fun g' hg' e he hin => ?_, ?_, hnodup,
    fun hof => ?_, fun hon g' hg' e he => ?_, fun it hit => ?_⟩
  · rw [hclosed, htook.fid, valueOf_congr (htook.measured _)]
    rcases hmem g' hg' with hold | rfl
    · exact h.taken g' hold e he
    · obtain ⟨hexec, -, -, hvalue⟩ := htook.given_mem e he
      obtain ⟨hin, hfid⟩ := h.executions.closed _ _ hexec
      exact ⟨hin, hfid, hvalue⟩
  · refine h.retaken.concat htook.nodup (fun g' hg' e he hne hin => ?_)
      fun g' hg' e he hzero => ?_
    · obtain ⟨e', he', hcall⟩ := List.mem_map.mp hin
      have hlabel := (htook.given_mem e' he').2.1
      rw [hcall, (h.labeled g' hg' e he hne).1] at hlabel
      exact hne hlabel
    · obtain ⟨hlabel, hexec⟩ := h.waiting g' hg' e he (not_not.mp hzero)
      exact (htook.all e.fid e.call hexec hlabel).resolve_left (hignored g' (hlast g' hg') e he)
  · rcases hmem g' hg' with hold | rfl
    · obtain ⟨hlabel, hnot⟩ := h.labeled g' hold e he hne
      refine ⟨(hkept _ (hlabel ▸ hne)).trans hlabel, fun hin => hnot ((hmap _ _).mp hin).1⟩
    · have hlabel := (htook.given_mem e he).2.2.1
      exact ⟨hlabel, fun hin => hne (hlabel.symm.trans ((hmap _ _).mp hin).2)⟩
  · rw [List.getLast?_concat, Option.mem_some_iff] at hg'
    rw [← hg'] at he
    obtain ⟨hexec, -, hlabel, -⟩ := htook.given_mem e he
    exact ⟨hlabel.trans hzero, (hmap _ _).mpr ⟨hexec, hlabel.trans hzero⟩⟩
  · rw [hclosed, htook.fid]
    rcases List.mem_append.mp hit with hnew | hold
    · obtain ⟨hexec, -, hone⟩ := htook.ignored_mem it (List.mem_reverse.mp hnew)
      refine ⟨(h.executions.closed _ it hexec).1, hone, fun hin => ?_⟩
      have hzero := ((hmap _ _).mp hin).2
      rw [hone] at hzero
      exact one_ne_zero hzero
    · obtain ⟨hin, hone, hnot⟩ := h.skipped_labeled it hold
      have hne : (m.calls it).label ≠ 0 := by
        rw [hone]
        exact one_ne_zero
      exact ⟨hin, (hkept it hne).trans hone, fun hexec => hnot ((hmap _ _).mp hexec).1⟩
  · rcases hmem g' hg' with hold | rfl
    · rcases List.mem_append.mp hin with hnew | hskipped
      · exact hignored g' hold e he (List.mem_reverse.mp hnew)
      · exact h.disjoint g' hold e he hskipped
    · rcases List.mem_append.mp hin with hnew | hskipped
      · exact htook.disjoint e he (List.mem_reverse.mp hnew)
      · have hone := (h.skipped_labeled _ hskipped).2.1
        rw [(htook.given_mem e he).2.1] at hone
        exact zero_ne_one hone
  · have hsites : site m' = site m := funext hsite
    rw [hseen, h.funcSeen_eq, hsites, List.map_append, List.map_reverse]
  · rw [hoff hof, h.off hof]
    rfl
  · rw [hsite]
    rcases hmem g' hg' with hold | rfl
    · rw [hseen]
      exact List.mem_append_right _ (h.seen hon g' hold e he)
    · exact hpassed hon e he
  · rw [hclosed] at hit
    rcases h.accounted it hit with ⟨hexec, hzero⟩ | ⟨g', hg', e, he, hcall, hne⟩ | hold
    · rcases htook.all _ it hexec hzero with hignored | hgiven
      · exact Or.inr (Or.inr (List.mem_append_left _ (List.mem_reverse.mpr hignored)))
      · obtain ⟨e, he, rfl⟩ := List.mem_map.mp hgiven
        have hlabel := (htook.given_mem e he).2.2.1
        by_cases hne : e.label = 0
        · rw [htook.fid]
          exact Or.inl ⟨(hmap _ _).mpr ⟨hexec, hlabel.trans hne⟩, hlabel.trans hne⟩
        · exact Or.inr (Or.inl ⟨g, List.mem_append_right _ List.mem_cons_self, e, he, rfl, hne⟩)
    · exact Or.inr (Or.inl ⟨g', List.mem_append_left _ hg', e, he, hcall, hne⟩)
    · exact Or.inr (Or.inr (List.mem_append_right _ hold))

namespace AnalysisDriver

variable [LibM]

/-- An analysis runs the algorithm over the executions that wait, and purges. -/
theorem analyse_analysed {s t : AnalysisDriver params.algo.Param}
    {input : AnalysisInput params.algo.Param} (hvalid : s.driver.manager.Executions)
    (hlists : ListsFunctions input.fids s.driver.manager) (h : s.analyse input = .ok t) :
    ∃ presented done ignored synced,
      Analysed params.algo.setAlgorithm.toADAlgorithm params.algo.assess
        (params.setupInterface s.funcSeen s.driver.manager input.fids) presented done ignored
        input.reply s.outlier synced t.outlier ∧
      Took params.valueOf s.driver.manager t.driver.manager ignored (givenOf done) ∧
      t.funcSeen = (if params.ignoresFirst then done.localFuncExecSeen else s.funcSeen) ∧
      t.given = s.given ++ [givenOf done] ∧
      { s.driver with manager := done.manager }.analyse params.driver
        { parsed := input.parsed, labels := [], threads := input.threads } = .ok t.driver := by
  obtain ⟨data, hrun, hdriver, hseen, hgiven⟩ := analyse_cases h
  obtain ⟨manager, report, hpurge, ht⟩ := Driver.analyse_ok hdriver
  have hsetup := params.setupInterface_eq s.funcSeen s.driver.manager input.fids
  have hvalue := params.getStatisticValue_setupInterface s.funcSeen s.driver.manager input.fids
  generalize params.setupInterface s.funcSeen s.driver.manager input.fids = iface at *
  have hmanager : iface.manager = s.driver.manager := by rw [hsetup]
  have hfids : iface.dsetFidMap = input.fids := by rw [hsetup]
  have hcache : iface.dsetCache = ∅ := by rw [hsetup]
  rw [← hmanager] at hvalid hlists
  rw [← hfids] at hlists
  obtain ⟨presented, ignored, synced, hanalysed⟩ := analysed_of_run params.algo.assessesBy
    hvalid.execsValid hlists.1 hcache hrun
  refine ⟨presented, data.source, ignored, synced, hanalysed, ?_, hseen, hgiven, hdriver⟩
  have hmanager' : t.driver.manager = manager := by rw [ht]
  rw [← hmanager, hmanager', ← hvalue]
  exact took_of_analysed hanalysed hvalid hlists hpurge

omit [LibM] in
/-- The exec-data map that an interface is set up with is valid. -/
theorem execsValid_setupInterface (h : m.Executions) (fids : List ℕ) :
    ExecsValid (params.setupInterface funcSeen m fids).manager := by
  rw [params.setupInterface_eq]
  exact h.execsValid

/-- Which executions an analysis ignores: none without the workaround, and with it the first ones of
their functions on their threads, so that of what it takes the first one was seen. -/
theorem analyse_firstCalls {s t : AnalysisDriver params.algo.Param}
    {input : AnalysisInput params.algo.Param} {presented done : ADExecDataInterface}
    {synced : ADOutlier params.algo.Param}
    (h : Analysed params.algo.setAlgorithm.toADAlgorithm params.algo.assess
      (params.setupInterface s.funcSeen s.driver.manager input.fids) presented done ignored
      input.reply s.outlier synced t.outlier)
    (hseen : t.funcSeen = if params.ignoresFirst then done.localFuncExecSeen else s.funcSeen) :
    (params.ignoresFirst = false → ignored = []) ∧
      t.funcSeen = (ignored.map (site s.driver.manager)).reverse ++ s.funcSeen ∧
      (s.funcSeen.Nodup → t.funcSeen.Nodup) ∧
      (params.ignoresFirst = true →
        ∀ e ∈ givenOf done, site s.driver.manager e.call ∈ t.funcSeen) := by
  have hsetup := params.setupInterface_eq s.funcSeen s.driver.manager input.fids
  have hfirst := h.firstCalls (by rw [hsetup])
  have hcalls := givenOf_calls h
  have hafter : done.localFuncExecSeen = presented.localFuncExecSeen := by
    rw [h.recorded]
    rfl
  rw [hafter] at hseen
  generalize params.setupInterface s.funcSeen s.driver.manager input.fids = iface at *
  have hflag : iface.ignoreFirstFuncCall = params.ignoresFirst := by rw [hsetup]
  have hmanager : iface.manager = s.driver.manager := by rw [hsetup]
  have hbefore : iface.localFuncExecSeen = if params.ignoresFirst then s.funcSeen else [] := by
    rw [hsetup]
  have hoff : params.ignoresFirst = false → ignored = [] := fun hof =>
    hfirst.off (hflag.trans hof)
  refine ⟨hoff, ?_, fun hnodup => ?_, fun hon e he => ?_⟩
  · rw [hseen]
    by_cases hon : params.ignoresFirst = true
    · rw [if_pos hon, hfirst.seen, hbefore, if_pos hon, hmanager]
    · rw [if_neg hon, hoff (Bool.eq_false_iff.mpr hon)]
      rfl
  · by_cases hon : params.ignoresFirst = true
    · rw [hseen, if_pos hon]
      apply hfirst.nodup
      rw [hbefore, if_pos hon]
      exact hnodup
    · rw [hseen, if_neg hon]
      exact hnodup
  · have hcall : e.call ∈ presentedCalls presented.manager iface.dsetFidMap := by
      rw [← hcalls]
      exact List.mem_map_of_mem he
    have hpassed := hfirst.passed (hflag.trans hon) e.call hcall
    rw [hmanager] at hpassed
    rw [hseen, if_pos hon]
    exact hpassed

/-- An analysis keeps the executions accounted for. -/
theorem accounted_analyse {s t : AnalysisDriver params.algo.Param}
    {input : AnalysisInput params.algo.Param}
    (h : Accounted params s.driver.manager s.funcSeen s.given skipped)
    (hlists : ListsFunctions input.fids s.driver.manager) (hanalyse : s.analyse input = .ok t) :
    ∃ skipped', Accounted params t.driver.manager t.funcSeen t.given skipped' := by
  obtain ⟨presented, done, ignored, synced, hanalysed, htook, hseen, hgiven, -⟩ :=
    analyse_analysed h.executions hlists hanalyse
  obtain ⟨hoff, hseen', hnodup, hpassed⟩ := analyse_firstCalls hanalysed hseen
  rw [hgiven]
  exact ⟨ignored.reverse ++ skipped, h.took htook hoff hseen' (hnodup h.nodup) hpassed⟩

/-- One action keeps the executions accounted for. -/
theorem accounted_exec {s t : AnalysisDriver params.algo.Param}
    {a : AnalysisAction params.algo.Param}
    (h : Accounted params s.driver.manager s.funcSeen s.given skipped) (hlists : s.Lists a)
    (hexec : s.exec a = .ok t) :
    ∃ skipped', Accounted params t.driver.manager t.funcSeen t.given skipped' := by
  have hsend : ∀ (u : Driver) (force : Bool),
      (u.sendPSdata params.driver force).manager = u.manager := fun u force =>
    (Driver.statistics_sendPSdata params.driver u force).2.1
  cases a with
  | endRun =>
    cases hexec
    refine ⟨skipped, ?_⟩
    dsimp only
    rw [hsend]
    exact h
  | runFrame input =>
    obtain ⟨⟨t', haveData⟩, hframe, hexec⟩ := bind_eq_ok hexec
    cases hexec
    obtain ⟨driver, hread, hcase⟩ := runFrame_cases hframe
    have hread' := (Driver.readStep_cases hread).1
    unfold Lists at hlists
    dsimp only at hlists
    rw [hread] at hlists
    have hafter : Accounted params driver.manager s.funcSeen s.given skipped :=
      h.completes hread'
    rcases hcase with ⟨-, rfl⟩ | ⟨-, u, ⟨-, hanalyse⟩ | ⟨-, rfl⟩, rfl⟩
    · exact ⟨skipped, hafter⟩
    · obtain ⟨skipped', hu⟩ := accounted_analyse (s := { s with driver := driver }) hafter hlists
        hanalyse
      refine ⟨skipped', ?_⟩
      dsimp only
      rw [hsend]
      exact hu
    · refine ⟨skipped, ?_⟩
      dsimp only
      rw [hsend]
      exact hafter

/-- In every run each completed execution waits in the exec-data map, was taken by an analysis
that labeled it, or was skipped as the first one of its function on its thread. The skipped ones
are of different functions or threads, and without the workaround there are none; with it no other
execution is taken before the first one of its function on its thread was skipped. An analysis
takes no execution twice, none that was labeled before, and all that the previous analysis took
and did not label, each time with the value that the execution has. -/
theorem executions_accounted {model : params.algo.Param} {s : AnalysisDriver params.algo.Param}
    (hrun : Runs (StepOf exec) Lists (start params model) s) :
    ∃ skipped : List CallRef,
      (params.ignoresFirst = false → skipped = []) ∧
      (skipped.map (site s.driver.manager)).Nodup ∧
      (params.ignoresFirst = true → ∀ g ∈ s.given, ∀ e ∈ g,
        site s.driver.manager e.call ∈ skipped.map (site s.driver.manager)) ∧
      (∀ it, s.driver.manager.Closed it →
        it ∈ s.driver.manager.execDataMap (s.driver.manager.calls it).fid ∧
            (s.driver.manager.calls it).label = 0 ∨
          (∃ g ∈ s.given, ∃ e ∈ g, e.call = it ∧ e.label ≠ 0) ∨ it ∈ skipped) ∧
      Retaken GivenExec.call (fun e => e.label ≠ 0) s.given ∧
      ∀ g ∈ s.given, ∀ e ∈ g, s.driver.manager.Closed e.call ∧ e.call ∉ skipped ∧
        (s.driver.manager.calls e.call).fid = e.fid ∧
        params.valueOf (s.driver.manager.calls e.call) = e.value := by
  obtain ⟨skipped, h⟩ := hrun.invariant
    (fun s => ∃ skipped, Accounted params s.driver.manager s.funcSeen s.given skipped)
    ⟨[], accounted_new params⟩ fun s a t ⟨skipped, h⟩ hlists hexec =>
      accounted_exec h hlists hexec
  have hnodup := h.nodup
  have hseen := h.seen
  rw [h.funcSeen_eq] at hnodup hseen
  refine ⟨skipped, h.off, hnodup, hseen, h.accounted, h.retaken, fun g hg e he => ?_⟩
  obtain ⟨hclosed, hfid, hvalue⟩ := h.taken g hg e he
  exact ⟨hclosed, h.disjoint g hg e he, hfid, hvalue⟩

omit [LibM]

/-- Every step is analysed, and the models are synchronised without a server. -/
def everyCall (algo : AlgoParams) (disableJitWorkaround : Bool) : AnalysisParams :=
  { driver := { Driver.everyStep with usePS := false }, algo := algo
    outlierStatistic := .exclusiveRuntime, disableJitWorkaround := disableJitWorkaround
    globalModelSyncFreq := 1 }

/-- Steps that each read one call of a function. -/
def oneCallPerStep {P : Type} (reply : P) (steps : ℕ) : List (AnalysisAction P) :=
  (List.range steps).map fun step =>
    .runFrame { parsed := (Driver.callsOnThreads step
                  [(0, 100 * (step + 1), 100 * (step + 1) + 50)]).parsed
                fids := [5], threads := [], reply := reply }

/-- The first call is skipped, and the second one is taken again together with the third. -/
theorem executions_accounted_threeCalls : letI := LibM.interpolated
    ∃ (s : AnalysisDriver SstdParam) (skipped : List CallRef),
      s.given.map (fun g => g.map GivenExec.call) = [[], [1], [1, 2]] ∧
      Retaken GivenExec.call (fun e => e.label ≠ 0) s.given ∧
      ∀ g ∈ s.given, ∀ e ∈ g, s.driver.manager.Closed e.call ∧ e.call ∉ skipped ∧
        site s.driver.manager e.call ∈ skipped.map (site s.driver.manager) := by
  let _ := LibM.interpolated
  let params := everyCall (.sstd 6) false
  have hrun : ∃ s ∈ runAll (@exec _ params) Lists (start params SstdParam.new)
      (oneCallPerStep SstdParam.new 3),
      s.given.map (fun g => g.map GivenExec.call) = [[], [1], [1, 2]] := by
    decide +kernel
  obtain ⟨s, hs, hgiven⟩ := hrun
  have hruns : Runs (StepOf (@exec _ params)) Lists (start params SstdParam.new) s :=
    runs_of_runAll _ hs
  obtain ⟨skipped, -, -, hseen, -, hretaken, hall⟩ := executions_accounted hruns
  refine ⟨s, skipped, hgiven, hretaken, fun g hg e he => ?_⟩
  obtain ⟨hclosed, hnot, -⟩ := hall g hg e he
  exact ⟨hclosed, hnot, hseen rfl g hg e he⟩

end AnalysisDriver

end Chimbuko
