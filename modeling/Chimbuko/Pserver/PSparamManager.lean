import Chimbuko.Param.SstdParam
import Mathlib.Algebra.BigOperators.Group.List.Basic

/-!
# The parameter manager of the server

`core/pserver/PSparamManager` keeps one model for each worker thread and a published global
model in serialized form. The global model is rebuilt from the worker models, which are never
flushed, and a restore seeds the first worker and clears the others.

Here the calls on the manager run one after another. For the standard deviation model, what is
served after an `updateGlobalModel` is every model received since the last restore merged once.
-/

namespace Chimbuko

open CentralMoments

/-- The worker models, the global model, and its cached serialization. -/
structure PSparamManager (P Buffer : Type) where
  workerParams : List P
  globalParams : P
  latestGlobalParams : Buffer
  forceUpdate : Bool

namespace PSparamManager

section Operations

variable {P Buffer Json : Type} (I : ParamInterface P Buffer Json)

/-- A manager for a number of workers, all models fresh. -/
def new (nworker : ℕ) : PSparamManager P Buffer :=
  { workerParams := List.replicate nworker I.new
    globalParams := I.new
    latestGlobalParams := I.serialize I.new
    forceUpdate := false }

/-- Merge the worker models into a fresh model and publish it. -/
def updateGlobalModel (man : PSparamManager P Buffer) :
    Except String (PSparamManager P Buffer) := do
  let newGlobParams ← I.updateAll I.new man.workerParams
  pure { man with
    globalParams := newGlobParams
    latestGlobalParams := I.serialize newGlobParams }

/-- Merge an update into one worker's model and return the published global model. -/
def updateWorkerModel (man : PSparamManager P Buffer) (param : Buffer) (workerId : ℤ) :
    Except String (PSparamManager P Buffer × Buffer) :=
  if workerId < 0 ∨ (man.workerParams.length : ℤ) ≤ workerId then throw "Invalid worker id"
  else
    match man.workerParams[workerId.toNat]? with
    | none => throw "Invalid worker id"
    | some worker => do
      let worker ← I.updateSerialized worker param
      let man := { man with workerParams := man.workerParams.set workerId.toNat worker }
      let man ← if man.forceUpdate then updateGlobalModel I man else pure man
      pure (man, man.latestGlobalParams)

/-- Install a saved model as the global one and as the first worker's, and clear the other
workers. A manager without workers has no first worker to seed. -/
def restoreGlobalModelJSON (man : PSparamManager P Buffer) (json : Json) :
    Except String (PSparamManager P Buffer) := do
  let globalParams ← I.deserializeJson man.globalParams json
  match man.workerParams with
  | [] => throw "Invalid worker id"
  | first :: others =>
    let first ← I.deserializeJson first json
    pure { man with
      workerParams := first :: others.map I.clear
      globalParams := globalParams
      latestGlobalParams := I.serialize globalParams }

/-- A call on the manager. -/
inductive Request (Buffer Json : Type)
  | updateWorkerModel (param : Buffer) (workerId : ℤ)
  | updateGlobalModel
  | restoreGlobalModelJSON (json : Json)
  | enableForceUpdate (val : Bool)

/-- Serve one call. -/
def serve (man : PSparamManager P Buffer) :
    Request Buffer Json → Except String (PSparamManager P Buffer)
  | .updateWorkerModel param workerId => do
    let (man, _) ← updateWorkerModel I man param workerId
    pure man
  | .updateGlobalModel => updateGlobalModel I man
  | .restoreGlobalModelJSON json => restoreGlobalModelJSON I man json
  | .enableForceUpdate val => pure { man with forceUpdate := val }

/-- Serve calls one after another. -/
def serveAll (man : PSparamManager P Buffer) (requests : List (Request Buffer Json)) :
    Except String (PSparamManager P Buffer) :=
  requests.foldlM (serve I) man

/-- A rebuild publishes the merge of the worker models. -/
theorem updateGlobalModel_eq_ok {man man' : PSparamManager P Buffer}
    (h : updateGlobalModel I man = .ok man') :
    ∃ newGlobParams, I.updateAll I.new man.workerParams = .ok newGlobParams ∧
      man' = { man with
        globalParams := newGlobParams
        latestGlobalParams := I.serialize newGlobParams } := by
  cases hmerge : I.updateAll I.new man.workerParams with
  | error e =>
    rw [updateGlobalModel, hmerge] at h
    cases h
  | ok newGlobParams =>
    rw [updateGlobalModel, hmerge] at h
    exact ⟨newGlobParams, rfl, (Except.ok.inj h).symm⟩

/-- A worker call merges the update into that worker's model, rebuilds the global model if
force update is enabled, and returns what is then published. -/
theorem updateWorkerModel_eq_ok {man man' : PSparamManager P Buffer} {param latest : Buffer}
    {workerId : ℤ} (h : updateWorkerModel I man param workerId = .ok (man', latest)) :
    ∃ worker merged, man.workerParams[workerId.toNat]? = some worker ∧
      I.updateSerialized worker param = .ok merged ∧ latest = man'.latestGlobalParams ∧
      (if man.forceUpdate then updateGlobalModel I { man with
          workerParams := man.workerParams.set workerId.toNat merged }
        else .ok { man with
          workerParams := man.workerParams.set workerId.toNat merged }) = .ok man' := by
  unfold updateWorkerModel at h
  split at h
  · cases h
  cases hworker : man.workerParams[workerId.toNat]? with
  | none =>
    simp only [hworker] at h
    cases h
  | some worker =>
    cases hmerged : I.updateSerialized worker param with
    | error e =>
      simp only [hworker, hmerged] at h
      cases h
    | ok merged =>
      refine ⟨worker, merged, rfl, hmerged, ?_⟩
      simp only [hworker, hmerged, bind, Except.bind, pure, Except.pure] at h
      split at h
      · rename_i hforce
        split at h
        · cases h
        · rename_i man'' hglobal
          cases h
          exact ⟨rfl, by rw [if_pos hforce]; exact hglobal⟩
      · rename_i hforce
        cases h
        exact ⟨rfl, if_neg hforce⟩

/-- Rebuilding the global model from the same worker models changes nothing. -/
theorem updateGlobalModel_idem {man man' : PSparamManager P Buffer}
    (h : updateGlobalModel I man = .ok man') : updateGlobalModel I man' = .ok man' := by
  obtain ⟨newGlobParams, hmerge, rfl⟩ := updateGlobalModel_eq_ok I h
  rw [updateGlobalModel, hmerge]
  rfl

end Operations

section Sstd

open SstdParam

variable {Buffer Json : Type} (archive : MapArchive RunStats Buffer Json)

/-- The models that count after a further call: a restore starts over from its model. -/
def receive (models : List SstdParam) : Request Buffer Json → List SstdParam
  | .updateWorkerModel param _ =>
    match archive.load param with
    | .ok runstats => models ++ [⟨runstats⟩]
    | .error _ => models
  | .updateGlobalModel => models
  | .restoreGlobalModelJSON json =>
    match archive.loadJson json with
    | .ok runstats => [⟨runstats⟩]
    | .error _ => models
  | .enableForceUpdate _ => models

/-- The model of the last restore, if any, and the updates received since. -/
def received (requests : List (Request Buffer Json)) : List SstdParam :=
  requests.foldl (receive archive) []

/-- A call that a client or the operator can make: its worker exists and its payload is an
archive of a model whose statistics describe some data. -/
def WellFormed (nworker : ℕ) : Request Buffer Json → Prop
  | .updateWorkerModel param workerId => 0 ≤ workerId ∧ workerId < nworker ∧
      ∃ runstats, archive.load param = .ok runstats ∧ (SstdParam.mk runstats).Valid
  | .restoreGlobalModelJSON json =>
      ∃ runstats, archive.loadJson json = .ok runstats ∧ (SstdParam.mk runstats).Valid
  | _ => True

/-- The worker models together hold the data of the models that count, each once. -/
structure Aggregates (nworker : ℕ) (models : List SstdParam)
    (man : PSparamManager SstdParam Buffer) : Prop where
  workers : man.workerParams.length = nworker
  workers_valid : ∀ p ∈ man.workerParams, p.Valid
  models_valid : ∀ p ∈ models, p.Valid
  powerSums : (man.workerParams.map SstdParam.powerSums).sum =
    (models.map SstdParam.powerSums).sum

/-- A new server aggregates nothing. -/
theorem aggregates_new (nworker : ℕ) :
    Aggregates nworker [] (new (interface archive) nworker) where
  workers := List.length_replicate
  workers_valid p hp := by
    rw [List.eq_of_mem_replicate hp]
    exact valid_new
  models_valid p hp := absurd hp List.not_mem_nil
  powerSums := by
    change ((List.replicate nworker SstdParam.new).map SstdParam.powerSums).sum = 0
    rw [List.map_replicate, SstdParam.powerSums_new, List.sum_replicate, nsmul_zero]

/-- Replacing one summand by its sum with `x` adds `x` to the total. -/
private theorem sum_set_add {M : Type*} [AddCommMonoid M] (l : List M) (n : ℕ) {a : M} (x : M)
    (h : l[n]? = some a) : (l.set n (a + x)).sum = l.sum + x := by
  induction l generalizing n with
  | nil => simp at h
  | cons b rest ih =>
    cases n with
    | zero =>
      simp only [List.getElem?_cons_zero, Option.some.injEq] at h
      rw [List.set_cons_zero, List.sum_cons, List.sum_cons, h, add_right_comm]
    | succ n =>
      rw [List.set_cons_succ, List.sum_cons, List.sum_cons, ih n h, add_assoc]

/-- The global model that the worker models merge into. -/
theorem updateGlobalModel_ok {nworker : ℕ} {models : List SstdParam}
    {man : PSparamManager SstdParam Buffer} (h : Aggregates nworker models man) :
    ∃ man', updateGlobalModel (interface archive) man = .ok man' ∧
      Aggregates nworker models man' ∧ man'.globalParams.Valid ∧
      man'.globalParams.powerSums = (models.map SstdParam.powerSums).sum ∧
      man'.latestGlobalParams = archive.save man'.globalParams.runstats := by
  obtain ⟨glob, hmerge, hvalid, hsums⟩ :=
    updateAll_ok archive man.workerParams valid_new h.workers_valid
  refine ⟨{ man with globalParams := glob, latestGlobalParams := archive.save glob.runstats },
    ?_, ⟨h.workers, h.workers_valid, h.models_valid, h.powerSums⟩, hvalid, ?_, rfl⟩
  · rw [updateGlobalModel]
    change ((interface archive).updateAll SstdParam.new man.workerParams >>= _) = _
    rw [hmerge]
    rfl
  · rw [hsums, SstdParam.powerSums_new, zero_add, h.powerSums]

/-- A well-formed update is merged into its worker and counts once more. -/
theorem updateWorkerModel_ok {nworker : ℕ} {models : List SstdParam}
    {man : PSparamManager SstdParam Buffer} (h : Aggregates nworker models man) {param : Buffer}
    {workerId : ℤ} {runstats : ModelMap RunStats} (hnonneg : 0 ≤ workerId)
    (hlt : workerId < nworker) (hload : archive.load param = .ok runstats)
    (hvalid : (SstdParam.mk runstats).Valid) :
    ∃ man' latest, updateWorkerModel (interface archive) man param workerId =
        .ok (man', latest) ∧ Aggregates nworker (models ++ [⟨runstats⟩]) man' := by
  have hindex : workerId.toNat < man.workerParams.length := by
    rw [h.workers]
    omega
  have hrange : ¬(workerId < 0 ∨ (man.workerParams.length : ℤ) ≤ workerId) := by
    rw [h.workers]
    omega
  have hget := List.getElem?_eq_getElem hindex
  have hold := h.workers_valid _ (List.getElem_mem hindex)
  obtain ⟨worker, hworker, hworkerValid, hsums⟩ := updateMap_ok hold hvalid
  have hupdate : (interface archive).updateSerialized man.workerParams[workerId.toNat] param =
      .ok worker := by
    change (archive.load param >>= _) = _
    rw [hload]
    exact hworker
  have haggregates : Aggregates nworker (models ++ [⟨runstats⟩])
      { man with workerParams := man.workerParams.set workerId.toNat worker } := by
    refine ⟨by rw [List.length_set, h.workers], ?_, ?_, ?_⟩
    · intro p hp
      rcases List.mem_or_eq_of_mem_set hp with hp | rfl
      · exact h.workers_valid p hp
      · exact hworkerValid
    · intro p hp
      rcases List.mem_append.mp hp with hp | hp
      · exact h.models_valid p hp
      · rw [List.mem_singleton.mp hp]
        exact hvalid
    · rw [List.map_append, List.sum_append, ← h.powerSums, List.map_singleton,
        List.sum_singleton, List.map_set, hsums]
      exact sum_set_add _ _ _ (by rw [List.getElem?_map, hget]; rfl)
  cases hforce : man.forceUpdate with
  | false =>
    refine ⟨_, man.latestGlobalParams, ?_, haggregates⟩
    simp [updateWorkerModel, hrange, hget, hupdate, hforce, bind, Except.bind, pure, Except.pure]
  | true =>
    obtain ⟨man', hglobal, haggregates', -⟩ := updateGlobalModel_ok archive haggregates
    refine ⟨man', man'.latestGlobalParams, ?_, haggregates'⟩
    simp only [hforce] at hglobal
    simp [updateWorkerModel, hrange, hget, hupdate, hforce, hglobal, bind, Except.bind, pure,
      Except.pure]

/-- A restore starts over from the restored model alone. -/
theorem restoreGlobalModelJSON_ok {nworker : ℕ} {models : List SstdParam} (hn : 0 < nworker)
    {man : PSparamManager SstdParam Buffer} (h : Aggregates nworker models man) {json : Json}
    {runstats : ModelMap RunStats} (hload : archive.loadJson json = .ok runstats)
    (hvalid : (SstdParam.mk runstats).Valid) :
    ∃ man', restoreGlobalModelJSON (interface archive) man json = .ok man' ∧
      Aggregates nworker [⟨runstats⟩] man' := by
  have hjson : ∀ p, (interface archive).deserializeJson p json = .ok ⟨runstats⟩ := by
    intro p
    change (archive.loadJson json >>= _) = _
    rw [hload]
    rfl
  cases hworkers : man.workerParams with
  | nil =>
    have hlength := h.workers
    rw [hworkers] at hlength
    exact absurd hlength.symm hn.ne'
  | cons first others =>
    refine ⟨{ man with
      workerParams := ⟨runstats⟩ :: others.map fun _ => SstdParam.new
      globalParams := ⟨runstats⟩
      latestGlobalParams := archive.save runstats }, ?_, ?_, ?_, ?_, ?_⟩
    · simp only [restoreGlobalModelJSON, hjson, hworkers]
      rfl
    · have hlength := h.workers
      rw [hworkers] at hlength
      simpa only [List.length_cons, List.length_map] using hlength
    · intro p hp
      rcases List.mem_cons.mp hp with rfl | hp
      · exact hvalid
      · obtain ⟨_, _, rfl⟩ := List.mem_map.mp hp
        exact valid_new
    · intro p hp
      rw [List.mem_singleton.mp hp]
      exact hvalid
    · rw [List.map_cons, List.sum_cons, List.map_map, List.map_singleton, List.sum_singleton]
      have hzero : (others.map (SstdParam.powerSums ∘ fun _ => SstdParam.new)).sum = 0 :=
        List.sum_eq_zero fun x hx => by
          obtain ⟨_, _, rfl⟩ := List.mem_map.mp hx
          exact SstdParam.powerSums_new
      rw [hzero, add_zero]

/-- One well-formed call keeps the worker models in line with what counts. -/
theorem serve_ok {nworker : ℕ} (hn : 0 < nworker) {models : List SstdParam}
    {man : PSparamManager SstdParam Buffer} (h : Aggregates nworker models man)
    {request : Request Buffer Json} (hrequest : WellFormed archive nworker request) :
    ∃ man', serve (interface archive) man request = .ok man' ∧
      Aggregates nworker (receive archive models request) man' := by
  cases request with
  | updateWorkerModel param workerId =>
    obtain ⟨hnonneg, hlt, runstats, hload, hvalid⟩ := hrequest
    obtain ⟨man', latest, hrun, haggregates⟩ :=
      updateWorkerModel_ok archive h hnonneg hlt hload hvalid
    refine ⟨man', ?_, ?_⟩
    · rw [serve, hrun]
      rfl
    · rw [receive, hload]
      exact haggregates
  | updateGlobalModel =>
    obtain ⟨man', hrun, haggregates, -⟩ := updateGlobalModel_ok archive h
    exact ⟨man', hrun, haggregates⟩
  | restoreGlobalModelJSON json =>
    obtain ⟨runstats, hload, hvalid⟩ := hrequest
    obtain ⟨man', hrun, haggregates⟩ := restoreGlobalModelJSON_ok archive hn h hload hvalid
    refine ⟨man', hrun, ?_⟩
    rw [receive, hload]
    exact haggregates
  | enableForceUpdate val =>
    exact ⟨{ man with forceUpdate := val }, rfl,
      ⟨h.workers, h.workers_valid, h.models_valid, h.powerSums⟩⟩

/-- Every run of well-formed calls keeps the worker models in line with what counts. -/
theorem serveAll_ok {nworker : ℕ} (hn : 0 < nworker) (requests : List (Request Buffer Json))
    {models : List SstdParam} {man : PSparamManager SstdParam Buffer}
    (h : Aggregates nworker models man)
    (hrequests : ∀ request ∈ requests, WellFormed archive nworker request) :
    ∃ man', serveAll (interface archive) man requests = .ok man' ∧
      Aggregates nworker (requests.foldl (receive archive) models) man' := by
  induction requests generalizing models man with
  | nil => exact ⟨man, rfl, h⟩
  | cons request rest ih =>
    obtain ⟨next, hnext, haggregates⟩ := serve_ok archive hn h (hrequests _ List.mem_cons_self)
    obtain ⟨man', hrun, hfinal⟩ := ih haggregates fun r hr =>
      hrequests r (List.mem_cons_of_mem _ hr)
    refine ⟨man', ?_, hfinal⟩
    rw [serveAll, List.foldlM_cons, hnext]
    exact hrun

/-- The model served after the calls and a final rebuild, read back from its archive. -/
theorem served_ok {nworker : ℕ} (hn : 0 < nworker) (requests : List (Request Buffer Json))
    (hrequests : ∀ request ∈ requests, WellFormed archive nworker request) :
    ∃ man glob, serveAll (interface archive) (new (interface archive) nworker)
        (requests ++ [.updateGlobalModel]) = .ok man ∧
      archive.load man.latestGlobalParams = .ok glob ∧ (SstdParam.mk glob).Valid ∧
      (∀ p ∈ received archive requests, p.Valid) ∧
      (SstdParam.mk glob).powerSums =
        ((received archive requests).map SstdParam.powerSums).sum ∧
      updateGlobalModel (interface archive) man = .ok man := by
  obtain ⟨before, hbefore, haggregates⟩ :=
    serveAll_ok archive hn requests (aggregates_new archive nworker) hrequests
  obtain ⟨man, hrun, -, hvalid, hsums, hlatest⟩ := updateGlobalModel_ok archive haggregates
  obtain ⟨glob, hload, hlookup⟩ := archive.load_save man.globalParams.runstats
  refine ⟨man, glob, ?_, ?_, ?_, haggregates.models_valid, ?_,
    updateGlobalModel_idem _ hrun⟩
  · rw [serveAll, List.foldlM_append]
    change (serveAll _ _ requests >>= _) = _
    rw [hbefore]
    change ([Request.updateGlobalModel].foldlM (serve (interface archive)) before) = _
    rw [List.foldlM_cons, serve, hrun]
    rfl
  · rw [hlatest, hload]
  · intro k s hs
    exact hvalid k s (by rw [← hlookup]; exact hs)
  · exact (KeyedMap.tally_congr hlookup).trans hsums

/-- After a rebuild the served model holds, index by index, the statistics of the last restored
model and of every update received since, merged once each. It does not depend on the number of
workers, on who received which update or on their order, and rebuilding again changes nothing. -/
theorem served_eq_mergedStats {nworker : ℕ} (hn : 0 < nworker)
    (requests : List (Request Buffer Json))
    (hrequests : ∀ request ∈ requests, WellFormed archive nworker request) :
    ∃ man glob, serveAll (interface archive) (new (interface archive) nworker)
        (requests ++ [.updateGlobalModel]) = .ok man ∧
      archive.load man.latestGlobalParams = .ok glob ∧
      (∀ k, (glob.lookup k).map RunStats.moments =
        (mergedStats (received archive requests) k).map RunStats.moments) ∧
      updateGlobalModel (interface archive) man = .ok man ∧
      ∀ (nworker' : ℕ) (requests' : List (Request Buffer Json)), 0 < nworker' →
        (∀ request ∈ requests', WellFormed archive nworker' request) →
        (received archive requests').Perm (received archive requests) →
        ∃ man' glob', serveAll (interface archive) (new (interface archive) nworker')
            (requests' ++ [.updateGlobalModel]) = .ok man' ∧
          archive.load man'.latestGlobalParams = .ok glob' ∧
          ∀ k, (glob'.lookup k).map RunStats.moments = (glob.lookup k).map RunStats.moments := by
  obtain ⟨man, glob, hrun, hload, hvalid, hmodels, hsums, hidem⟩ :=
    served_ok archive hn requests hrequests
  have hmerged := moments_eq_mergedStats hvalid hmodels hsums
  refine ⟨man, glob, hrun, hload, hmerged, hidem, ?_⟩
  intro nworker' requests' hn' hrequests' hperm
  obtain ⟨man', glob', hrun', hload', hvalid', -, hsums', -⟩ :=
    served_ok archive hn' requests' hrequests'
  refine ⟨man', glob', hrun', hload', fun k => ?_⟩
  rw [(hperm.map SstdParam.powerSums).sum_eq] at hsums'
  exact (moments_eq_mergedStats hvalid' hmodels hsums' k).trans (hmerged k).symm

/-- Two workers, a restore between two updates: only the restored model and the last update
are served. -/
theorem served_eq_mergedStats_restored :
    let update : ModelMap RunStats := AList.singleton 7 ((RunStats.new false).push 2)
    let saved : ModelMap RunStats := AList.singleton 7 (((RunStats.new false).push 5).push 8)
    let requests : List (Request (ModelMap RunStats) (ModelMap RunStats)) :=
      [.updateWorkerModel update 1, .restoreGlobalModelJSON saved, .updateWorkerModel update 1]
    ∃ man glob, serveAll (interface .direct) (new (interface .direct) 2)
        (requests ++ [.updateGlobalModel]) = .ok man ∧
      MapArchive.direct.load man.latestGlobalParams = .ok glob ∧
      (glob.lookup 7).map RunStats.moments = some ⟨3, 5, 18, 0, 162⟩ := by
  intro update saved requests
  have hupdate : (SstdParam.mk update).Valid :=
    valid_singleton 7 (RunStats.valid_push (RunStats.valid_new false) 2)
  have hsaved : (SstdParam.mk saved).Valid :=
    valid_singleton 7
      (RunStats.valid_push (RunStats.valid_push (RunStats.valid_new false) 5) 8)
  have hworker : WellFormed .direct 2 (Request.updateWorkerModel update 1) :=
    ⟨by decide, by decide, update, rfl, hupdate⟩
  obtain ⟨man, glob, hrun, hload, hmerged, -⟩ :=
    served_eq_mergedStats .direct Nat.two_pos requests (by
      intro request hrequest
      rcases List.mem_cons.mp hrequest with rfl | hrequest
      · exact hworker
      rcases List.mem_cons.mp hrequest with rfl | hrequest
      · exact ⟨saved, rfl, hsaved⟩
      · rw [List.mem_singleton.mp hrequest]
        exact hworker)
  refine ⟨man, glob, hrun, hload, (hmerged 7).trans ?_⟩
  decide +kernel

end Sstd

end PSparamManager

end Chimbuko
