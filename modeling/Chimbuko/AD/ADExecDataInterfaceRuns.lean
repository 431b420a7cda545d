import Chimbuko.AD.ADExecDataInterface
import Chimbuko.Core.ADOutlierAssess
import Chimbuko.Library.TransitionSystem

/-!
# What an analysis does to executions

Getting the data sets labels the ignored executions normal, and passes on those that are unlabeled
then. Recording the labels gives each of these its score, and its label if it has one. Executions
that were labeled before stay as they are.
-/

namespace Chimbuko

open TransitionSystem

namespace ADExecDataInterface

/-- The executions of a function that have no label, with their positions. -/
def unlabeled (manager : ADEvent) (fid : ℕ) : List (CallRef × ℕ) :=
  (manager.execDataMap fid).zipIdx.filter fun entry => (manager.calls entry.1).label = 0

/-- The element that stands for an execution. -/
def elemOf (self : ADExecDataInterface) (entry : CallRef × ℕ) : Elem :=
  Elem.new (self.getStatisticValue (self.manager.calls entry.1)) entry.2

/-- The elements of the unlabeled executions of a function. -/
def dataSetOf (self : ADExecDataInterface) (fid : ℕ) : List Elem :=
  (unlabeled self.manager fid).map self.elemOf

/-- Label executions normal. -/
def ignoreCalls (manager : ADEvent) (ignored : List CallRef) : ADEvent :=
  { manager with calls := fun it =>
      if it ∈ ignored then (manager.calls it).setLabel 1 else manager.calls it }

/-- The interface after some executions were ignored. -/
structure Ignoring (before after : ADExecDataInterface) (ignored : List CallRef) : Prop where
  manager : after.manager = ignoreCalls before.manager ignored
  statistic : after.statistic = before.statistic
  dsetFidMap : after.dsetFidMap = before.dsetFidMap
  unlabeled : ∀ it ∈ ignored, (before.manager.calls it).label = 0

/-- The executions in the map are distinct calls of their functions. -/
structure ExecsValid (manager : ADEvent) : Prop where
  nodup : ∀ fid, (manager.execDataMap fid).Nodup
  fid_eq : ∀ fid, ∀ it ∈ manager.execDataMap fid, (manager.calls it).fid = fid

/-- Ignoring no executions changes nothing. -/
theorem ignoreCalls_nil (manager : ADEvent) : ignoreCalls manager [] = manager := by
  unfold ignoreCalls
  simp only [List.not_mem_nil, if_false]

/-- Ignoring executions and then others is ignoring all of them. -/
theorem ignoreCalls_append (manager : ADEvent) (ignored ignored' : List CallRef) :
    ignoreCalls (ignoreCalls manager ignored) ignored' =
      ignoreCalls manager (ignored ++ ignored') := by
  unfold ignoreCalls
  congr 1
  funext it
  dsimp only
  by_cases hit : it ∈ ignored
  · by_cases hit' : it ∈ ignored'
    · simp only [hit, hit', List.mem_append, or_self, if_true]
      rfl
    · simp only [hit, hit', List.mem_append, or_false, if_true, if_false]
  · simp only [hit, List.mem_append, false_or, if_false]

/-- Labeling an execution normal is ignoring it. -/
theorem labelNormal_manager (self : ADExecDataInterface) (it : CallRef) :
    (self.labelNormal it).manager = ignoreCalls self.manager [it] := by
  unfold labelNormal ADEvent.modifyCall ignoreCalls
  dsimp only
  congr 1
  funext x
  by_cases hx : x = it
  · rw [hx, Function.update_self, if_pos List.mem_cons_self]
  · rw [Function.update_of_ne hx, if_neg (by simpa using hx)]

/-- Labels have no part in the value of an execution. -/
theorem Ignoring.elemOf_eq {self self' : ADExecDataInterface} {ignored : List CallRef}
    (h : Ignoring self self' ignored) : self'.elemOf = self.elemOf := by
  funext entry
  unfold elemOf getStatisticValue
  rw [h.manager, h.statistic]
  unfold ignoreCalls
  by_cases hit : entry.1 ∈ ignored
  · simp only [hit, if_true]
    rfl
  · simp only [hit, if_false]

/-- What has no label then had none and was not ignored. -/
theorem Ignoring.label_eq {self self' : ADExecDataInterface} {ignored : List CallRef}
    (h : Ignoring self self' ignored) (it : CallRef) :
    (self'.manager.calls it).label = 0 ↔
      (self.manager.calls it).label = 0 ∧ it ∉ ignored := by
  rw [h.manager]
  unfold ignoreCalls
  dsimp only
  by_cases hit : it ∈ ignored
  · rw [if_pos hit]
    simp [hit, ExecData.setLabel]
  · rw [if_neg hit]
    simp [hit]

/-- At first nothing is ignored. -/
theorem Ignoring.refl (self : ADExecDataInterface) : Ignoring self self [] :=
  ⟨(ignoreCalls_nil _).symm, rfl, rfl, fun _ h => absurd h List.not_mem_nil⟩

/-- What is ignored in two parts is ignored. -/
theorem Ignoring.trans {self₁ self₂ self₃ : ADExecDataInterface} {ignored ignored' : List CallRef}
    (h : Ignoring self₁ self₂ ignored) (h' : Ignoring self₂ self₃ ignored') :
    Ignoring self₁ self₃ (ignored ++ ignored') := by
  refine ⟨?_, h'.statistic.trans h.statistic, h'.dsetFidMap.trans h.dsetFidMap, ?_⟩
  · rw [h'.manager, h.manager, ignoreCalls_append]
  · intro it hit
    rcases List.mem_append.mp hit with hold | hnew
    · exact h.unlabeled it hold
    · exact ((h.label_eq it).mp (h'.unlabeled it hnew)).1

/-- The thread of an execution and its function. -/
def site (manager : ADEvent) (it : CallRef) : Thread × ℕ :=
  ((manager.calls it).thread, (manager.calls it).fid)

/-- Ignoring executions leaves their functions and threads. -/
theorem Ignoring.site_eq {self self' : ADExecDataInterface} {ignored : List CallRef}
    (h : Ignoring self self' ignored) : site self'.manager = site self.manager := by
  funext it
  unfold site
  rw [h.manager]
  unfold ignoreCalls
  dsimp only
  split <;> rfl

/-- Executions are ignored as the first ones of their function on their thread, if at all, and of
those that are passed on the first one was seen before. -/
structure FirstCalls (before after : ADExecDataInterface) (ignored passed : List CallRef) :
    Prop where
  funcIgnore : after.funcIgnore = before.funcIgnore
  ignoreFirst : after.ignoreFirstFuncCall = before.ignoreFirstFuncCall
  off : before.ignoreFirstFuncCall = false → ignored = []
  seen : after.localFuncExecSeen =
    (ignored.map (site before.manager)).reverse ++ before.localFuncExecSeen
  nodup : before.localFuncExecSeen.Nodup → after.localFuncExecSeen.Nodup
  passed : before.ignoreFirstFuncCall = true →
    ∀ it ∈ passed, site before.manager it ∈ after.localFuncExecSeen

/-- At first nothing is ignored or passed on. -/
theorem FirstCalls.refl (self : ADExecDataInterface) : FirstCalls self self [] [] :=
  ⟨rfl, rfl, fun _ => rfl, rfl, id, fun _ _ h => absurd h List.not_mem_nil⟩

/-- First calls are skipped in two parts. -/
theorem FirstCalls.trans {self₁ self₂ self₃ : ADExecDataInterface}
    {ignored passed ignored' passed' : List CallRef} (h : FirstCalls self₁ self₂ ignored passed)
    (hsite : site self₂.manager = site self₁.manager)
    (h' : FirstCalls self₂ self₃ ignored' passed') :
    FirstCalls self₁ self₃ (ignored ++ ignored') (passed ++ passed') := by
  refine ⟨h'.funcIgnore.trans h.funcIgnore, h'.ignoreFirst.trans h.ignoreFirst, fun hoff => ?_, ?_,
    fun hnodup => h'.nodup (h.nodup hnodup), fun hon it hit => ?_⟩
  · rw [h.off hoff, h'.off (h.ignoreFirst.trans hoff), List.nil_append]
  · rw [h'.seen, h.seen, hsite, List.map_append, List.reverse_append, List.append_assoc]
  · rcases List.mem_append.mp hit with hold | hnew
    · rw [h'.seen]
      exact List.mem_append_right _ (h.passed hon it hold)
    · rw [← hsite]
      exact h'.passed (h.ignoreFirst.trans hon) it hnew

/-- An execution was labeled before, is ignored, or is passed on. -/
private theorem addElem_cases (fid : ℕ) (ignoreFunc : Bool) (self : ADExecDataInterface)
    (out : List Elem) (entry : CallRef × ℕ) :
    ((self.manager.calls entry.1).label ≠ 0 ∧
        addElem fid ignoreFunc (self, out) entry = (self, out)) ∨
      (self.manager.calls entry.1).label = 0 ∧
        (addElem fid ignoreFunc (self, out) entry = (self, out ++ [self.elemOf entry]) ∧
            (ignoreFunc = false → (self.manager.calls entry.1).fid = fid →
              FirstCalls self self [] [entry.1]) ∨
          ∃ self', addElem fid ignoreFunc (self, out) entry = (self', out) ∧
            Ignoring self self' [entry.1] ∧ self'.dsetCache = self.dsetCache ∧
            (ignoreFunc = false → (self.manager.calls entry.1).fid = fid →
              FirstCalls self self' [entry.1] [])) := by
  have hignoring : ∀ self' : ADExecDataInterface, (self.manager.calls entry.1).label = 0 →
      self'.manager = (self.labelNormal entry.1).manager → self'.statistic = self.statistic →
      self'.dsetFidMap = self.dsetFidMap → Ignoring self self' [entry.1] := by
    intro self' hzero hmanager hstatistic hmap
    refine ⟨hmanager.trans (labelNormal_manager _ _), hstatistic, hmap, fun it hit => ?_⟩
    rw [List.mem_singleton.mp hit]
    exact hzero
  unfold addElem
  dsimp only
  by_cases hzero : (self.manager.calls entry.1).label = 0
  · rw [if_pos hzero]
    refine Or.inr ⟨hzero, ?_⟩
    split
    · rename_i hfunc
      exact Or.inr ⟨_, rfl, hignoring _ hzero rfl rfl rfl, rfl, fun hnot => by simp [hnot] at hfunc⟩
    · split
      · rename_i hfirst
        refine Or.inr ⟨_, rfl, hignoring _ hzero rfl rfl rfl, rfl, fun _ hfid => ?_⟩
        have hsite : site self.manager entry.1 = ((self.manager.calls entry.1).thread, fid) := by
          unfold site
          rw [hfid]
        refine ⟨rfl, rfl, fun hoff => ?_, ?_, fun hnodup => ?_,
          fun _ _ h => absurd h List.not_mem_nil⟩
        · rw [hoff] at hfirst
          exact absurd hfirst.1 Bool.false_ne_true
        · rw [List.map_singleton, hsite]
          rfl
        · exact List.nodup_cons.mpr ⟨hfirst.2, hnodup⟩
      · rename_i hfirst
        refine Or.inl ⟨rfl, fun _ hfid => ⟨rfl, rfl, fun _ => rfl, rfl, id, fun hon it hit => ?_⟩⟩
        rw [List.mem_singleton.mp hit]
        unfold site
        rw [hfid]
        by_contra hnot
        exact hfirst ⟨hon, hnot⟩
  · rw [if_neg hzero]
    exact Or.inl ⟨hzero, rfl⟩

/-- What going through executions of a function did. -/
private structure Passed (fid : ℕ) (ignoreFunc : Bool) (entries : List (CallRef × ℕ))
    (out : List Elem) (before : ADExecDataInterface) (r : ADExecDataInterface × List Elem)
    (ignored : List CallRef) : Prop where
  ignoring : Ignoring before r.1 ignored
  mem : ∀ it ∈ ignored, it ∈ entries.map Prod.fst
  cache : r.1.dsetCache = before.dsetCache
  out : r.2 = out ++ (entries.filter fun entry =>
    (r.1.manager.calls entry.1).label = 0).map before.elemOf
  firstCalls : ignoreFunc = false → (∀ entry ∈ entries, (before.manager.calls entry.1).fid = fid) →
    FirstCalls before r.1 ignored ((entries.filter fun entry =>
      (r.1.manager.calls entry.1).label = 0).map Prod.fst)

/-- Ignoring executions leaves their functions. -/
theorem Ignoring.fid_eq {self self' : ADExecDataInterface} {ignored : List CallRef}
    (h : Ignoring self self' ignored) (it : CallRef) :
    (self'.manager.calls it).fid = (self.manager.calls it).fid :=
  congrArg Prod.snd (congrFun h.site_eq it)

/-- Going through the executions of a function, each is labeled, ignored or passed on. -/
private theorem foldl_addElem {fid : ℕ} {ignoreFunc : Bool} {self : ADExecDataInterface}
    {entries : List (CallRef × ℕ)} (hnodup : (entries.map Prod.fst).Nodup) {out : List Elem}
    {r : ADExecDataInterface × List Elem}
    (h : entries.foldl (addElem fid ignoreFunc) (self, out) = r) :
    ∃ ignored, Passed fid ignoreFunc entries out self r ignored := by
  induction entries generalizing self out with
  | nil =>
    cases h
    exact ⟨[], .refl self, fun _ h => absurd h List.not_mem_nil, rfl, (List.append_nil _).symm,
      fun _ _ => .refl self⟩
  | cons entry rest ih =>
    rw [List.map_cons, List.nodup_cons] at hnodup
    rw [List.foldl_cons] at h
    have hskip : ∀ {self₁ : ADExecDataInterface} {ignored₁ : List CallRef},
        Ignoring self self₁ ignored₁ → (∀ it ∈ ignored₁, it = entry.1) →
        self₁.dsetCache = self.dsetCache → (self₁.manager.calls entry.1).label ≠ 0 →
        (ignoreFunc = false → (self.manager.calls entry.1).fid = fid →
          FirstCalls self self₁ ignored₁ []) →
        rest.foldl (addElem fid ignoreFunc) (self₁, out) = r →
        ∃ ignored, Passed fid ignoreFunc (entry :: rest) out self r ignored := by
      intro self₁ ignored₁ hfirst hmem hcache hlabel hcalls hrest
      obtain ⟨ignored, hpassed⟩ := ih hnodup.2 hrest
      have hafter : ¬(r.1.manager.calls entry.1).label = 0 := by
        rw [hpassed.ignoring.label_eq]
        exact fun hzero => hlabel hzero.1
      refine ⟨ignored₁ ++ ignored, hfirst.trans hpassed.ignoring, ?_, hpassed.cache.trans hcache,
        ?_, fun hfunc hfid => ?_⟩
      · intro it hit
        rw [List.map_cons]
        rcases List.mem_append.mp hit with hold | hnew
        · rw [hmem it hold]
          exact List.mem_cons_self
        · exact List.mem_cons_of_mem _ (hpassed.mem it hnew)
      · rw [List.filter_cons_of_neg (by simpa using hafter), hpassed.out, hfirst.elemOf_eq]
      · rw [List.filter_cons_of_neg (by simpa using hafter)]
        refine (hcalls hfunc (hfid _ List.mem_cons_self)).trans hfirst.site_eq
          (hpassed.firstCalls hfunc fun e he => ?_)
        rw [hfirst.fid_eq]
        exact hfid e (List.mem_cons_of_mem _ he)
    rcases addElem_cases fid ignoreFunc self out entry with ⟨hlabel, hstep⟩ |
      ⟨hzero, ⟨hstep, hcalls⟩ | hstep⟩
    · rw [hstep] at h
      exact hskip (.refl self) (fun _ hit => absurd hit List.not_mem_nil) rfl hlabel
        (fun _ _ => .refl self) h
    · rw [hstep] at h
      obtain ⟨ignored, hpassed⟩ := ih hnodup.2 h
      have hafter : (r.1.manager.calls entry.1).label = 0 := by
        rw [hpassed.ignoring.label_eq]
        exact ⟨hzero, fun hit => hnodup.1 (hpassed.mem _ hit)⟩
      refine ⟨ignored, hpassed.ignoring, fun it hit => ?_, hpassed.cache, ?_, fun hfunc hfid => ?_⟩
      · rw [List.map_cons]
        exact List.mem_cons_of_mem _ (hpassed.mem it hit)
      · rw [List.filter_cons_of_pos (by simpa using hafter), hpassed.out, List.map_cons,
          List.append_assoc]
        rfl
      · rw [List.filter_cons_of_pos (by simpa using hafter)]
        exact (hcalls hfunc (hfid _ List.mem_cons_self)).trans rfl
          (hpassed.firstCalls hfunc fun e he => hfid e (List.mem_cons_of_mem _ he))
    · obtain ⟨self', hstep, hignoring, hcache, hcalls⟩ := hstep
      rw [hstep] at h
      have hlabel : (self'.manager.calls entry.1).label ≠ 0 := by
        rw [ne_eq, hignoring.label_eq]
        exact fun hboth => hboth.2 List.mem_cons_self
      exact hskip hignoring (fun it hit => List.mem_singleton.mp hit) hcache hlabel hcalls h

/-- Ignoring executions leaves the exec-data map. -/
theorem Ignoring.execDataMap {self self' : ADExecDataInterface} {ignored : List CallRef}
    (h : Ignoring self self' ignored) : self'.manager.execDataMap = self.manager.execDataMap := by
  rw [h.manager]
  rfl

/-- Ignoring executions keeps the exec-data map valid. -/
theorem Ignoring.execsValid {self self' : ADExecDataInterface} {ignored : List CallRef}
    (h : Ignoring self self' ignored) (hvalid : ExecsValid self.manager) :
    ExecsValid self'.manager := by
  constructor
  · rw [h.execDataMap]
    exact hvalid.nodup
  · intro fid it hit
    rw [h.execDataMap] at hit
    rw [h.fid_eq]
    exact hvalid.fid_eq fid it hit

/-- A data set has the executions of a function that are unlabeled after the ignored ones were
labeled. -/
theorem getDataSet_spec {self : ADExecDataInterface} (hvalid : ExecsValid self.manager)
    {dsetIndex fid : ℕ} (hfid : self.dsetFidMap[dsetIndex]? = some fid)
    (hcache : self.dsetCache.lookup dsetIndex = none) {out : List Elem}
    {self' : ADExecDataInterface} (h : self.getDataSet dsetIndex = .ok (out, self')) :
    ∃ ignored, Ignoring self self' ignored ∧ (∀ it ∈ ignored, it ∈ self.manager.execDataMap fid) ∧
      (∀ k ≠ dsetIndex, self'.dsetCache.lookup k = self.dsetCache.lookup k) ∧
      (self'.dsetCache.lookup dsetIndex).getD [] = out ∧ out = self'.dataSetOf fid ∧
      (self.funcIgnore = [] →
        FirstCalls self self' ignored ((unlabeled self'.manager fid).map Prod.fst)) := by
  unfold getDataSet at h
  rw [hcache, hfid] at h
  dsimp only at h
  cases hexecs : self.manager.execDataMap fid with
  | nil =>
    rw [hexecs] at h
    cases h
    have hnone : unlabeled self.manager fid = [] := by
      unfold unlabeled
      rw [hexecs]
      rfl
    refine ⟨[], .refl _, fun _ h => absurd h List.not_mem_nil, fun _ _ => rfl, ?_, ?_, fun _ => ?_⟩
    · rw [hcache]
      rfl
    · unfold dataSetOf
      rw [hnone]
      rfl
    · rw [hnone]
      exact .refl _
  | cons front rest =>
    rw [hexecs] at h
    dsimp only at h
    rw [← hexecs] at h
    have hnodup : ((self.manager.execDataMap fid).zipIdx.map Prod.fst).Nodup := by
      rw [List.zipIdx_map_fst]
      exact hvalid.nodup fid
    generalize hr : (self.manager.execDataMap fid).zipIdx.foldl (addElem fid
      (decide ((self.manager.calls front).funcname ∈ self.funcIgnore))) (self, []) = r at h
    obtain ⟨ignored, hpassed⟩ := foldl_addElem hnodup hr
    have hmap := hpassed.ignoring.execDataMap
    cases h
    refine ⟨ignored, ⟨hpassed.ignoring.manager, hpassed.ignoring.statistic,
      hpassed.ignoring.dsetFidMap, hpassed.ignoring.unlabeled⟩, fun it hit => ?_, fun k hk => ?_,
      ?_, ?_, fun hfunc => ?_⟩
    · have hmem := hpassed.mem it hit
      rwa [List.zipIdx_map_fst, hexecs] at hmem
    · change (AList.insert _ _ _).lookup k = _
      rw [AList.lookup_insert_ne hk]
      exact congrArg (AList.lookup k) hpassed.cache
    · simp only [AList.lookup_insert, Option.getD_some]
    · rw [hpassed.out, List.nil_append, ← hpassed.ignoring.elemOf_eq]
      unfold dataSetOf unlabeled
      dsimp only
      rw [hmap]
      rfl
    · have hcalls := hpassed.firstCalls (by simp [hfunc]) fun entry hentry =>
        hvalid.fid_eq fid entry.1 (List.fst_mem_of_mem_zipIdx hentry)
      unfold unlabeled
      dsimp only
      rw [hmap]
      exact ⟨hcalls.funcIgnore, hcalls.ignoreFirst, hcalls.off, hcalls.seen, hcalls.nodup,
        hcalls.passed⟩

/-- An execution with what the analysis of its value gave it. -/
def assessed (a : Assessment) (d : ExecData) : ExecData :=
  match labelCode a.1 with
  | none => d.setOutlierScore a.2
  | some label => (d.setOutlierScore a.2).setLabel label

/-- Give what the analysis gave them to the unlabeled executions of some functions. -/
def assessCalls (assess : ℕ → ExecData → Assessment) (fids : List ℕ) (manager : ADEvent) :
    ADEvent :=
  { manager with
    calls := fun it =>
      let d := manager.calls it
      if d.label = 0 ∧ d.fid ∈ fids ∧ it ∈ manager.execDataMap d.fid then
        assessed (assess d.fid d) d
      else d }

/-- Assessing no calls changes nothing. -/
theorem assessCalls_nil (assess : ℕ → ExecData → Assessment) (manager : ADEvent) :
    assessCalls assess [] manager = manager := by
  unfold assessCalls
  simp only [List.not_mem_nil, false_and, and_false, if_false]

/-- Record what the analysis gave to executions that are each at their position. -/
private theorem foldlM_recordElem {its : List CallRef} (a : CallRef → Assessment)
    (value : CallRef → ℚ) {entries : List (CallRef × ℕ)}
    (hpos : ∀ entry ∈ entries, its[entry.2]? = some entry.1)
    (hnodup : (entries.map Prod.fst).Nodup) (manager : ADEvent) :
    (entries.map fun entry => assessElem (fun _ => a entry.1) (value entry.1, entry.2)).foldlM
        (recordElem its) manager =
      .ok { manager with
        calls := fun it =>
          if it ∈ entries.map Prod.fst then assessed (a it) (manager.calls it)
          else manager.calls it } := by
  induction entries generalizing manager with
  | nil =>
    simp only [List.map_nil, List.not_mem_nil, if_false]
    rfl
  | cons entry rest ih =>
    rw [List.map_cons, List.nodup_cons] at hnodup
    have hfirst : recordElem its manager
        (assessElem (fun _ => a entry.1) (value entry.1, entry.2)) =
        .ok (manager.modifyCall entry.1 (assessed (a entry.1))) := by
      unfold recordElem assessElem
      dsimp only
      rw [hpos entry List.mem_cons_self]
      rfl
    rw [List.map_cons, List.foldlM_cons, hfirst]
    refine (ih (fun e he => hpos e (List.mem_cons_of_mem _ he)) hnodup.2 _).trans ?_
    congr 1
    unfold ADEvent.modifyCall
    dsimp only
    congr 1
    funext it
    by_cases hit : it = entry.1
    · rw [hit, if_neg hnodup.1, Function.update_self, List.map_cons, if_pos List.mem_cons_self]
    · rw [Function.update_of_ne hit, List.map_cons]
      simp only [List.mem_cons, hit, false_or]

/-- The executions without a label are those of the function that have none. -/
theorem mem_unlabeled {manager : ADEvent} {fid : ℕ} {it : CallRef} :
    it ∈ (unlabeled manager fid).map Prod.fst ↔
      it ∈ manager.execDataMap fid ∧ (manager.calls it).label = 0 := by
  unfold unlabeled
  constructor
  · intro h
    obtain ⟨entry, hentry, rfl⟩ := List.mem_map.mp h
    obtain ⟨hmem, hlabel⟩ := List.mem_filter.mp hentry
    exact ⟨List.fst_mem_of_mem_zipIdx hmem, of_decide_eq_true hlabel⟩
  · rintro ⟨hmem, hlabel⟩
    obtain ⟨i, hi, rfl⟩ := List.mem_iff_getElem.mp hmem
    refine List.mem_map.mpr ⟨(_, i), List.mem_filter.mpr ⟨?_, decide_eq_true hlabel⟩, rfl⟩
    exact List.mem_zipIdx_iff_getElem?.mpr (List.getElem?_eq_getElem hi)

/-- Recording the labels of a function's data set, when those of other functions were recorded. -/
theorem recordDataSetLabelsInternal_spec {assess : ℕ → ℚ → Assessment}
    {before : ADExecDataInterface} (hvalid : ExecsValid before.manager) {done : List ℕ}
    {dsetIndex fid : ℕ} (hfid : before.dsetFidMap[dsetIndex]? = some fid) (hdone : fid ∉ done)
    {self : ADExecDataInterface} (hself : self = { before with
      manager := assessCalls (fun fid d => assess fid (before.getStatisticValue d)) done
        before.manager }) :
    self.recordDataSetLabelsInternal ((unlabeled before.manager fid).map fun entry =>
        assessElem (assess fid)
          (before.getStatisticValue (before.manager.calls entry.1), entry.2)) dsetIndex =
      .ok { before with
        manager := assessCalls (fun fid d => assess fid (before.getStatisticValue d))
          (done ++ [fid]) before.manager } := by
  unfold recordDataSetLabelsInternal
  rw [hself]
  dsimp only
  rw [hfid]
  dsimp only
  have hpos : ∀ entry ∈ unlabeled before.manager fid,
      (before.manager.execDataMap fid)[entry.2]? = some entry.1 := by
    intro entry hentry
    exact List.mem_zipIdx_iff_getElem?.mp (List.mem_filter.mp hentry).1
  have hnodup : ((unlabeled before.manager fid).map Prod.fst).Nodup := by
    have hall : ((before.manager.execDataMap fid).zipIdx.map Prod.fst).Nodup := by
      rw [List.zipIdx_map_fst]
      exact hvalid.nodup fid
    exact hall.sublist (List.filter_sublist.map _)
  have hrecord := foldlM_recordElem
    (fun it => assess fid (before.getStatisticValue (before.manager.calls it)))
    (fun it => before.getStatisticValue (before.manager.calls it)) hpos hnodup
    (assessCalls (fun fid d => assess fid (before.getStatisticValue d)) done before.manager)
  have hdata : ((unlabeled before.manager fid).map fun entry => assessElem (assess fid)
        (before.getStatisticValue (before.manager.calls entry.1), entry.2)).foldlM
      (recordElem (before.manager.execDataMap fid))
      (assessCalls (fun fid d => assess fid (before.getStatisticValue d)) done before.manager) =
    _ := hrecord
  change (List.foldlM (recordElem (before.manager.execDataMap fid)) _ _ >>= _) = _
  rw [hdata]
  change Except.ok _ = _
  congr 2
  unfold assessCalls
  dsimp only
  congr 1
  funext it
  by_cases hit : it ∈ before.manager.execDataMap fid
  · have hfunc := hvalid.fid_eq fid it hit
    rw [hfunc]
    by_cases hlabel : (before.manager.calls it).label = 0
    · rw [if_pos (mem_unlabeled.mpr ⟨hit, hlabel⟩), if_neg fun h => hdone h.2.1,
        if_pos ⟨hlabel, List.mem_append_right _ List.mem_cons_self, hit⟩]
    · rw [if_neg fun h => hlabel (mem_unlabeled.mp h).2, if_neg fun h => hlabel h.1,
        if_neg fun h => hlabel h.1]
  · rw [if_neg fun h => hit (mem_unlabeled.mp h).1]
    have hne : it ∈ before.manager.execDataMap (before.manager.calls it).fid →
        (before.manager.calls it).fid ≠ fid := by
      intro hmem heq
      exact hit (heq ▸ hmem)
    by_cases hmem : it ∈ before.manager.execDataMap (before.manager.calls it).fid
    · simp only [List.mem_append, List.mem_singleton, hne hmem, or_false]
    · simp only [hmem, and_false, if_false]

end ADExecDataInterface

end Chimbuko
