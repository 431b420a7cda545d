import Chimbuko.AD.ADEventTrim

/-!
# What a purge removes and reports

A purge sweeps over the call lists of all threads, leaving out the latest calls of each. Seen as
one list of visits, it removes a call exactly if the call is completed, labeled and without
references when the sweep has reached it and lifted its lock. Every call is counted in one way in
the report.

Deleted calls may still be in the exec-data map when that is cleared of labeled calls, and what is
read as their labels is what happens to be in freed memory then. So the map is cleared correctly,
whatever is found there, exactly if the sweep deletes none of its calls.
-/

namespace Chimbuko

open TransitionSystem

namespace ADEvent

/-- The calls of all threads. -/
def getCallListSize (self : ADEvent) (threads : List Thread) : ℕ :=
  (threads.map fun thr => (self.callList thr).length).sum

/-- The threads are those of the map of call lists, each once. -/
structure ThreadsListed (m : ADEvent) (threads : List Thread) : Prop where
  nodup : threads.Nodup
  complete : ∀ thr, m.callList thr ≠ [] → thr ∈ threads

/-- All calls that a report accounts for. -/
def PurgeReport.total (report : PurgeReport) : ℕ :=
  report.nPurged + report.nKeptProtected + report.nKeptIncomplete + report.nKeptWindow +
    report.nKeptUnlabeled

/-- A call that has an exit time and a label, and nothing refers to. -/
def Removable (d : ExecData) : Prop := d.exit ≠ 0 ∧ d.label ≠ 0 ∧ d.references = 0

/-- The visits of a sweep to one thread, to all but the latest calls. -/
def threadOrder (self : ADEvent) (nKeepThread : ℕ) (thr : Thread) : List (Thread × CallRef) :=
  ((self.callList thr).take ((self.callList thr).length - nKeepThread)).map fun it => (thr, it)

/-- The visits of a sweep, thread by thread. -/
def sweepOrder (self : ADEvent) (threads : List Thread) (nKeepThread : ℕ) :
    List (Thread × CallRef) :=
  threads.flatMap (self.threadOrder nKeepThread)

/-- One visit, without the report. -/
def visit (self : ADEvent) (v : Thread × CallRef) : Except String ADEvent := do
  let (self, _) ← self.purgeCall {} v.1 v.2
  pure self

variable {m m' : ADEvent} {thr : Thread} {it : CallRef}

/-- The call list of a thread after a call is deleted. -/
def eraseFrom (m : ADEvent) (thr : Thread) (it : CallRef) : Thread → List CallRef :=
  Function.update m.callList thr ((m.callList thr).erase it)

/-- The report has no influence on what the sweep does. -/
theorem deleteOrLock_fst (m : ADEvent) (report : PurgeReport) (thr : Thread) (it : CallRef) :
    (m.deleteOrLock report thr it).1 = (m.deleteOrLock {} thr it).1 := by
  unfold deleteOrLock
  split
  · rfl
  split
  · rfl
  split
  · rfl
  · rfl

/-- What the sweep does to the call list and the report at one call. -/
theorem purgeCall_report {report report' : PurgeReport}
    (h : m.purgeCall report thr it = .ok (m', report')) :
    ∃ reached, m.unlockLabeled it = .ok reached ∧ m.visit (thr, it) = .ok m' ∧
      report'.total = report.total + 1 ∧
      (Removable (reached.calls it) ∧ m'.callList = m.eraseFrom thr it ∧
          report'.nPurged = report.nPurged + 1 ∨
        ¬ Removable (reached.calls it) ∧ m'.callList = m.callList ∧
          report'.nPurged = report.nPurged) := by
  obtain ⟨reached, hreached, hrest⟩ := bind_eq_ok h
  have hlist : reached.callList = m.callList := by
    rcases unlockLabeled_cases hreached with ⟨rfl, -⟩ | ⟨-, -, m₁, hun, rfl⟩
    · rfl
    · exact (congrArg ADEvent.callList (forgetRefs_stackUnProtectGC hun) :)
  have hresult : reached.deleteOrLock report thr it = (m', report') := Except.ok.inj hrest
  refine ⟨reached, hreached, ?_, ?_⟩
  · rw [visit, purgeCall, hreached]
    change Except.ok (reached.deleteOrLock {} thr it).1 = _
    rw [← deleteOrLock_fst reached report, hresult]
  · have hremovable : (reached.calls it).canDelete = true ∧ (reached.calls it).exit ≠ 0 ↔
        Removable (reached.calls it) := by
      rw [ExecData.canDelete, decide_eq_true_eq]
      unfold Removable
      tauto
    rw [deleteOrLock] at hresult
    split at hresult
    · rename_i hdelete
      cases hresult
      refine ⟨?_, Or.inl ⟨hremovable.mp hdelete, ?_, rfl⟩⟩
      · unfold PurgeReport.total
        dsimp only
        omega
      · unfold eraseCall eraseFrom
        rw [hlist]
    · rename_i hkeep
      have hnot : ¬ Removable (reached.calls it) := fun hcontra => hkeep (hremovable.mpr hcontra)
      split at hresult
      · cases hresult
        exact ⟨by unfold PurgeReport.total; dsimp only; omega, Or.inr ⟨hnot, hlist, rfl⟩⟩
      split at hresult
      · cases hresult
        refine ⟨by unfold PurgeReport.total; dsimp only; omega, Or.inr ⟨hnot, ?_, rfl⟩⟩
        exact (congrArg ADEvent.callList (forgetRefs_stackProtectGC reached it) :).trans hlist
      · cases hresult
        exact ⟨by unfold PurgeReport.total; dsimp only; omega, Or.inr ⟨hnot, hlist, rfl⟩⟩

/-- What a visit does to the call lists. -/
theorem visit_cases {v : Thread × CallRef} (h : m.visit v = .ok m') :
    ∃ reached, m.unlockLabeled v.2 = .ok reached ∧
      (Removable (reached.calls v.2) ∧ m'.callList = m.eraseFrom v.1 v.2 ∨
        ¬ Removable (reached.calls v.2) ∧ m'.callList = m.callList) := by
  obtain ⟨⟨next, report⟩, hcall, hrest⟩ := bind_eq_ok h
  cases hrest
  obtain ⟨reached, hreached, -, -, hcase⟩ := purgeCall_report hcall
  refine ⟨reached, hreached, ?_⟩
  rcases hcase with ⟨hremovable, hlist, -⟩ | ⟨hnot, hlist, -⟩
  · exact Or.inl ⟨hremovable, hlist⟩
  · exact Or.inr ⟨hnot, hlist⟩

/-- Erasing a call leaves some of the calls. -/
theorem eraseFrom_sublist (m : ADEvent) (thr : Thread) (it : CallRef) (thr' : Thread) :
    (m.eraseFrom thr it thr').Sublist (m.callList thr') := by
  unfold eraseFrom
  by_cases hthr : thr' = thr
  · rw [hthr, Function.update_self]
    exact List.erase_sublist
  · rw [Function.update_of_ne hthr]

/-- The other calls stay in their lists. -/
theorem mem_eraseFrom_of_ne {thr' : Thread} {y : CallRef} (hy : y ∈ m.callList thr')
    (hne : (thr', y) ≠ (thr, it)) : y ∈ m.eraseFrom thr it thr' := by
  unfold eraseFrom
  by_cases hthr : thr' = thr
  · subst hthr
    rw [Function.update_self]
    exact (List.mem_erase_of_ne fun heq => hne (by rw [heq])).mpr hy
  · rwa [Function.update_of_ne hthr]

/-- A sweep takes calls that it visits off the call lists, and no others. -/
theorem sweep_lists {visits : List (Thread × CallRef)} (h : visits.foldlM visit m = .ok m')
    (thr : Thread) : (m'.callList thr).Sublist (m.callList thr) ∧
      ∀ y ∈ m.callList thr, (thr, y) ∉ visits → y ∈ m'.callList thr := by
  induction visits generalizing m with
  | nil =>
    cases h
    exact ⟨List.Sublist.refl _, fun y hy _ => hy⟩
  | cons v rest ih =>
    rw [List.foldlM_cons] at h
    obtain ⟨next, hvisit, hrest⟩ := bind_eq_ok h
    obtain ⟨reached, -, hcase⟩ := visit_cases hvisit
    obtain ⟨hsub, hkeep⟩ := ih hrest
    have hnext : (next.callList thr).Sublist (m.callList thr) ∧
        ∀ y ∈ m.callList thr, (thr, y) ≠ v → y ∈ next.callList thr := by
      rcases hcase with ⟨-, hlist⟩ | ⟨-, hlist⟩
      · rw [hlist]
        exact ⟨eraseFrom_sublist m v.1 v.2 thr, fun y hy hne => mem_eraseFrom_of_ne hy hne⟩
      · rw [hlist]
        exact ⟨List.Sublist.refl _, fun y hy _ => hy⟩
    refine ⟨hsub.trans hnext.1, fun y hy hout => ?_⟩
    rw [List.mem_cons, not_or] at hout
    exact hkeep y (hnext.2 y hy hout.1) hout.2

/-- A sweep that visits a call once removes it exactly if it is removable when it is reached. -/
theorem sweep_removes {before after : List (Thread × CallRef)}
    (hnodup : (before ++ (thr, it) :: after).Nodup) (hlist : (m.callList thr).Nodup)
    (hit : it ∈ m.callList thr) (h : (before ++ (thr, it) :: after).foldlM visit m = .ok m') :
    ∃ start reached, before.foldlM visit m = .ok start ∧ start.unlockLabeled it = .ok reached ∧
      (it ∉ m'.callList thr ↔ Removable (reached.calls it)) := by
  rw [List.foldlM_append] at h
  obtain ⟨start, hstart, hrest⟩ := bind_eq_ok h
  rw [List.foldlM_cons] at hrest
  obtain ⟨next, hvisit, hafter⟩ := bind_eq_ok hrest
  obtain ⟨reached, hreached, hcase⟩ := visit_cases hvisit
  refine ⟨start, reached, hstart, hreached, ?_⟩
  obtain ⟨hbeforeSub, hbeforeKeep⟩ := sweep_lists hstart thr
  obtain ⟨hafterSub, hafterKeep⟩ := sweep_lists hafter thr
  have hout : (thr, it) ∉ before ∧ (thr, it) ∉ after := by
    rw [List.nodup_append, List.nodup_cons] at hnodup
    exact ⟨fun hmem => hnodup.2.2 _ hmem _ List.mem_cons_self rfl, hnodup.2.1.1⟩
  have hlisted := hbeforeKeep it hit hout.1
  rcases hcase with ⟨hremovable, hnext⟩ | ⟨hnot, hnext⟩
  · refine iff_of_true (fun hmem => ?_) hremovable
    have hmem' := hafterSub.subset hmem
    rw [hnext, eraseFrom, Function.update_self] at hmem'
    exact (List.Nodup.mem_erase_iff (hlist.sublist hbeforeSub)).mp hmem' |>.1 rfl
  · refine iff_of_false (fun hmem => hmem ?_) hnot
    apply hafterKeep it _ hout.2
    rw [hnext]
    exact hlisted

/-- The report of the sweep over calls of one thread. -/
theorem purgeCalls_report {its : List CallRef} {s s' : ADEvent × PurgeReport}
    (h : purgeCalls thr its s = .ok s') (hnodup : its.Nodup)
    (hlisted : ∀ x ∈ its, x ∈ s.1.callList thr) :
    (its.map fun it => (thr, it)).foldlM visit s.1 = .ok s'.1 ∧
      s'.2.total = s.2.total + its.length ∧
      s'.2.nPurged + (s'.1.callList thr).length = s.2.nPurged + (s.1.callList thr).length ∧
      ∀ thr', thr' ≠ thr → s'.1.callList thr' = s.1.callList thr' := by
  induction its generalizing s with
  | nil =>
    cases h
    exact ⟨rfl, rfl, rfl, fun _ _ => rfl⟩
  | cons it rest ih =>
    unfold purgeCalls at h ih
    rw [List.foldlM_cons] at h
    obtain ⟨next, hcall, hrest⟩ := bind_eq_ok h
    obtain ⟨reached, -, hvisit, htotal, hcase⟩ := purgeCall_report hcall
    have hit := hlisted it List.mem_cons_self
    rw [List.nodup_cons] at hnodup
    have hnext : (∀ x ∈ rest, x ∈ next.1.callList thr) ∧
        next.2.nPurged + (next.1.callList thr).length =
          s.2.nPurged + (s.1.callList thr).length ∧
        ∀ thr', thr' ≠ thr → next.1.callList thr' = s.1.callList thr' := by
      rcases hcase with ⟨-, hlist, hpurged⟩ | ⟨-, hlist, hpurged⟩
      · rw [hlist, hpurged]
        refine ⟨fun x hx => ?_, ?_, fun thr' hthr => ?_⟩
        · apply mem_eraseFrom_of_ne (hlisted x (List.mem_cons_of_mem _ hx))
          intro heq
          have hsame : x = it := congrArg Prod.snd heq
          rw [hsame] at hx
          exact hnodup.1 hx
        · have hlength := List.length_erase_of_mem hit
          have hpos := List.length_pos_of_mem hit
          unfold eraseFrom
          rw [Function.update_self, hlength]
          omega
        · unfold eraseFrom
          rw [Function.update_of_ne hthr]
      · rw [hlist, hpurged]
        exact ⟨fun x hx => hlisted x (List.mem_cons_of_mem _ hx), rfl, fun _ _ => rfl⟩
    obtain ⟨hsweep, hrestTotal, hrestPurged, hothers⟩ := ih hrest hnodup.2 hnext.1
    refine ⟨?_, ?_, hrestPurged.trans hnext.2.1, fun thr' hthr => ?_⟩
    · rw [List.map_cons, List.foldlM_cons, hvisit]
      exact hsweep
    · rw [hrestTotal, htotal, List.length_cons]
      omega
    · rw [hothers thr' hthr, hnext.2.2 thr' hthr]

/-- The report of the sweep over one thread. -/
theorem purgeThread_report {nKeepThread : ℕ} {s s' : ADEvent × PurgeReport}
    (h : purgeThread nKeepThread s thr = .ok s') (hnodup : (s.1.callList thr).Nodup) :
    (s.1.threadOrder nKeepThread thr).foldlM visit s.1 = .ok s'.1 ∧
      s'.2.total = s.2.total + (s.1.callList thr).length ∧
      s'.2.nPurged + (s'.1.callList thr).length = s.2.nPurged + (s.1.callList thr).length ∧
      ∀ thr', thr' ≠ thr → s'.1.callList thr' = s.1.callList thr' := by
  unfold threadOrder
  rw [purgeThread] at h
  split at h
  · rename_i hkeep
    cases h
    rw [Nat.sub_eq_zero_of_le hkeep, List.take_zero]
    refine ⟨rfl, ?_, rfl, fun _ _ => rfl⟩
    unfold PurgeReport.total
    dsimp only
    omega
  · rename_i hkeep
    obtain ⟨hsweep, htotal, hpurged, hothers⟩ := purgeCalls_report h
      (hnodup.sublist (List.take_sublist _ _)) fun x hx => List.mem_of_mem_take hx
    refine ⟨hsweep, ?_, hpurged, hothers⟩
    rw [htotal, List.length_take]
    unfold PurgeReport.total
    dsimp only
    omega

/-- The report of the sweep over all threads. -/
theorem purgeThreads_report {nKeepThread : ℕ} {threads : List Thread} (hthreads : threads.Nodup)
    {s s' : ADEvent × PurgeReport} (h : threads.foldlM (purgeThread nKeepThread) s = .ok s')
    (hnodup : ∀ thr ∈ threads, (s.1.callList thr).Nodup) :
    (threads.flatMap (s.1.threadOrder nKeepThread)).foldlM visit s.1 = .ok s'.1 ∧
      s'.2.total = s.2.total + s.1.getCallListSize threads ∧
      s'.2.nPurged + s'.1.getCallListSize threads = s.2.nPurged + s.1.getCallListSize threads ∧
      ∀ thr, thr ∉ threads → s'.1.callList thr = s.1.callList thr := by
  induction threads generalizing s with
  | nil =>
    cases h
    exact ⟨rfl, rfl, rfl, fun _ _ => rfl⟩
  | cons thr rest ih =>
    rw [List.foldlM_cons] at h
    obtain ⟨next, hthread, hrest⟩ := bind_eq_ok h
    obtain ⟨hfirst, hthreads⟩ := List.nodup_cons.mp hthreads
    obtain ⟨hsweep, htotal, hpurged, hothers⟩ :=
      purgeThread_report hthread (hnodup thr List.mem_cons_self)
    have hsame : ∀ thr' ∈ rest, next.1.callList thr' = s.1.callList thr' := by
      intro thr' hmem
      apply hothers
      rintro rfl
      exact hfirst hmem
    obtain ⟨hrestSweep, hrestTotal, hrestPurged, hrestOthers⟩ := ih hthreads hrest
      fun thr' hmem => by
        rw [hsame thr' hmem]
        exact hnodup thr' (List.mem_cons_of_mem _ hmem)
    have horder : rest.flatMap (next.1.threadOrder nKeepThread) =
        rest.flatMap (s.1.threadOrder nKeepThread) := by
      apply List.flatMap_congr
      intro thr' hmem
      unfold threadOrder
      rw [hsame thr' hmem]
    have hsize : next.1.getCallListSize rest = s.1.getCallListSize rest := by
      unfold getCallListSize
      congr 1
      apply List.map_congr_left
      intro thr' hmem
      rw [hsame thr' hmem]
    have hcons : ∀ m : ADEvent, m.getCallListSize (thr :: rest) =
        (m.callList thr).length + m.getCallListSize rest := fun m => by
      unfold getCallListSize
      rw [List.map_cons, List.sum_cons]
    refine ⟨?_, ?_, ?_, fun thr' hout => ?_⟩
    · rw [List.flatMap_cons, List.foldlM_append, hsweep, ← horder]
      exact hrestSweep
    · rw [hrestTotal, htotal, hsize, hcons]
      omega
    · have hlast := hrestOthers thr hfirst
      rw [hcons, hcons, hlast]
      omega
    · rw [List.mem_cons, not_or] at hout
      rw [hrestOthers thr' hout.2, hothers thr' hout.1]

/-- The visits of a sweep are all different. -/
theorem sweepOrder_nodup {threads : List Thread} (hthreads : threads.Nodup)
    (hlists : ∀ thr, (m.callList thr).Nodup) (nKeepThread : ℕ) :
    (m.sweepOrder threads nKeepThread).Nodup := by
  unfold sweepOrder
  rw [List.nodup_flatMap]
  constructor
  · intro thr _
    exact ((hlists thr).sublist (List.take_sublist _ _)).map (Prod.mk_right_injective thr)
  · apply hthreads.imp
    intro thr thr' hne v hv hv'
    obtain ⟨it, -, rfl⟩ := List.mem_map.mp hv
    obtain ⟨it', -, heq⟩ := List.mem_map.mp hv'
    exact hne (congrArg Prod.fst heq).symm

/-- A sweep visits the calls of each thread that are not in its window. -/
theorem mem_sweepOrder {threads : List Thread} {nKeepThread : ℕ} {v : Thread × CallRef} :
    v ∈ m.sweepOrder threads nKeepThread ↔ v.1 ∈ threads ∧
      v.2 ∈ (m.callList v.1).take ((m.callList v.1).length - nKeepThread) := by
  unfold sweepOrder
  rw [List.mem_flatMap]
  constructor
  · rintro ⟨thr, hthr, hv⟩
    obtain ⟨it, hit, rfl⟩ := List.mem_map.mp hv
    exact ⟨hthr, hit⟩
  · rintro ⟨hthr, hit⟩
    exact ⟨v.1, hthr, List.mem_map.mpr ⟨v.2, hit, rfl⟩⟩

/-- A part of a list without repetitions that has all of its end is a part of the beginning
followed by the end. -/
private theorem exists_append_of_sublist {α : Type} {l start rest : List α}
    (h : l.Sublist (start ++ rest)) (hnodup : (start ++ rest).Nodup) (hrest : ∀ x ∈ rest, x ∈ l) :
    ∃ kept, kept.Sublist start ∧ l = kept ++ rest := by
  obtain ⟨kept, last, rfl, hkept, hlast⟩ := List.sublist_append_iff.mp h
  rw [List.nodup_append] at hnodup
  have hsubset : rest ⊆ last := by
    intro x hx
    cases List.mem_append.mp (hrest x hx) with
    | inl hmem => exact absurd rfl (hnodup.2.2 x (hkept.subset hmem) x hx)
    | inr hmem => exact hmem
  have hlength := (List.subperm_of_subset hnodup.2.1 hsubset).length_le
  exact ⟨kept, hkept, by rw [hlast.eq_of_length_le hlength]⟩

/-- No call is in the list of a thread twice. -/
def ListsNodup (m : ADEvent) : Prop :=
  ∀ thr, (m.callList thr).Nodup ∧ ∀ x ∈ m.callList thr, x < m.nextRef

/-- Lists that only lose calls still list them once. -/
theorem ListsNodup.of_sublist (h : m.ListsNodup)
    (hsub : ∀ thr, (m'.callList thr).Sublist (m.callList thr)) (hnext : m'.nextRef = m.nextRef) :
    m'.ListsNodup := by
  intro thr
  refine ⟨(h thr).1.sublist (hsub thr), fun x hx => ?_⟩
  rw [hnext]
  exact (h thr).2 x ((hsub thr).subset hx)

/-- Only the lists matter. -/
theorem ListsNodup.congr (h : m.ListsNodup) (hlist : m'.callList = m.callList)
    (hnext : m'.nextRef = m.nextRef) : m'.ListsNodup :=
  h.of_sublist (fun thr => by rw [hlist]) hnext

/-- A new call may be put on a list. -/
theorem ListsNodup.appended (h : m.ListsNodup) {d : ExecData} (happ : m.Appended m' d) :
    m'.ListsNodup := by
  intro thr'
  rw [happ.callList, happ.nextRef]
  by_cases hthr : thr' = d.thread
  · rw [hthr, Function.update_self]
    constructor
    · apply List.Nodup.append (h d.thread).1 (List.nodup_singleton _)
      intro x hx hx'
      have hlt := (h d.thread).2 x hx
      rw [List.mem_singleton.mp hx'] at hlt
      exact absurd hlt (lt_irrefl _)
    · intro x hx
      cases List.mem_append.mp hx with
      | inl hold => exact ((h d.thread).2 x hold).trans (Nat.lt_succ_self _)
      | inr hnew =>
        rw [List.mem_singleton.mp hnew]
        exact Nat.lt_succ_self _
  · rw [Function.update_of_ne hthr]
    exact ⟨(h thr').1, fun x hx => ((h thr').2 x hx).trans (Nat.lt_succ_self _)⟩

/-- Steps that only change indices keep calls listed once. -/
theorem ListsNodup.onlyIndices (h : m.ListsNodup) (hindices : m.OnlyIndices m') :
    m'.ListsNodup := by
  obtain ⟨entry, exit, send, recv, rfl⟩ := hindices
  exact h.congr rfl rfl

/-- References and partners do not matter. -/
theorem ListsNodup.of_forgetRefs (h : m.ListsNodup) (hsame : m'.forgetRefs = m.forgetRefs) :
    m'.ListsNodup :=
  h.congr (congrArg ADEvent.callList hsame :) (congrArg ADEvent.nextRef hsame :)

/-- Adding an event keeps calls listed once. -/
theorem ListsNodup.addEvent (h : m.ListsNodup) {ev : Event} {err : EventError}
    (hadd : m.addEvent ev = .ok (m', err)) : m'.ListsNodup := by
  rw [ADEvent.addEvent] at hadd
  split at hadd
  · rcases addFunc_cases hadd with ⟨-, -, hindices⟩ | ⟨-, -, self₁, funcName, hindices, rfl⟩ |
      ⟨-, self₁, funcName, it, stack, d, -, hindices, -, -, -, hmatch⟩
    · exact h.onlyIndices hindices
    · have hlists := h.onlyIndices hindices
      exact hlists.appended (appended_addEntry self₁ ev funcName)
    · have hended := (h.onlyIndices hindices).congr (endCall_fields self₁ ev it d stack).2.1
        (endCall_nextRef self₁ ev it d stack)
      exact hended.of_forgetRefs (forgetRefs_checkAndMatch hmatch)
  · rcases addComm_cases (Except.ok.inj hadd) with ⟨-, -, hindices⟩ | ⟨-, _, _, -, hindices, rfl⟩
    · exact h.onlyIndices hindices
    · exact (h.onlyIndices hindices).congr rfl rfl
  · rcases addCounter_cases (Except.ok.inj hadd) with ⟨-, -, rfl⟩ | ⟨-, _, -, rfl⟩
    · exact h
    · exact h.congr rfl rfl

/-- Adding a complete call keeps calls listed once. -/
theorem ListsNodup.addCall (h : m.ListsNodup) {exec : ExecData}
    (hadd : m.addCall exec = .ok m') : m'.ListsNodup :=
  (h.appended (appended_insertCall m exec)).of_forgetRefs (forgetRefs_checkAndMatch hadd)

/-- A sweep takes calls off the lists, whatever it reads afterwards. -/
theorem ListsNodup.purgeCallListReading (h : m.ListsNodup) {threads : List Thread}
    {nKeepThread : ℕ} {freed : CallRef → ℤ} {report : PurgeReport}
    (hpurge : m.purgeCallListReading freed threads nKeepThread = .ok (m', report)) :
    m'.ListsNodup := by
  obtain ⟨⟨swept, report'⟩, hsweep, hrest⟩ := bind_eq_ok hpurge
  cases hrest
  have hsub : ∀ thr, (swept.callList thr).Sublist (m.callList thr) := by
    refine sweepCallLists_invariant
      (P := fun m' => ∀ thr, (m'.callList thr).Sublist (m.callList thr))
      (fun {self self' _ _ thr' it} hself hcall thr => ?_) (fun thr => List.Sublist.refl _) hsweep
    obtain ⟨reached, -, -, -, hcase⟩ := purgeCall_report hcall
    rcases hcase with ⟨-, hlist, -⟩ | ⟨-, hlist, -⟩
    · rw [hlist]
      exact (eraseFrom_sublist self thr' it thr).trans (hself thr)
    · rw [hlist]
      exact hself thr
  obtain ⟨callIDMap, callList, hm⟩ := sweepCallLists_cases hsweep
  exact (h.of_sublist hsub (congrArg ADEvent.nextRef hm :)).congr rfl rfl

/-- Trimming takes calls off the lists and makes no new ones. -/
theorem trimCallLists_lists (m : ADEvent) (threads : List Thread) (nKeepThread : ℕ) :
    (∀ thr, ((m.trimCallLists threads nKeepThread).1.callList thr).Sublist (m.callList thr)) ∧
      (m.trimCallLists threads nKeepThread).1.nextRef = m.nextRef := by
  have hcalls : ∀ (thr : Thread) (its : List CallRef) (s : ADEvent × List ExecData),
      (∀ thr', ((its.foldl (trimCall thr) s).1.callList thr').Sublist (s.1.callList thr')) ∧
        (its.foldl (trimCall thr) s).1.nextRef = s.1.nextRef := by
    intro thr its
    induction its with
    | nil => exact fun s => ⟨fun _ => List.Sublist.refl _, rfl⟩
    | cons it rest ih =>
      intro s
      obtain ⟨hrest, hrestNext⟩ := ih (trimCall thr s it)
      have hfirst : (∀ thr', ((trimCall thr s it).1.callList thr').Sublist (s.1.callList thr')) ∧
          (trimCall thr s it).1.nextRef = s.1.nextRef := by
        unfold trimCall
        split
        · exact ⟨eraseFrom_sublist s.1 thr it, rfl⟩
        · exact ⟨fun _ => List.Sublist.refl _, rfl⟩
      exact ⟨fun thr' => (hrest thr').trans (hfirst.1 thr'), hrestNext.trans hfirst.2⟩
  have hthreads : ∀ (threads : List Thread) (s : ADEvent × List (Thread × List ExecData)),
      (∀ thr, ((threads.foldl (trimThread nKeepThread) s).1.callList thr).Sublist
        (s.1.callList thr)) ∧
      (threads.foldl (trimThread nKeepThread) s).1.nextRef = s.1.nextRef := by
    intro threads
    induction threads with
    | nil => exact fun s => ⟨fun _ => List.Sublist.refl _, rfl⟩
    | cons thr rest ih =>
      intro s
      obtain ⟨hrest, hrestNext⟩ := ih (trimThread nKeepThread s thr)
      have hfirst : (∀ thr', ((trimThread nKeepThread s thr).1.callList thr').Sublist
          (s.1.callList thr')) ∧ (trimThread nKeepThread s thr).1.nextRef = s.1.nextRef := by
        unfold trimThread
        dsimp only
        split
        · exact ⟨fun _ => List.Sublist.refl _, rfl⟩
        · exact hcalls thr _ (s.1, [])
      exact ⟨fun thr' => (hrest thr').trans (hfirst.1 thr'), hrestNext.trans hfirst.2⟩
  exact hthreads threads (m, [])

/-- Trimming keeps calls listed once. -/
theorem ListsNodup.trimCallList (h : m.ListsNodup) (freed : CallRef → ℤ) (threads : List Thread)
    (nKeepThread : ℕ) : (m.trimCallList freed threads nKeepThread).1.ListsNodup := by
  obtain ⟨hsub, hnext⟩ := trimCallLists_lists m threads nKeepThread
  exact (h.of_sublist hsub hnext).congr rfl rfl

/-- What a purge is to do. The latest calls of each thread are still there, and the others keep
their order. Of these others, exactly those are removed that are completed, labeled and without
references when the sweep has reached them and lifted their lock. The report counts what is
removed, and every call of the lists once. Of the exec-data map the unlabeled calls are left, in
their order. -/
structure PurgeAccounts (m : ADEvent) (threads : List Thread) (nKeepThread : ℕ) (m' : ADEvent)
    (report : PurgeReport) : Prop where
  window : ∀ thr, ∃ kept, kept.Sublist ((m.callList thr).take
      ((m.callList thr).length - nKeepThread)) ∧
    m'.callList thr = kept ++ (m.callList thr).drop ((m.callList thr).length - nKeepThread)
  visited : ∀ thr, ∀ it ∈ (m.callList thr).take ((m.callList thr).length - nKeepThread),
    (thr, it) ∈ m.sweepOrder threads nKeepThread
  removed : ∀ before thr it after,
    m.sweepOrder threads nKeepThread = before ++ (thr, it) :: after →
    ∃ start reached, before.foldlM visit m = .ok start ∧ start.unlockLabeled it = .ok reached ∧
      (it ∉ m'.callList thr ↔ (reached.calls it).exit ≠ 0 ∧ (reached.calls it).label ≠ 0 ∧
        (reached.calls it).references = 0)
  nPurged_eq : report.nPurged + m'.getCallListSize threads = m.getCallListSize threads
  total_eq : report.nPurged + report.nKeptProtected + report.nKeptIncomplete + report.nKeptWindow +
    report.nKeptUnlabeled = m.getCallListSize threads
  execData : ∀ fid, m'.execDataMap fid =
    (m.execDataMap fid).filter fun it => (m.calls it).label = 0

/-- Every call of the exec-data map is in the call list, and the sweep, when it has reached the
call and lifted its lock, does not delete it. -/
def SparesExecData (m : ADEvent) (threads : List Thread) (nKeepThread : ℕ) : Prop :=
  ∀ fid, ∀ it ∈ m.execDataMap fid, it ∈ m.callList (m.calls it).thread ∧
    ∀ before after, m.sweepOrder threads nKeepThread =
        before ++ ((m.calls it).thread, it) :: after →
      ∀ start reached, before.foldlM visit m = .ok start →
        start.unlockLabeled it = .ok reached → ¬Removable (reached.calls it)

end ADEvent

namespace TrimSystem

/-- In every state that can be reached no call is in the list of a thread twice. -/
theorem listsNodup_of_runs {s : EventSystem}
    (hrun : Runs (StepOf exec) (fun _ _ => True) EventSystem.start s) : s.manager.ListsNodup := by
  refine hrun.invariant (fun s => s.manager.ListsNodup)
    (fun thr => ⟨List.nodup_nil, fun x hx => absurd hx List.not_mem_nil⟩) fun s a t hs _ hstep => ?_
  cases a with
  | trimCallList threads nKeepThread freed =>
    cases hstep
    exact hs.trimCallList freed threads nKeepThread
  | event action freed =>
    cases action with
    | link funcMap eventType counterMap gpuThreadMap =>
      cases hstep
      exact hs.congr rfl rfl
    | ignoreCorrelationIDsForFunction func =>
      cases hstep
      exact hs.congr rfl rfl
    | addEvent ev =>
      obtain ⟨⟨manager, err⟩, hadd, hrest⟩ := bind_eq_ok hstep
      cases hrest
      exact hs.addEvent hadd
    | addCall exec =>
      obtain ⟨manager, hadd, hrest⟩ := bind_eq_ok hstep
      cases hrest
      exact hs.addCall hadd
    | setLabel it label =>
      cases hstep
      exact hs.congr rfl rfl
    | purgeCallList threads nKeepThread =>
      obtain ⟨⟨manager, report⟩, hpurge, hrest⟩ := bind_eq_ok hstep
      cases hrest
      exact hs.purgeCallListReading hpurge

section Sweep

variable {s : EventSystem} (hrun : Runs (StepOf exec) (fun _ _ => True) EventSystem.start s)
  {threads : List Thread} (hthreads : s.manager.ThreadsListed threads) {nKeepThread : ℕ}
  {swept : ADEvent} {report : ADEvent.PurgeReport}
  (h : s.manager.sweepCallLists threads nKeepThread = .ok (swept, report))
include hrun hthreads h

/-- A sweep removes exactly the calls that are removable when it reaches them. -/
theorem sweep_removes_visited {before after : List (Thread × CallRef)} {thr : Thread} {it : CallRef}
    (horder : s.manager.sweepOrder threads nKeepThread = before ++ (thr, it) :: after) :
    ∃ start reached, before.foldlM ADEvent.visit s.manager = .ok start ∧
      start.unlockLabeled it = .ok reached ∧
      (it ∉ swept.callList thr ↔ ADEvent.Removable (reached.calls it)) := by
  have hlists := listsNodup_of_runs hrun
  obtain ⟨hvisits, -⟩ :=
    ADEvent.purgeThreads_report hthreads.nodup h fun thr _ => (hlists thr).1
  have hvisited : (thr, it) ∈ s.manager.sweepOrder threads nKeepThread := by
    rw [horder]
    exact List.mem_append_right _ List.mem_cons_self
  have hnodup := ADEvent.sweepOrder_nodup hthreads.nodup (fun thr => (hlists thr).1) nKeepThread
  rw [horder] at hnodup
  have hit := List.mem_of_mem_take (ADEvent.mem_sweepOrder.mp hvisited).2
  have hrunOrder : (before ++ (thr, it) :: after).foldlM ADEvent.visit s.manager = .ok swept := by
    rw [← horder]
    exact hvisits
  exact ADEvent.sweep_removes hnodup (hlists thr).1 hit hrunOrder

/-- The sweep accounts for every call of the call lists. -/
theorem sweep_accounts {m' : ADEvent} (hlist : m'.callList = swept.callList)
    (hexec : ∀ fid, m'.execDataMap fid =
      (s.manager.execDataMap fid).filter fun it => (s.manager.calls it).label = 0) :
    s.manager.PurgeAccounts threads nKeepThread m' report := by
  have hlists := listsNodup_of_runs hrun
  obtain ⟨hvisits, htotal, hpurged, hothers⟩ :=
    ADEvent.purgeThreads_report hthreads.nodup h fun thr _ => (hlists thr).1
  have hsize : m'.getCallListSize threads = swept.getCallListSize threads := by
    unfold ADEvent.getCallListSize
    rw [hlist]
  refine ⟨fun thr => ?_, fun thr it hit => ?_, fun before thr it after horder => ?_, ?_, ?_, hexec⟩
  · obtain ⟨hsub, hkeep⟩ := ADEvent.sweep_lists hvisits thr
    have hsplit := List.take_append_drop ((s.manager.callList thr).length - nKeepThread)
      (s.manager.callList thr)
    rw [hlist]
    apply ADEvent.exists_append_of_sublist
    · rw [hsplit]
      exact hsub
    · rw [hsplit]
      exact (hlists thr).1
    · intro it hit
      apply hkeep it (List.mem_of_mem_drop hit)
      intro hvisited
      have htake := (ADEvent.mem_sweepOrder.mp hvisited).2
      have hnodup := (hlists thr).1
      rw [← hsplit, List.nodup_append] at hnodup
      exact hnodup.2.2 it htake it hit rfl
  · refine ADEvent.mem_sweepOrder.mpr ⟨hthreads.complete thr ?_, hit⟩
    exact List.ne_nil_of_mem (List.mem_of_mem_take hit)
  · rw [hlist]
    exact sweep_removes_visited hrun hthreads h horder
  · rw [hsize]
    exact hpurged.trans (Nat.zero_add _)
  · exact htotal.trans (Nat.zero_add _)

/-- The calls of the exec-data map are in the call list after the sweep exactly if they were
before and the sweep does not delete them. -/
theorem sparesExecData_iff : s.manager.SparesExecData threads nKeepThread ↔
    ∀ fid, ∀ it ∈ s.manager.execDataMap fid,
      it ∈ swept.callList (s.manager.calls it).thread := by
  have hlists := listsNodup_of_runs hrun
  obtain ⟨hvisits, -⟩ :=
    ADEvent.purgeThreads_report hthreads.nodup h fun thr _ => (hlists thr).1
  refine ⟨fun hspares fid it hit => ?_, fun hkept fid it hit => ⟨?_, ?_⟩⟩
  · obtain ⟨hlisted, hspared⟩ := hspares fid it hit
    by_cases hvisited : ((s.manager.calls it).thread, it) ∈
        s.manager.sweepOrder threads nKeepThread
    · obtain ⟨before, after, horder⟩ := List.append_of_mem hvisited
      obtain ⟨start, reached, hstart, hreached, hremoved⟩ :=
        sweep_removes_visited hrun hthreads h horder
      by_contra hgone
      exact hspared before after horder start reached hstart hreached (hremoved.mp hgone)
    · exact (ADEvent.sweep_lists hvisits _).2 it hlisted hvisited
  · exact (ADEvent.sweep_lists hvisits _).1.subset (hkept fid it hit)
  · intro before after horder start reached hstart hreached hremovable
    obtain ⟨start', reached', hstart', hreached', hremoved⟩ :=
      sweep_removes_visited hrun hthreads h horder
    obtain rfl := Except.ok.inj (hstart.symm.trans hstart')
    obtain rfl := Except.ok.inj (hreached.symm.trans hreached')
    exact hremoved.mpr hremovable (hkept fid it hit)

end Sweep

/-- In every state that can be reached, a purge that returns does what it is to do, whatever is
read in the place of deleted calls, exactly if it deletes none of the calls of the exec-data map
and these are all in the call list. -/
theorem purgeCallList_accounts_iff {s : EventSystem}
    (hrun : Runs (StepOf exec) (fun _ _ => True) EventSystem.start s) {threads : List Thread}
    (hthreads : s.manager.ThreadsListed threads) {nKeepThread : ℕ}
    (hreturns : ∃ result, s.manager.purgeCallList threads nKeepThread = .ok result) :
    (∀ freed m' report,
        s.manager.purgeCallListReading freed threads nKeepThread = .ok (m', report) →
        s.manager.PurgeAccounts threads nKeepThread m' report) ↔
      s.manager.SparesExecData threads nKeepThread := by
  obtain ⟨result, hresult⟩ := hreturns
  obtain ⟨⟨swept, report⟩, hsweep, -⟩ := bind_eq_ok hresult
  obtain ⟨callIDMap, callList, hm⟩ := ADEvent.sweepCallLists_cases hsweep
  have hcall : ∀ it, (swept.calls it).thread = (s.manager.calls it).thread ∧
      (swept.calls it).label = (s.manager.calls it).label := fun it =>
    ⟨(congrArg (fun m : ADEvent => (m.calls it).thread) hm :),
      (congrArg (fun m : ADEvent => (m.calls it).label) hm :)⟩
  have hexec : swept.execDataMap = s.manager.execDataMap := (congrArg ADEvent.execDataMap hm :)
  rw [sparesExecData_iff hrun hthreads hsweep]
  constructor
  · intro haccounts fid it hit
    by_contra hgone
    -- what is read in the place of the call is the opposite of its label
    let wrong : CallRef → ℤ := fun x => if (s.manager.calls x).label = 0 then 1 else 0
    have hread : swept.readLabel wrong it = wrong it := by
      rw [ADEvent.readLabel, (hcall it).1, if_neg hgone]
    have hmap := (haccounts wrong _ report
      (ADEvent.purgeCallListReading_of_sweep hsweep wrong)).execData fid
    have hmem : it ∈ (swept.execDataMap fid).filter (fun x => swept.readLabel wrong x = 0) ↔
        it ∈ (s.manager.execDataMap fid).filter fun x => (s.manager.calls x).label = 0 := by
      rw [← hmap]
      rfl
    rw [hexec, List.mem_filter, List.mem_filter, decide_eq_true_eq, decide_eq_true_eq, hread,
      and_congr_right_iff] at hmem
    have hiff := hmem hit
    by_cases hlabel : (s.manager.calls it).label = 0
    · have hone : wrong it = 1 := if_pos hlabel
      rw [hone] at hiff
      exact absurd (hiff.mpr hlabel) one_ne_zero
    · exact hlabel (hiff.mp (if_neg hlabel))
  · intro hkept freed m' report' h
    rw [ADEvent.purgeCallListReading_of_sweep hsweep freed] at h
    cases h
    refine sweep_accounts hrun hthreads hsweep rfl fun fid => ?_
    change (swept.execDataMap fid).filter _ = _
    rw [hexec]
    apply List.filter_congr
    intro it hit
    rw [ADEvent.readLabel, (hcall it).1, (hcall it).2, if_pos (hkept fid it hit)]

open EventSystem

/-- A labeled call, which is cleared from the exec-data map, an unlabeled call and an open one. -/
def threeCalls : List TrimAction :=
  readingZero [linkGPU, funcAction 0 0 0 10 0, funcAction 0 1 0 20 1, .setLabel 0 1,
    .purgeCallList [⟨0, 0, 0⟩] 1, funcAction 0 0 0 30 2, funcAction 0 1 0 40 3,
    funcAction 0 0 0 50 4]

/-- A labeled call that is still in the exec-data map. -/
def labeledCall : List TrimAction :=
  readingZero [linkGPU, funcAction 0 0 0 10 0, funcAction 0 1 0 20 1, .setLabel 0 1]

/-- If all calls are of one thread, that thread is all that a purge has to sweep. -/
private theorem threadsListed_single {s : EventSystem}
    (hrun : Runs (StepOf exec) Accounted EventSystem.start s) {thr : Thread}
    (hthread : ∀ x < s.manager.nextRef, (s.manager.calls x).thread = thr) :
    s.manager.ThreadsListed [thr] := by
  refine ⟨List.nodup_singleton _, fun thr' hthr => ?_⟩
  obtain ⟨x, hx⟩ := List.exists_mem_of_ne_nil _ hthr
  obtain ⟨own, hclean⟩ := sound_of_runs hrun
  have hlt := (listsNodup_of_runs (hrun.mono fun _ _ _ => trivial) thr').2 x hx
  rw [← hclean.tracked.listed.list.thread_eq thr' x hx, hthread x hlt]
  exact List.mem_singleton_self _

/-- The labeled call, which the exec-data map does not have any more, is purged as it should be. -/
theorem purgeCallList_accounts_iff_threeCalls :
    ∃ s m' report, Runs (StepOf exec) (fun _ _ => True) EventSystem.start s ∧
      s.manager.purgeCallListReading (fun _ => 0) [⟨0, 0, 0⟩] 0 = .ok (m', report) ∧
      report.nPurged = 1 ∧ s.manager.PurgeAccounts [⟨0, 0, 0⟩] 0 m' report := by
  have hrun : ∃ s ∈ runAll exec Accounted EventSystem.start threeCalls,
      ∃ swept ∈ (s.manager.sweepCallLists [⟨0, 0, 0⟩] 0).toOption, swept.2.nPurged = 1 ∧
      (∀ x < s.manager.nextRef, (s.manager.calls x).thread = ⟨0, 0, 0⟩) ∧
      ∀ x < s.manager.nextRef, x ∈ s.manager.execDataMap (s.manager.calls x).fid →
        x ∈ swept.1.callList (s.manager.calls x).thread := by
    decide +kernel
  obtain ⟨s, hs, ⟨swept, report⟩, hswept, hpurged, hthread, hkept⟩ := hrun
  have hguarded := runs_of_runAll _ hs
  have hruns : Runs (StepOf exec) (fun _ _ => True) EventSystem.start s :=
    hguarded.mono fun _ _ _ => trivial
  have hthreads := threadsListed_single hguarded hthread
  have hsweep := eq_ok_of_mem_toOption hswept
  have hspares : s.manager.SparesExecData [⟨0, 0, 0⟩] 0 := by
    rw [sparesExecData_iff hruns hthreads hsweep]
    obtain ⟨own, hclean⟩ := sound_of_runs hguarded
    intro fid it hit
    refine hkept it (hclean.filed.lt fid it hit) ?_
    rw [hclean.filed.fid_eq fid it hit]
    exact hit
  have hreading := ADEvent.purgeCallListReading_of_sweep hsweep fun _ => 0
  exact ⟨s, _, report, hruns, hreading, hpurged,
    (purgeCallList_accounts_iff hruns hthreads ⟨_, ADEvent.purgeCallList_of_sweep hsweep⟩).mpr
      hspares _ _ report hreading⟩

/-- If 0 is read in the place of the labeled call, it stays in the exec-data map after it has been
deleted. -/
theorem not_purgeCallList_accounts_freed :
    ¬∀ s threads nKeepThread freed m' report,
      Runs (StepOf exec) (fun _ _ => True) EventSystem.start s →
      s.manager.ThreadsListed threads →
      s.manager.purgeCallListReading freed threads nKeepThread = .ok (m', report) →
      s.manager.PurgeAccounts threads nKeepThread m' report := by
  intro h
  have hrun : ∃ s ∈ runAll exec Accounted EventSystem.start labeledCall,
      ∃ result ∈ (s.manager.purgeCallListReading (fun _ => 0) [⟨0, 0, 0⟩] 0).toOption,
      result.1.execDataMap 0 = [0] ∧
      (s.manager.execDataMap 0).filter (fun it => (s.manager.calls it).label = 0) = [] ∧
      ∀ x < s.manager.nextRef, (s.manager.calls x).thread = ⟨0, 0, 0⟩ := by
    decide +kernel
  obtain ⟨s, hs, ⟨m', report⟩, hresult, hkept, hnone, hthread⟩ := hrun
  have hguarded := runs_of_runAll _ hs
  have haccounts := h s _ 0 _ m' report (hguarded.mono fun _ _ _ => trivial)
    (threadsListed_single hguarded hthread) (eq_ok_of_mem_toOption hresult)
  have hmap := haccounts.execData 0
  rw [hkept, hnone] at hmap
  cases hmap

end TrimSystem

end Chimbuko
