import Chimbuko.AD.ADEventBalance

/-!
# Sweeps keep the balance

A sweep over the call list lifts the locks of labeled calls, deletes what nothing protects, and
locks the completed calls that are not labeled. Whatever it finds on its way, it succeeds and
keeps the reference counts those of the outstanding protections, if each lock is lifted for the
calls that it was set up for.
-/

namespace Chimbuko

open KeyedMap TransitionSystem

namespace ADEvent

variable {m m' : ADEvent} {shape : List CallRef → Prop} {own : CallRef → ℕ} {thr : Thread}
  {it : CallRef}

/-- The condition on the sweep at one call: it can lift the call's lock, or lock it. -/
def SweepOK (m : ADEvent) (shape : List CallRef → Prop) (it : CallRef) : Prop :=
  ((m.calls it).label ≠ 0 →
    ∀ p ∈ m.stackLockedUnlabeled.lookup (m.calls it).id, m.LiftOK p) ∧
  ((m.calls it).label = 0 ∧ (m.calls it).exit ≠ 0 ∧
    m.stackLockedUnlabeled.lookup (m.calls it).id = none → m.ProtectOK shape it)

instance [DecidablePred shape] (m : ADEvent) (it : CallRef) : Decidable (m.SweepOK shape it) :=
  inferInstanceAs (Decidable (_ ∧ _))

/-- Erasing a call takes it off the list, and no other. -/
theorem mem_eraseCall (h : m.ListValid) (hit : it ∈ m.callList thr) {thr' : Thread}
    {x : CallRef} :
    x ∈ (m.eraseCall thr it).callList thr' ↔ x ∈ m.callList thr' ∧ x ≠ it := by
  change x ∈ Function.update m.callList thr ((m.callList thr).erase it) thr' ↔ _
  by_cases hthr : thr' = thr
  · subst hthr
    rw [Function.update_self, (h.nodup _).mem_erase_iff]
    exact and_comm
  · rw [Function.update_of_ne hthr]
    refine ⟨fun hx => ⟨hx, ?_⟩, fun hx => hx.1⟩
    rintro rfl
    exact hthr ((h.thread_eq thr' _ hx).symm.trans (h.thread_eq thr _ hit))

/-- The list stays valid. -/
theorem ListValid.eraseCall (h : m.ListValid) (hit : it ∈ m.callList thr) :
    (m.eraseCall thr it).ListValid := by
  refine ⟨fun k x => ?_, fun thr' x hx => ?_, fun thr' => ?_⟩
  · rw [mem_eraseCall h hit]
    change Function.update m.callIDMap (m.calls it).id none k = some x ↔
      (x ∈ m.callList (m.calls x).thread ∧ x ≠ it) ∧ (m.calls x).id = k
    by_cases hk : k = (m.calls it).id
    · subst hk
      rw [Function.update_self]
      refine iff_of_false (fun hnone => nomatch hnone) ?_
      rintro ⟨⟨hx, hne⟩, hid⟩
      have hfind := h.find_of_mem hx
      rw [hid, h.find_of_mem hit] at hfind
      exact hne (Option.some.inj hfind).symm
    · rw [Function.update_of_ne hk, h.find_iff]
      refine ⟨fun ⟨hx, hid⟩ => ⟨⟨hx, ?_⟩, hid⟩, fun ⟨⟨hx, _⟩, hid⟩ => ⟨hx, hid⟩⟩
      rintro rfl
      exact hk hid.symm
  · exact h.thread_eq thr' x ((mem_eraseCall h hit).mp hx).1
  · change (Function.update m.callList thr ((m.callList thr).erase it) thr').Nodup
    by_cases hthr : thr' = thr
    · subst hthr
      rw [Function.update_self]
      exact (h.nodup _).erase it
    · rw [Function.update_of_ne hthr]
      exact h.nodup thr'

/-- A completed call without references can be deleted. -/
theorem Tracked.eraseCall (h : m.Tracked shape own) (hit : it ∈ m.callList thr)
    (hrefs : (m.calls it).references = 0) (hexit : (m.calls it).exit ≠ 0) :
    (m.eraseCall thr it).Tracked shape own := by
  have hfind := h.listed.list.find_of_mem hit
  refine ⟨⟨h.listed.list.eraseCall hit, ?_, fun thr' x hx => ?_⟩, ?_, h.locked_id⟩
  · exact h.listed.stacksValid.congr rfl rfl
  · obtain ⟨hmem, hopen⟩ := h.listed.open_listed thr' x hx
    refine ⟨(mem_eraseCall h.listed.list hit).mpr ⟨hmem, ?_⟩, hopen⟩
    rintro rfl
    exact hexit hopen
  · exact h.store.erase hfind hrefs

/-- A lock is lifted if it has to be. -/
theorem Tracked.unlockLabeled (h : m.Tracked shape own) (hit : it ∈ m.callList thr)
    (hok : m.SweepOK shape it) :
    ∃ m', m.unlockLabeled it = .ok m' ∧ m'.Tracked shape own ∧ m'.forgetRefs = m.forgetRefs ∧
      ((m.calls it).label = 0 → m' = m) := by
  rw [ADEvent.unlockLabeled]
  by_cases hlabel : (m.calls it).label = 0
  · rw [if_neg fun hlocked => hlocked.1 hlabel]
    exact ⟨m, rfl, h, rfl, fun _ => rfl⟩
  cases hlookup : m.stackLockedUnlabeled.lookup (m.calls it).id with
  | none =>
    rw [if_neg fun hlocked => by simp at hlocked]
    exact ⟨m, rfl, h, rfl, fun _ => rfl⟩
  | some p =>
    have hstart : p.start = it := by
      have hfind := (h.store.pins_fit p
        (List.mem_append_right _ (mem_values.mpr ⟨_, hlookup⟩))).find_start
      change m.callIDMap (m.calls p.start).id = some p.start at hfind
      rw [h.locked_id _ p hlookup, h.listed.list.find_of_mem hit] at hfind
      exact (Option.some.inj hfind).symm
    obtain ⟨m', hlift, hm'⟩ := h.unlock hlookup (hok.1 hlabel p hlookup)
    rw [hstart] at hlift
    rw [if_pos ⟨hlabel, rfl⟩, hlift]
    exact ⟨_, rfl, hm', (forgetRefs_stackLocked m' _).trans (forgetRefs_stackUnProtectGC hlift),
      fun hzero => absurd hzero hlabel⟩

/-- A call is deleted, locked or left. Other calls stay in the list. -/
theorem Tracked.deleteOrLock (h : m.Tracked shape own) (hit : it ∈ m.callList thr)
    (hok : (m.calls it).label = 0 ∧ (m.calls it).exit ≠ 0 ∧
      m.stackLockedUnlabeled.lookup (m.calls it).id = none → m.ProtectOK shape it)
    (report : PurgeReport) :
    (m.deleteOrLock report thr it).1.Tracked shape own ∧
      ∀ thr', ∀ x ∈ m.callList thr', x ≠ it →
        x ∈ (m.deleteOrLock report thr it).1.callList thr' := by
  rw [ADEvent.deleteOrLock]
  split
  · rename_i hdelete
    have hrefs : (m.calls it).references = 0 := by
      have hcan := hdelete.1
      rw [ExecData.canDelete, decide_eq_true_eq] at hcan
      exact hcan.1
    exact ⟨h.eraseCall hit hrefs hdelete.2,
      fun thr' x hx hne => (mem_eraseCall h.listed.list hit).mpr ⟨hx, hne⟩⟩
  split
  · exact ⟨h, fun _ _ hx _ => hx⟩
  split
  · rename_i hexit hlock
    have hlookup := Option.isNone_iff_eq_none.mp hlock.2
    refine ⟨h.lockUnlabeled (h.listed.list.find_of_mem hit) (hok ⟨hlock.1, hexit, hlookup⟩)
      hlookup, fun thr' x hx _ => ?_⟩
    have hlist : (m.lockUnlabeled it).callList = m.callList :=
      (congrArg ADEvent.callList (forgetRefs_stackProtectGC m it) :)
    rw [hlist]
    exact hx
  · exact ⟨h, fun _ _ hx _ => hx⟩

/-- The sweep succeeds at a call of the list. Other calls stay in the list. -/
theorem Tracked.purgeCall (h : m.Tracked shape own) (hit : it ∈ m.callList thr)
    (hok : m.SweepOK shape it) (report : PurgeReport) :
    ∃ m' report', m.purgeCall report thr it = .ok (m', report') ∧ m'.Tracked shape own ∧
      ∀ thr', ∀ x ∈ m.callList thr', x ≠ it → x ∈ m'.callList thr' := by
  obtain ⟨m₁, hunlock, hm₁, hsame, hzero⟩ := h.unlockLabeled hit hok
  have hlist : m₁.callList = m.callList := (congrArg ADEvent.callList hsame :)
  have hlabel : (m₁.calls it).label = (m.calls it).label :=
    (congrArg (fun m : ADEvent => (m.calls it).label) hsame :)
  obtain ⟨hswept, hothers⟩ := hm₁.deleteOrLock (hlist ▸ hit) (fun hlock => by
    obtain rfl := hzero (hlabel.symm.trans hlock.1)
    exact hok.2 hlock) report
  rw [hlist] at hothers
  refine ⟨_, (m₁.deleteOrLock report thr it).2, ?_, hswept, hothers⟩
  rw [ADEvent.purgeCall, hunlock]
  rfl

section Loop

variable {visit : ADEvent → CallRef → Prop}

/-- A condition on each call that the sweep visits in the list of one thread, in the state in which
it does. -/
def ThreadOK (visit : ADEvent → CallRef → Prop) (nKeepThread : ℕ) (s : ADEvent × PurgeReport)
    (thr : Thread) : Prop :=
  LoopGuard (fun s it => s.1.purgeCall s.2 thr it) (fun s it => visit s.1 it)
    (s.1, { s.2 with nKeptWindow := s.2.nKeptWindow + nKeepThread })
    ((s.1.callList thr).take ((s.1.callList thr).length - nKeepThread))

instance [∀ m it, Decidable (visit m it)] (nKeepThread : ℕ) (s : ADEvent × PurgeReport)
    (thr : Thread) : Decidable (ThreadOK visit nKeepThread s thr) :=
  inferInstanceAs (Decidable (LoopGuard _ _ _ _))

/-- A condition on each call that a purge visits. -/
def PurgeOK (m : ADEvent) (visit : ADEvent → CallRef → Prop) (threads : List Thread)
    (nKeepThread : ℕ) : Prop :=
  LoopGuard (ADEvent.purgeThread nKeepThread) (ThreadOK visit nKeepThread) (m, {}) threads

instance [∀ m it, Decidable (visit m it)] (m : ADEvent) (threads : List Thread)
    (nKeepThread : ℕ) : Decidable (m.PurgeOK visit threads nKeepThread) :=
  inferInstanceAs (Decidable (LoopGuard _ _ _ _))

/-- At each call of the list that meets the condition the sweep succeeds, keeps an invariant, and
keeps the other calls in the list. -/
def SweepKeeps (visit : ADEvent → CallRef → Prop) (inv : ADEvent → Prop) : Prop :=
  ∀ {m : ADEvent} {thr : Thread} {it : CallRef}, inv m → it ∈ m.callList thr → visit m it →
    ∀ report, ∃ m' report', m.purgeCall report thr it = .ok (m', report') ∧ inv m' ∧
      ∀ thr', ∀ x ∈ m.callList thr', x ≠ it → x ∈ m'.callList thr'

variable {inv : ADEvent → Prop} (hlist : ∀ {m}, inv m → m.ListValid)
  (hkeeps : SweepKeeps visit inv)
include hlist hkeeps

/-- The list of a thread can be swept. -/
theorem purgeThread_ok {s : ADEvent × PurgeReport} (h : inv s.1) {nKeepThread : ℕ}
    (hok : ThreadOK visit nKeepThread s thr) :
    ∃ s', ADEvent.purgeThread nKeepThread s thr = .ok s' ∧ inv s'.1 := by
  rw [ADEvent.purgeThread]
  by_cases hkeep : (s.1.callList thr).length ≤ nKeepThread
  · simp only [if_pos hkeep]
    exact ⟨_, rfl, h⟩
  simp only [if_neg hkeep]
  -- the calls that are still to be swept are in the list
  have hstep : ∀ (it : CallRef) (rest : List CallRef) (s : ADEvent × PurgeReport),
      inv s.1 ∧ (it :: rest).Nodup ∧ (∀ x ∈ it :: rest, x ∈ s.1.callList thr) →
      visit s.1 it → ∃ s', s.1.purgeCall s.2 thr it = .ok s' ∧
        inv s'.1 ∧ rest.Nodup ∧ ∀ x ∈ rest, x ∈ s'.1.callList thr := by
    rintro it rest s ⟨hs, hnodup, hlisted⟩ hit
    obtain ⟨hfirst, hnodup⟩ := List.nodup_cons.mp hnodup
    obtain ⟨m', report', hrun, hm', hothers⟩ :=
      hkeeps hs (hlisted it List.mem_cons_self) hit s.2
    refine ⟨(m', report'), hrun, hm', hnodup, fun x hx => ?_⟩
    refine hothers thr x (hlisted x (List.mem_cons_of_mem _ hx)) ?_
    rintro rfl
    exact hfirst hx
  obtain ⟨s', hrun, hs', -⟩ := LoopGuard.foldlM_ok
    (P := fun rest s => inv s.1 ∧ rest.Nodup ∧ ∀ x ∈ rest, x ∈ s.1.callList thr)
    hstep ⟨h, ((hlist h).nodup thr).sublist (List.take_sublist _ _),
      fun x hx => List.mem_of_mem_take hx⟩ hok
  exact ⟨s', hrun, hs'⟩

/-- The call lists of all threads can be swept. -/
theorem sweepCallLists_ok (h : inv m) {threads : List Thread} {nKeepThread : ℕ}
    (hok : m.PurgeOK visit threads nKeepThread) :
    ∃ swept report, m.sweepCallLists threads nKeepThread = .ok (swept, report) ∧ inv swept := by
  have hstep : ∀ (thr : Thread) (_ : List Thread) (s : ADEvent × PurgeReport),
      inv s.1 → ThreadOK visit nKeepThread s thr →
      ∃ s', ADEvent.purgeThread nKeepThread s thr = .ok s' ∧ inv s'.1 :=
    fun _ _ _ hs hthr => purgeThread_ok hlist hkeeps hs hthr
  obtain ⟨s, hrun, hs⟩ := LoopGuard.foldlM_ok (P := fun _ s => inv s.1) hstep h hok
  exact ⟨s.1, s.2, hrun, hs⟩

/-- The call list can be purged. -/
theorem purgeCallList_ok (hclear : ∀ {m}, inv m → inv (clearUnlabeled m)) (h : inv m)
    {threads : List Thread} {nKeepThread : ℕ} (hok : m.PurgeOK visit threads nKeepThread) :
    ∃ m' report, m.purgeCallList threads nKeepThread = .ok (m', report) ∧ inv m' := by
  obtain ⟨swept, report, hsweep, hswept⟩ := sweepCallLists_ok hlist hkeeps h hok
  exact ⟨swept.clearUnlabeled, report, purgeCallList_of_sweep hsweep, hclear hswept⟩

end Loop

/-- Clearing the exec-data map concerns no references. -/
theorem Tracked.clearUnlabeled (h : m.Tracked shape own) : m.clearUnlabeled.Tracked shape own :=
  h.congr rfl rfl rfl rfl rfl (fun _ => rfl) (h.listed.stacksValid.congr rfl rfl)
    h.listed.open_listed

/-- The call list can be purged, which keeps the accounts. -/
theorem Tracked.purgeCallList (h : m.Tracked shape own) {threads : List Thread} {nKeepThread : ℕ}
    (hok : m.PurgeOK (fun m it => m.SweepOK shape it) threads nKeepThread) :
    ∃ m' report, m.purgeCallList threads nKeepThread = .ok (m', report) ∧
      m'.Tracked shape own :=
  purgeCallList_ok (fun hm => hm.listed.list)
    (fun hm hit hvisit report => hm.purgeCall hit hvisit report) (fun hm => hm.clearUnlabeled) h hok

end ADEvent

end Chimbuko
