import Chimbuko.AD.ADEventBalanceRuns

/-!
# No dangling references

`ADEvent::trimCallList` deletes what `purgeCallList` would delete, hands it out, and leaves the
locks alone. The call list is what the other containers of the event manager refer to. Open calls
are in it because they have no exit, and waiting and locked calls because they are protected, as
long as protections are lifted for the calls that they were set up for. The calls of the exec-data
map are in it if a call is deleted only after it has been cleared from the map. Otherwise its label
is read from freed memory, and it depends on what is found there whether it stays in the map.
-/

namespace Chimbuko

open KeyedMap TransitionSystem

namespace ADEvent

/-- Delete one call and keep a copy of it, or keep the call. -/
def trimCall (thr : Thread) (s : ADEvent × List ExecData) (it : CallRef) :
    ADEvent × List ExecData :=
  if (s.1.calls it).canDelete ∧ (s.1.calls it).exit ≠ 0 then
    (s.1.eraseCall thr it, s.2 ++ [s.1.calls it])
  else s

/-- Trim the call list of one thread except for the latest calls. -/
def trimThread (nKeepThread : ℕ) (s : ADEvent × List (Thread × List ExecData)) (thr : Thread) :
    ADEvent × List (Thread × List ExecData) :=
  let (self, cpListMap) := s
  let cl := self.callList thr
  if cl.length ≤ nKeepThread then s
  else
    let (self, cpList) := (cl.take (cl.length - nKeepThread)).foldl (trimCall thr) (self, [])
    (self, if cpList = [] then cpListMap else cpListMap ++ [(thr, cpList)])

/-- Trim the call lists of all threads. The threads are those with a call list, in the order of a
hash map. -/
def trimCallLists (self : ADEvent) (threads : List Thread) (nKeepThread : ℕ) :
    ADEvent × List (Thread × List ExecData) :=
  threads.foldl (trimThread nKeepThread) (self, [])

/-- Trim the completed calls, where something is read in the place of deleted calls. -/
def trimCallList (self : ADEvent) (freed : CallRef → ℤ) (threads : List Thread)
    (nKeepThread : ℕ) : ADEvent × List (Thread × List ExecData) :=
  let (self, cpListMap) := self.trimCallLists threads nKeepThread
  (self.clearUnlabeledReading freed, cpListMap)

variable {m m' : ADEvent} {shape : List CallRef → Prop} {own : CallRef → ℕ} {thr : Thread}
  {it : CallRef}

/-- A call that may be deleted has been labeled, and nothing refers to it. -/
theorem of_canDelete {d : ExecData} (h : d.canDelete = true) : d.references = 0 ∧ d.label ≠ 0 := by
  rw [ExecData.canDelete, decide_eq_true_eq] at h
  exact h

/-- A call is not deleted while the exec-data map has it. -/
def ClearedFirst (m : ADEvent) (it : CallRef) : Prop :=
  (m.calls it).canDelete = true → (m.calls it).exit ≠ 0 → it ∉ m.execDataMap (m.calls it).fid

instance (m : ADEvent) (it : CallRef) : Decidable (m.ClearedFirst it) :=
  inferInstanceAs (Decidable (_ → _ → _))

/-- The condition on trimming the list of one thread. -/
def TrimThreadOK (nKeepThread : ℕ) (s : ADEvent × List (Thread × List ExecData))
    (thr : Thread) : Prop :=
  FoldGuard (trimCall thr) (fun s it => s.1.ClearedFirst it) (s.1, [])
    ((s.1.callList thr).take ((s.1.callList thr).length - nKeepThread))

instance (nKeepThread : ℕ) (s : ADEvent × List (Thread × List ExecData)) (thr : Thread) :
    Decidable (TrimThreadOK nKeepThread s thr) :=
  inferInstanceAs (Decidable (FoldGuard _ _ _ _))

/-- The condition on trimming the call list: no call is deleted while the exec-data map has it. -/
def TrimOK (m : ADEvent) (threads : List Thread) (nKeepThread : ℕ) : Prop :=
  FoldGuard (trimThread nKeepThread) (TrimThreadOK nKeepThread) (m, []) threads

instance (m : ADEvent) (threads : List Thread) (nKeepThread : ℕ) :
    Decidable (m.TrimOK threads nKeepThread) :=
  inferInstanceAs (Decidable (FoldGuard _ _ _ _))

/-- What the trimming of one call keeps, trimming the call list keeps. The calls of a thread that
are still to be trimmed are in its list. -/
theorem trimCallLists_invariant {P : ADEvent → Prop} (hlist : ∀ {m}, P m → m.ListValid)
    (herase : ∀ {m thr it}, P m → it ∈ m.callList thr → m.ClearedFirst it →
      (m.calls it).canDelete = true → (m.calls it).exit ≠ 0 → P (m.eraseCall thr it))
    {threads : List Thread} {nKeepThread : ℕ} (hok : m.TrimOK threads nKeepThread) (hm : P m) :
    P (m.trimCallLists threads nKeepThread).1 := by
  have hcalls : ∀ (thr : Thread) (it : CallRef) (rest : List CallRef) (s : ADEvent × List ExecData),
      P s.1 ∧ (it :: rest).Nodup ∧ (∀ x ∈ it :: rest, x ∈ s.1.callList thr) →
      s.1.ClearedFirst it → P (trimCall thr s it).1 ∧ rest.Nodup ∧
        ∀ x ∈ rest, x ∈ (trimCall thr s it).1.callList thr := by
    rintro thr it rest s ⟨hs, hnodup, hlisted⟩ hcleared
    obtain ⟨hfirst, hnodup⟩ := List.nodup_cons.mp hnodup
    have hit := hlisted it List.mem_cons_self
    have hrest : ∀ x ∈ rest, x ∈ s.1.callList thr ∧ x ≠ it := fun x hx =>
      ⟨hlisted x (List.mem_cons_of_mem _ hx), fun heq => hfirst (heq ▸ hx)⟩
    rw [trimCall]
    split
    · rename_i hdelete
      exact ⟨herase hs hit hcleared hdelete.1 hdelete.2, hnodup, fun x hx =>
        (mem_eraseCall (hlist hs) hit).mpr (hrest x hx)⟩
    · exact ⟨hs, hnodup, fun x hx => (hrest x hx).1⟩
  have hthreads : ∀ (thr : Thread) (_ : List Thread) (s : ADEvent × List (Thread × List ExecData)),
      P s.1 → TrimThreadOK nKeepThread s thr → P (trimThread nKeepThread s thr).1 := by
    intro thr _ s hs hthr
    rw [trimThread]
    simp only
    split
    · exact hs
    · exact (FoldGuard.foldl
        (P := fun rest s => P s.1 ∧ rest.Nodup ∧ ∀ x ∈ rest, x ∈ s.1.callList thr) (hcalls thr)
        ⟨hs, ((hlist hs).nodup thr).sublist (List.take_sublist _ _),
          fun x hx => List.mem_of_mem_take hx⟩ hthr).1
  exact FoldGuard.foldl (P := fun _ s => P s.1) hthreads hm hok

/-- The calls of the exec-data map are in the call list. -/
def ExecListed (m : ADEvent) : Prop :=
  ∀ fid, ∀ x ∈ m.execDataMap fid, ∃ thr, x ∈ m.callList thr

/-- Calls that are in the list may enter the exec-data map. -/
theorem ExecListed.mono (h : m.ExecListed)
    (hlist : ∀ thr, ∀ x ∈ m.callList thr, x ∈ m'.callList thr)
    (hexec : ∀ fid, ∀ x ∈ m'.execDataMap fid, x ∈ m.execDataMap fid ∨ ∃ thr, x ∈ m'.callList thr) :
    m'.ExecListed := by
  intro fid x hx
  rcases hexec fid x hx with hold | hnew
  · obtain ⟨thr, hthr⟩ := h fid x hold
    exact ⟨thr, hlist thr x hthr⟩
  · exact hnew

/-- Only the lists and the exec-data map matter. -/
theorem ExecListed.congr (h : m.ExecListed) (hlist : m'.callList = m.callList)
    (hexec : m'.execDataMap = m.execDataMap) : m'.ExecListed := by
  unfold ExecListed
  rw [hlist, hexec]
  exact h

/-- A call enters the exec-data map when it ends, and is in the list then. -/
theorem ExecListed.endCall (h : m.ExecListed) (hlisted : m.Listed) {ev : Event}
    {stack : List CallRef} (hstack : m.callStack ev.thread = it :: stack) (d : ExecData) :
    (m.endCall ev it d stack).ExecListed := by
  obtain ⟨-, hlist, -, -⟩ := endCall_fields m ev it d stack
  refine h.mono (fun thr x hx => ?_) fun fid x hx => ?_
  · rw [hlist]
    exact hx
  · rw [endCall_execDataMap] at hx
    by_cases hfid : fid = ev.fid
    · subst hfid
      rw [Function.update_self] at hx
      rcases List.mem_append.mp hx with hold | hnew
      · exact Or.inl hold
      · obtain rfl := List.mem_singleton.mp hnew
        have htop : x ∈ m.callStack ev.thread := hstack ▸ List.mem_cons_self
        rw [hlist]
        exact Or.inr ⟨_, (hlisted.open_listed _ x htop).1⟩
    · rw [Function.update_of_ne hfid] at hx
      exact Or.inl hx

/-- A call that starts enters the list only. -/
theorem ExecListed.addEntry (h : m.ExecListed) (ev : Event) (funcName : String) :
    (m.addEntry ev funcName).ExecListed := by
  have hlist : (m.addEntry ev funcName).callList = Function.update m.callList ev.thread
    (m.callList ev.thread ++ [m.nextRef]) := (appended_addEntry m ev funcName).callList
  have hexec : (m.addEntry ev funcName).execDataMap = m.execDataMap := by
    rw [ADEvent.addEntry]
    cases m.callStack ev.thread <;> rfl
  refine h.mono (fun thr x hx => ?_) fun fid x hx => Or.inl (hexec ▸ hx)
  rw [hlist]
  by_cases hthr : thr = ev.thread
  · subst hthr
    rw [Function.update_self]
    exact List.mem_append_left _ hx
  · rwa [Function.update_of_ne hthr]

/-- Adding an event keeps the exec-data map in the list. -/
theorem ExecListed.addEvent (h : m.ExecListed) (hlisted : m.Listed) {ev : Event} {err : EventError}
    (hrun : m.addEvent ev = .ok (m', err)) : m'.ExecListed := by
  have hindices : ∀ {m₁ : ADEvent}, m.OnlyIndices m₁ → m₁.ExecListed ∧ m₁.Listed := by
    rintro _ ⟨entry, exit, send, recv, rfl⟩
    refine ⟨h.congr rfl rfl, ⟨⟨hlisted.list.find_iff, hlisted.list.thread_eq, hlisted.list.nodup⟩,
      hlisted.stacksValid.congr rfl rfl, hlisted.open_listed⟩⟩
  rw [ADEvent.addEvent] at hrun
  split at hrun
  · rcases addFunc_cases hrun with ⟨-, -, hsame⟩ | ⟨-, -, m₁, funcName, hsame, rfl⟩ |
      ⟨-, m₁, funcName, it, stack, d, -, hsame, -, hstack, hd, hmatch⟩
    · exact (hindices hsame).1
    · exact (hindices hsame).1.addEntry ev funcName
    · have hended := (hindices hsame).1.endCall (hindices hsame).2 hstack d
      have hforget := forgetRefs_checkAndMatch hmatch
      exact hended.congr (congrArg ADEvent.callList hforget :)
        (congrArg ADEvent.execDataMap hforget :)
  · rcases addComm_cases (Except.ok.inj hrun) with ⟨-, -, hsame⟩ | ⟨-, m₁, _, -, hsame, rfl⟩
    · exact (hindices hsame).1
    · exact (hindices hsame).1.congr rfl rfl
  · rcases addCounter_cases (Except.ok.inj hrun) with ⟨-, -, rfl⟩ | ⟨-, _, -, rfl⟩
    · exact h
    · exact h.congr rfl rfl

/-- A complete call enters both. -/
theorem ExecListed.addCall (h : m.ExecListed) {exec : ExecData} (hrun : m.addCall exec = .ok m') :
    m'.ExecListed := by
  rw [addCall_eq] at hrun
  have hforget := forgetRefs_checkAndMatch hrun
  have hlist : ∀ thr, (m.insertCall exec).callList thr =
      Function.update m.callList exec.thread (m.callList exec.thread ++ [m.nextRef]) thr :=
    fun thr => rfl
  have hexec : ∀ fid, (m.insertCall exec).execDataMap fid =
      Function.update m.execDataMap exec.fid (m.execDataMap exec.fid ++ [m.nextRef]) fid :=
    fun fid => rfl
  have hinserted : (m.insertCall exec).ExecListed := by
    refine h.mono (fun thr x hx => ?_) fun fid x hx => ?_
    · rw [hlist]
      by_cases hthr : thr = exec.thread
      · subst hthr
        rw [Function.update_self]
        exact List.mem_append_left _ hx
      · rwa [Function.update_of_ne hthr]
    · rw [hexec] at hx
      by_cases hfid : fid = exec.fid
      · subst hfid
        rw [Function.update_self] at hx
        refine (List.mem_append.mp hx).imp_right fun hnew => ⟨exec.thread, ?_⟩
        rw [hlist, Function.update_self]
        exact List.mem_append_right _ hnew
      · rw [Function.update_of_ne hfid] at hx
        exact Or.inl hx
  exact hinserted.congr (congrArg ADEvent.callList hforget :)
    (congrArg ADEvent.execDataMap hforget :)

/-- The calls of the exec-data map are filed under their functions. -/
structure ExecFiled (m : ADEvent) : Prop where
  lt : ∀ fid, ∀ x ∈ m.execDataMap fid, x < m.nextRef
  fid_eq : ∀ fid, ∀ x ∈ m.execDataMap fid, (m.calls x).fid = fid

/-- A smaller exec-data map is filed, too. -/
theorem ExecFiled.of_sublist (h : m.ExecFiled) (hnext : m'.nextRef = m.nextRef)
    (hfid : ∀ x, (m'.calls x).fid = (m.calls x).fid)
    (hexec : ∀ fid, (m'.execDataMap fid).Sublist (m.execDataMap fid)) : m'.ExecFiled := by
  refine ⟨fun fid x hx => ?_, fun fid x hx => ?_⟩
  · rw [hnext]
    exact h.lt fid x ((hexec fid).subset hx)
  · rw [hfid]
    exact h.fid_eq fid x ((hexec fid).subset hx)

/-- Calls enter the exec-data map under their functions when they end. -/
theorem ExecFiled.addEvent (h : m.ExecFiled) (hstacks : m.StacksValid) {ev : Event}
    {err : EventError} (hrun : m.addEvent ev = .ok (m', err)) : m'.ExecFiled := by
  have hextends := extends_addEvent hrun
  have hcases : ∀ fid, ∀ x ∈ m'.execDataMap fid,
      x ∈ m.execDataMap fid ∨ x < m'.nextRef ∧ (m'.calls x).fid = fid := by
    intro fid x hx
    obtain ⟨new, hmap, -, hnew⟩ := hextends.execData hstacks fid
    rw [hmap] at hx
    exact (List.mem_append.mp hx).imp_right fun hmem => ⟨(hnew x hmem).2.1.1, (hnew x hmem).2.2⟩
  refine ⟨fun fid x hx => ?_, fun fid x hx => ?_⟩
  · rcases hcases fid x hx with hold | hnew
    · exact (h.lt fid x hold).trans_le hextends.nextRef_le
    · exact hnew.1
  · rcases hcases fid x hx with hold | hnew
    · exact (congrArg Prod.snd (hextends.labelOf x (h.lt fid x hold))).trans (h.fid_eq fid x hold)
    · exact hnew.2

/-- A complete call enters under its function. -/
theorem ExecFiled.addCall (h : m.ExecFiled) {exec : ExecData} (hrun : m.addCall exec = .ok m') :
    m'.ExecFiled := by
  rw [addCall_eq] at hrun
  have hforget := forgetRefs_checkAndMatch hrun
  have hnext : m'.nextRef = m.nextRef + 1 := (congrArg ADEvent.nextRef hforget :)
  have hfid : ∀ x, (m'.calls x).fid = (Function.update m.calls m.nextRef exec x).fid := fun x =>
    (congrArg (fun m : ADEvent => (m.calls x).fid) hforget :)
  have hexec : m'.execDataMap =
      Function.update m.execDataMap exec.fid (m.execDataMap exec.fid ++ [m.nextRef]) :=
    (congrArg ADEvent.execDataMap hforget :)
  have hcases : ∀ fid, ∀ x ∈ m'.execDataMap fid,
      x ∈ m.execDataMap fid ∨ x = m.nextRef ∧ exec.fid = fid := by
    intro fid x hx
    rw [hexec] at hx
    by_cases heq : fid = exec.fid
    · subst heq
      rw [Function.update_self] at hx
      exact (List.mem_append.mp hx).imp_right fun hmem => ⟨List.mem_singleton.mp hmem, rfl⟩
    · rw [Function.update_of_ne heq] at hx
      exact Or.inl hx
  refine ⟨fun fid x hx => ?_, fun fid x hx => ?_⟩
  · rw [hnext]
    rcases hcases fid x hx with hold | ⟨rfl, -⟩
    · exact (h.lt fid x hold).trans (Nat.lt_succ_self _)
    · exact Nat.lt_succ_self _
  · rw [hfid]
    rcases hcases fid x hx with hold | ⟨rfl, hnew⟩
    · rw [Function.update_of_ne (Nat.ne_of_lt (h.lt fid x hold))]
      exact h.fid_eq fid x hold
    · rw [Function.update_self]
      exact hnew

/-- The condition on the sweep of a purge at one call: locks can be lifted and set up, and the call
is not deleted while the exec-data map has it. -/
def CleanOK (m : ADEvent) (it : CallRef) : Prop :=
  m.SweepOK (fun _ => True) it ∧ ∀ reached ∈ (m.unlockLabeled it).toOption, reached.ClearedFirst it

instance (m : ADEvent) (it : CallRef) : Decidable (m.CleanOK it) :=
  inferInstanceAs (Decidable (_ ∧ _))

/-- The references are accounted for, and the calls of the exec-data map are in the call list and
filed under their functions. -/
structure Clean (own : CallRef → ℕ) (m : ADEvent) : Prop where
  tracked : m.Tracked (fun _ => True) own
  listed : m.ExecListed
  filed : m.ExecFiled

/-- A call that may be deleted can be, if the exec-data map does not have it. -/
theorem Clean.eraseCall (h : m.Clean own) (hit : it ∈ m.callList thr)
    (hcleared : m.ClearedFirst it) (hdelete : (m.calls it).canDelete = true)
    (hexit : (m.calls it).exit ≠ 0) : (m.eraseCall thr it).Clean own := by
  refine ⟨h.tracked.eraseCall hit (of_canDelete hdelete).1 hexit, fun fid x hx => ?_,
    ⟨h.filed.lt, h.filed.fid_eq⟩⟩
  have hheld : x ∈ m.execDataMap fid := hx
  obtain ⟨thr', hthr⟩ := h.listed fid x hheld
  refine ⟨thr', (mem_eraseCall h.tracked.listed.list hit).mpr ⟨hthr, ?_⟩⟩
  rintro rfl
  exact hcleared hdelete hexit (h.filed.fid_eq fid x hheld ▸ hheld)

/-- References and locks concern neither lists nor maps. -/
theorem Clean.of_forgetRefs (h : m.Clean own) (hsame : m'.forgetRefs = m.forgetRefs)
    (htracked : m'.Tracked (fun _ => True) own) : m'.Clean own := by
  have hexec : m'.execDataMap = m.execDataMap := (congrArg ADEvent.execDataMap hsame :)
  refine ⟨htracked, h.listed.congr (congrArg ADEvent.callList hsame :) hexec,
    h.filed.of_sublist (congrArg ADEvent.nextRef hsame :)
      (fun x => (congrArg (fun m : ADEvent => (m.calls x).fid) hsame :)) fun fid => ?_⟩
  rw [hexec]

/-- The sweep succeeds at a call of the list. Other calls stay in the list. -/
theorem Clean.purgeCall (h : m.Clean own) (hit : it ∈ m.callList thr) (hok : m.CleanOK it)
    (report : PurgeReport) :
    ∃ m' report', m.purgeCall report thr it = .ok (m', report') ∧ m'.Clean own ∧
      ∀ thr', ∀ x ∈ m.callList thr', x ≠ it → x ∈ m'.callList thr' := by
  obtain ⟨m', report', hrun, htracked, hothers⟩ := h.tracked.purgeCall hit hok.1 report
  refine ⟨m', report', hrun, ?_, hothers⟩
  obtain ⟨m₁, hunlock, hcase⟩ := purgeCall_cases hrun
  obtain ⟨m₂, hunlock', htracked₁, hsame, -⟩ := h.tracked.unlockLabeled hit hok.1
  obtain rfl := Except.ok.inj (hunlock.symm.trans hunlock')
  have hclean₁ := h.of_forgetRefs hsame htracked₁
  rcases hcase with ⟨rfl, hdelete, hexit⟩ | ⟨rfl, -⟩ | rfl
  · have hlist : m₁.callList = m.callList := (congrArg ADEvent.callList hsame :)
    refine hclean₁.eraseCall (hlist ▸ hit) (hok.2 m₁ ?_) hdelete hexit
    rw [hunlock]
    rfl
  · exact hclean₁.of_forgetRefs (forgetRefs_stackProtectGC m₁ it) htracked
  · exact hclean₁

/-- As the calls of the exec-data map are all in the call list, only their own labels are read when
it is cleared. -/
theorem Clean.clearUnlabeledReading (h : m.Clean own) (freed : CallRef → ℤ) :
    (m.clearUnlabeledReading freed).Clean own := by
  have hread : m.clearUnlabeledReading freed = m.clearUnlabeled := by
    refine clearUnlabeledReading_eq freed fun fid x hx => ?_
    obtain ⟨thr, hthr⟩ := h.listed fid x hx
    rw [h.tracked.listed.list.thread_eq thr x hthr]
    exact hthr
  rw [hread]
  refine ⟨h.tracked.clearUnlabeled, fun fid x hx => ?_,
    h.filed.of_sublist rfl (fun _ => rfl) fun fid => List.filter_sublist⟩
  exact h.listed fid x (List.mem_of_mem_filter hx)

/-- The call list can be purged, whatever is read in the place of deleted calls. -/
theorem Clean.purgeCallListReading (h : m.Clean own) {threads : List Thread} {nKeepThread : ℕ}
    (hok : m.PurgeOK CleanOK threads nKeepThread) (freed : CallRef → ℤ) :
    ∃ m' report, m.purgeCallListReading freed threads nKeepThread = .ok (m', report) ∧
      m'.Clean own := by
  obtain ⟨swept, report, hsweep, hswept⟩ := sweepCallLists_ok (fun hm => hm.tracked.listed.list)
    (fun hm hit hvisit report => hm.purgeCall hit hvisit report) h hok
  exact ⟨_, report, purgeCallListReading_of_sweep hsweep freed, hswept.clearUnlabeledReading freed⟩

/-- The call list can be trimmed, whatever is read in the place of deleted calls. -/
theorem Clean.trimCallList (h : m.Clean own) {threads : List Thread} {nKeepThread : ℕ}
    (hok : m.TrimOK threads nKeepThread) (freed : CallRef → ℤ) :
    (m.trimCallList freed threads nKeepThread).1.Clean own := by
  have htrimmed := trimCallLists_invariant (fun hm => hm.tracked.listed.list)
    (fun hm hit hcleared hdelete hexit => hm.eraseCall hit hcleared hdelete hexit) hok h
  exact htrimmed.clearUnlabeledReading freed

/-- What the containers of the event manager refer to is in the call list, and the map of
identifiers has exactly the calls of the list. -/
structure NoDangling (m : ADEvent) : Prop where
  find_iff : ∀ id x, m.callIDMap id = some x ↔
    (∃ thr, x ∈ m.callList thr) ∧ (m.calls x).id = id
  open_listed : ∀ thr, ∀ x ∈ m.callStack thr, x ∈ m.callList thr
  waiting_listed : ∀ cid p, m.unmatchedCorrelationID.lookup cid = some p →
    ∃ thr, p.start ∈ m.callList thr
  execData_listed : m.ExecListed
  locked_listed : ∀ id p, m.stackLockedUnlabeled.lookup id = some p →
    ∃ thr, ∃ x ∈ m.callList thr, (m.calls x).id = id

/-- Protected calls are in the list. -/
theorem Tracked.start_listed {m : ADEvent} {shape : List CallRef → Prop} {own : CallRef → ℕ}
    (h : m.Tracked shape own) {p : Protection} (hp : p ∈ m.outstanding) :
    ∃ thr, p.start ∈ m.callList thr :=
  ⟨_, ((h.listed.list.find_iff _ _).mp (h.store.pins_fit p hp).find_start).1⟩

/-- If references are accounted for, nothing dangles. -/
theorem Tracked.noDangling {m : ADEvent} {shape : List CallRef → Prop} {own : CallRef → ℕ}
    (h : m.Tracked shape own) (hexec : m.ExecListed) : m.NoDangling := by
  refine ⟨fun id x => ?_, fun thr x hx => (h.listed.open_listed thr x hx).1,
    fun cid p hp => h.start_listed (List.mem_append_left _ (mem_values.mpr ⟨cid, hp⟩)), hexec,
    fun id p hp => ?_⟩
  · rw [h.listed.list.find_iff]
    refine ⟨fun ⟨hx, hid⟩ => ⟨⟨_, hx⟩, hid⟩, fun ⟨⟨thr, hx⟩, hid⟩ => ⟨?_, hid⟩⟩
    rw [h.listed.list.thread_eq thr x hx]
    exact hx
  · obtain ⟨thr, hthr⟩ := h.start_listed (List.mem_append_right _ (mem_values.mpr ⟨id, hp⟩))
    exact ⟨thr, p.start, hthr, h.locked_id id p hp⟩

end ADEvent

/-- An action of the event manager, or its call list is trimmed. `freed` is what is read in the
place of deleted calls. -/
inductive TrimAction
  | event (action : EventAction) (freed : CallRef → ℤ)
  | trimCallList (threads : List Thread) (nKeepThread : ℕ) (freed : CallRef → ℤ)

namespace TrimSystem

/-- What an action does. -/
def exec (s : EventSystem) : TrimAction → Except String EventSystem
  | .event (.purgeCallList threads nKeepThread) freed => do
    let (manager, _) ← s.manager.purgeCallListReading freed threads nKeepThread
    pure { s with manager := manager }
  | .event action _ => s.exec action
  | .trimCallList threads nKeepThread freed =>
    pure { s with manager := (s.manager.trimCallList freed threads nKeepThread).1 }

/-- Each function event and complete call has an identifier of its own. -/
def DistinctIDs (s : EventSystem) : TrimAction → Prop
  | .event action _ => s.DistinctIDs action
  | .trimCallList _ _ _ => True

/-- Calls start under new identifiers, protections are lifted for the calls that they were set up
for, and no call is deleted while the exec-data map has it. As for `EventSystem.Accounted`, complete
calls are added after their parents. -/
def Accounted (s : EventSystem) : TrimAction → Prop
  | .event (.purgeCallList threads nKeepThread) _ =>
    s.manager.PurgeOK ADEvent.CleanOK threads nKeepThread
  | .event action _ => EventSystem.Accounted (fun _ => True) (fun _ => True) s action
  | .trimCallList threads nKeepThread _ => s.manager.TrimOK threads nKeepThread

instance (s : EventSystem) (a : TrimAction) : Decidable (DistinctIDs s a) :=
  match a with
  | .event action _ => inferInstanceAs (Decidable (s.DistinctIDs action))
  | .trimCallList _ _ _ => isTrue trivial

instance (s : EventSystem) (a : TrimAction) : Decidable (Accounted s a) :=
  match a with
  | .event (.purgeCallList threads nKeepThread) _ =>
    inferInstanceAs (Decidable (s.manager.PurgeOK ADEvent.CleanOK threads nKeepThread))
  | .event (.link _ _ _ _) _ => isTrue trivial
  | .event (.ignoreCorrelationIDsForFunction _) _ => isTrue trivial
  | .event (.addEvent ev) _ => inferInstanceAs (Decidable
      (EventSystem.Accounted (fun _ => True) (fun _ => True) s (.addEvent ev)))
  | .event (.addCall exec) _ => inferInstanceAs (Decidable
      (EventSystem.Accounted (fun _ => True) (fun _ => True) s (.addCall exec)))
  | .event (.setLabel _ _) _ => isTrue trivial
  | .trimCallList threads nKeepThread _ =>
    inferInstanceAs (Decidable (s.manager.TrimOK threads nKeepThread))

/-- The references are accounted for, and the exec-data map is in the call list. -/
def Sound (s : EventSystem) : Prop := ∃ own, s.manager.Clean own

/-- A step that meets the condition succeeds and keeps the accounts. -/
theorem Sound.exec {s : EventSystem} (hs : Sound s) {a : TrimAction} (ha : Accounted s a) :
    ∃ t, exec s a = .ok t ∧ Sound t := by
  obtain ⟨own, hclean⟩ := hs
  -- apart from purges the event manager keeps the accounts as before
  have hevent : ∀ action, EventSystem.Accounted (fun _ => True) (fun _ => True) s action →
      ∃ t own, s.exec action = .ok t ∧ t.manager.Tracked (fun _ => True) own := by
    intro action haction
    have htracked : s.Tracked (fun _ => True) fun _ => True :=
      ⟨own, fun _ => trivial, hclean.tracked⟩
    obtain ⟨t, hrun, own', -, hown⟩ := htracked.exec trivial haction
    exact ⟨t, own', hrun, hown⟩
  cases a with
  | trimCallList threads nKeepThread freed =>
    exact ⟨_, rfl, own, hclean.trimCallList ha freed⟩
  | event action freed =>
  cases action with
  | purgeCallList threads nKeepThread =>
    obtain ⟨m', report, hrun, hm'⟩ := hclean.purgeCallListReading ha freed
    refine ⟨{ s with manager := m' }, ?_, own, hm'⟩
    rw [TrimSystem.exec, hrun]
    rfl
  | link funcMap eventType counterMap gpuThreadMap =>
    obtain ⟨t, own', hrun, htracked⟩ := hevent (.link funcMap eventType counterMap gpuThreadMap) ha
    cases hrun
    exact ⟨_, rfl, own', htracked, hclean.listed, ⟨hclean.filed.lt, hclean.filed.fid_eq⟩⟩
  | ignoreCorrelationIDsForFunction func =>
    obtain ⟨t, own', hrun, htracked⟩ := hevent (.ignoreCorrelationIDsForFunction func) ha
    cases hrun
    exact ⟨_, rfl, own', htracked, hclean.listed, ⟨hclean.filed.lt, hclean.filed.fid_eq⟩⟩
  | setLabel it label =>
    obtain ⟨t, own', hrun, htracked⟩ := hevent (.setLabel it label) ha
    cases hrun
    refine ⟨_, rfl, own', htracked, hclean.listed.congr rfl rfl,
      hclean.filed.of_sublist rfl (fun x => ?_) fun _ => List.Sublist.refl _⟩
    exact ADEvent.proj_modifyCall ExecData.fid s.manager
      (f := fun d => d.setLabel label) fun _ => rfl
  | addEvent ev =>
    obtain ⟨t, own', hrun, htracked⟩ := hevent (.addEvent ev) ha
    obtain ⟨⟨manager, err⟩, hadd, hrest⟩ := bind_eq_ok hrun
    cases hrest
    exact ⟨_, hrun, own', htracked, hclean.listed.addEvent hclean.tracked.listed hadd,
      hclean.filed.addEvent hclean.tracked.listed.stacksValid hadd⟩
  | addCall exec =>
    obtain ⟨t, own', hrun, htracked⟩ := hevent (.addCall exec) ha
    obtain ⟨manager, hadd, hrest⟩ := bind_eq_ok hrun
    cases hrest
    exact ⟨_, hrun, own', htracked, hclean.listed.addCall hadd, hclean.filed.addCall hadd⟩

/-- Runs whose steps meet the condition keep the accounts. -/
theorem sound_of_runs {s : EventSystem} (hrun : Runs (StepOf exec) Accounted EventSystem.start s) :
    Sound s := by
  refine hrun.invariant Sound ?_ fun s a t hs ha hstep => ?_
  · refine ⟨fun _ => 0, ADEvent.tracked_new _, fun fid x hx => ?_, ⟨fun fid x hx => ?_,
      fun fid x hx => ?_⟩⟩
    · cases hx
    · cases hx
    · cases hx
  · obtain ⟨t', hexec, ht'⟩ := hs.exec ha
    obtain rfl := Except.ok.inj (hexec.symm.trans hstep)
    exact ht'

/-- In every run in which calls start under new identifiers, protections are lifted for the calls
that they were set up for, and no call is deleted while the exec-data map has it, nothing refers to
a call that is not in the call list, and no step that meets the condition fails. -/
theorem no_dangling {s : EventSystem}
    (hrun : Runs (StepOf exec) Accounted EventSystem.start s) :
    s.manager.NoDangling ∧ ∀ a, Accounted s a → ∃ t, exec s a = .ok t := by
  have hs := sound_of_runs hrun
  refine ⟨?_, fun a ha => ?_⟩
  · obtain ⟨own, hclean⟩ := hs
    exact hclean.tracked.noDangling hclean.listed
  · obtain ⟨t, ht, -⟩ := hs.exec ha
    exact ⟨t, ht⟩

open EventSystem

/-- Events, labels and purges, where 0 is read in the place of deleted calls. -/
def readingZero (actions : List EventAction) : List TrimAction :=
  actions.map fun action => .event action fun _ => 0

/-- A launcher waits for its kernel. Both are labeled. A purge that keeps a window clears them from
the exec-data map, and then the kernel is trimmed. -/
def trimmedKernel : List TrimAction :=
  readingZero [linkGPU, funcAction 0 0 0 10 0, correlationAction 0 7 11 1,
    correlationAction 0 8 11 2, funcAction 0 1 0 12 3, funcAction 6 0 1 20 4,
    correlationAction 6 7 21 5, funcAction 6 1 1 22 6, .setLabel 0 1, .setLabel 1 1,
    .purgeCallList [⟨0, 0, 0⟩, ⟨0, 0, 6⟩] 1] ++
  [.trimCallList [⟨0, 0, 0⟩, ⟨0, 0, 6⟩] 0 fun _ => 0]

/-- The launcher, which waits for another kernel, is kept. -/
theorem no_dangling_trimmedKernel :
    ∃ s, runAll exec Accounted EventSystem.start trimmedKernel = some s ∧
      (s.manager.callList ⟨0, 0, 0⟩, s.manager.callList ⟨0, 0, 6⟩) = ([0], []) ∧
      s.manager.NoDangling := by
  have hrun : ∃ s ∈ runAll exec Accounted EventSystem.start trimmedKernel,
      (s.manager.callList ⟨0, 0, 0⟩, s.manager.callList ⟨0, 0, 6⟩) = ([0], []) := by
    decide +kernel
  obtain ⟨s, hs, hlists⟩ := hrun
  exact ⟨s, hs, hlists, (no_dangling (runs_of_runAll _ hs)).1⟩

/-- A kernel ends before its launcher, which also waits for another kernel. Both are labeled,
cleared from the exec-data map by a purge that keeps a window, and purged, and the other kernel
starts. -/
def purgedLauncher : List TrimAction :=
  readingZero [linkGPU, funcAction 0 0 0 10 0, funcAction 6 0 1 11 1, correlationAction 6 7 12 2,
    funcAction 6 1 1 13 3, correlationAction 0 8 14 4, correlationAction 0 7 15 5,
    funcAction 0 1 0 16 6, .setLabel 0 1, .setLabel 1 1,
    .purgeCallList [⟨0, 0, 0⟩, ⟨0, 0, 6⟩] 1, .purgeCallList [⟨0, 0, 0⟩, ⟨0, 0, 6⟩] 0,
    funcAction 6 0 1 20 7, correlationAction 6 8 21 8]

/-- Unprotecting the kernel takes the launcher's own reference. The launcher is purged while it
waits, and the other kernel cannot be matched. -/
theorem not_no_dangling_purgedLauncher :
    ∃ s, Runs (StepOf exec) DistinctIDs EventSystem.start s ∧ ¬s.manager.NoDangling ∧
      ∃ a, DistinctIDs s a ∧
        exec s a = .error "Correlation ID partner event is not in the call list!" := by
  have hrun : ∃ s ∈ runAll exec DistinctIDs EventSystem.start purgedLauncher,
      (s.manager.unmatchedCorrelationID.lookup 8).map (fun p => s.manager.callIDMap
        (s.manager.calls p.start).id) = some none ∧
      DistinctIDs s (.event (funcAction 6 1 1 22 9) fun _ => 0) ∧
        (match exec s (.event (funcAction 6 1 1 22 9) fun _ => 0) with
          | .ok _ => none
          | .error e => some e) =
          some "Correlation ID partner event is not in the call list!" := by
    decide +kernel
  obtain ⟨s, hs, hwaiting, hid, herror⟩ := hrun
  refine ⟨s, runs_of_runAll _ hs, fun hvalid => ?_, _, hid, ?_⟩
  · obtain ⟨p, hp, hnone⟩ := Option.map_eq_some_iff.mp hwaiting
    have hfind := (hvalid.find_iff _ p.start).mpr ⟨hvalid.waiting_listed 8 p hp, rfl⟩
    rw [hnone] at hfind
    cases hfind
  · cases hexec : exec s (.event (funcAction 6 1 1 22 9) fun _ => 0) with
    | ok t =>
      rw [hexec] at herror
      cases herror
    | error e =>
      rw [hexec] at herror
      cases herror
      rfl

end TrimSystem

end Chimbuko
