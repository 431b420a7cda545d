import Chimbuko.AD.ADEvent
import Chimbuko.Library.TransitionSystem

/-!
# Purging the call list

`ADEvent::purgeCallList` deletes the completed calls that are labeled and not referred to, thread
by thread, keeping a window of the latest calls. In the same sweep an unlabeled call is locked
together with its ancestors, and a lock is lifted once the call is labeled.

After the sweep the exec-data map is cleared of labeled calls. The source asks every call of the map
for its label then, also a call that the same sweep has deleted and whose list node is gone.
`purgeCallList` assumes that such a call still has the label that it had. `purgeCallListReading`
takes what is read in the place of deleted calls as an argument, and the two agree where no call of
the map has been deleted.
-/

namespace Chimbuko

open TransitionSystem

namespace ADEvent

/-- How many calls a purge has deleted, and how many it has kept for which reason. -/
structure PurgeReport where
  nPurged : ℕ := 0
  nKeptProtected : ℕ := 0
  nKeptIncomplete : ℕ := 0
  nKeptWindow : ℕ := 0
  nKeptUnlabeled : ℕ := 0
deriving DecidableEq

/-- Lift the lock of a call that was locked unlabeled and has been labeled since. -/
def unlockLabeled (self : ADEvent) (it : CallRef) : Except String ADEvent :=
  let id := (self.calls it).id
  if (self.calls it).label ≠ 0 ∧ (self.stackLockedUnlabeled.lookup id).isSome then do
    let self ← self.stackUnProtectGC it
    pure { self with stackLockedUnlabeled := self.stackLockedUnlabeled.erase id }
  else pure self

/-- Remove a call from the map of identifiers and from the call list. Its record stays readable
here, while the list node of the source is freed. -/
def eraseCall (self : ADEvent) (thr : Thread) (it : CallRef) : ADEvent :=
  { self with
    callIDMap := Function.update self.callIDMap (self.calls it).id none
    callList := Function.update self.callList thr ((self.callList thr).erase it) }

/-- Lock a call that is not labeled yet. -/
def lockUnlabeled (self : ADEvent) (it : CallRef) : ADEvent :=
  let (self, p) := self.stackProtectGC it
  { self with
    stackLockedUnlabeled := self.stackLockedUnlabeled.insert (self.calls it).id p }

/-- Delete one call, or keep it and lock it if it is not labeled. -/
def deleteOrLock (self : ADEvent) (report : PurgeReport) (thr : Thread) (it : CallRef) :
    ADEvent × PurgeReport :=
  if (self.calls it).canDelete ∧ (self.calls it).exit ≠ 0 then
    (self.eraseCall thr it, { report with nPurged := report.nPurged + 1 })
  else if (self.calls it).exit = 0 then
    (self, { report with nKeptIncomplete := report.nKeptIncomplete + 1 })
  else if (self.calls it).label = 0 ∧
      (self.stackLockedUnlabeled.lookup (self.calls it).id).isNone then
    (self.lockUnlabeled it, { report with nKeptUnlabeled := report.nKeptUnlabeled + 1 })
  else (self, { report with nKeptProtected := report.nKeptProtected + 1 })

/-- What the sweep does at one call. -/
def purgeCall (self : ADEvent) (report : PurgeReport) (thr : Thread) (it : CallRef) :
    Except String (ADEvent × PurgeReport) := do
  let self ← self.unlockLabeled it
  pure (self.deleteOrLock report thr it)

/-- Sweep over calls of one thread. -/
def purgeCalls (thr : Thread) (its : List CallRef) (s : ADEvent × PurgeReport) :
    Except String (ADEvent × PurgeReport) :=
  its.foldlM (fun s it => s.1.purgeCall s.2 thr it) s

/-- Purge the call list of one thread except for the latest calls. -/
def purgeThread (nKeepThread : ℕ) (s : ADEvent × PurgeReport) (thr : Thread) :
    Except String (ADEvent × PurgeReport) :=
  let (self, report) := s
  let cl := self.callList thr
  if cl.length ≤ nKeepThread then
    pure (self, { report with nKeptWindow := report.nKeptWindow + cl.length })
  else
    purgeCalls thr (cl.take (cl.length - nKeepThread))
      (self, { report with nKeptWindow := report.nKeptWindow + nKeepThread })

/-- The label that is read of a call: what is found in its place if it is no longer in the call
list. -/
def readLabel (self : ADEvent) (freed : CallRef → ℤ) (it : CallRef) : ℤ :=
  if it ∈ self.callList (self.calls it).thread then (self.calls it).label else freed it

/-- Keep the calls of every function that are read as unlabeled. -/
def clearUnlabeledReading (self : ADEvent) (freed : CallRef → ℤ) : ADEvent :=
  { self with execDataMap := fun fid =>
      (self.execDataMap fid).filter fun it => self.readLabel freed it = 0 }

/-- Keep the unlabeled calls of every function, if the label of a deleted call is read as it was
before. -/
def clearUnlabeled (self : ADEvent) : ADEvent :=
  { self with execDataMap := fun fid =>
      (self.execDataMap fid).filter fun it => (self.calls it).label = 0 }

/-- Sweep over the call lists of all threads. The threads are those with a call list, in the order
of a hash map. -/
def sweepCallLists (self : ADEvent) (threads : List Thread) (nKeepThread : ℕ) :
    Except String (ADEvent × PurgeReport) :=
  threads.foldlM (purgeThread nKeepThread) (self, {})

/-- Purge the completed calls, where something is read in the place of deleted calls. -/
def purgeCallListReading (self : ADEvent) (freed : CallRef → ℤ) (threads : List Thread)
    (nKeepThread : ℕ) : Except String (ADEvent × PurgeReport) := do
  let (self, report) ← self.sweepCallLists threads nKeepThread
  pure (self.clearUnlabeledReading freed, report)

/-- Purge the completed calls, if the labels of deleted calls are read as they were before. -/
def purgeCallList (self : ADEvent) (threads : List Thread) (nKeepThread : ℕ) :
    Except String (ADEvent × PurgeReport) := do
  let (self, report) ← self.sweepCallLists threads nKeepThread
  pure (self.clearUnlabeled, report)

/-- Where every call of the exec-data map is in the call list, nothing that is freed is read. -/
theorem clearUnlabeledReading_eq {self : ADEvent} (freed : CallRef → ℤ)
    (hlisted : ∀ fid, ∀ it ∈ self.execDataMap fid, it ∈ self.callList (self.calls it).thread) :
    self.clearUnlabeledReading freed = self.clearUnlabeled := by
  have hexec : ∀ fid, ((self.execDataMap fid).filter fun it => self.readLabel freed it = 0) =
      (self.execDataMap fid).filter fun it => (self.calls it).label = 0 := by
    intro fid
    apply List.filter_congr
    intro it hit
    rw [readLabel, if_pos (hlisted fid it hit)]
  unfold clearUnlabeledReading clearUnlabeled
  rw [funext hexec]

/-- A purge that reads freed memory is its sweep, and then clears the exec-data map. -/
theorem purgeCallListReading_of_sweep {self swept : ADEvent} {threads : List Thread}
    {nKeepThread : ℕ} {report : PurgeReport}
    (hsweep : self.sweepCallLists threads nKeepThread = .ok (swept, report))
    (freed : CallRef → ℤ) : self.purgeCallListReading freed threads nKeepThread =
      .ok (swept.clearUnlabeledReading freed, report) := by
  rw [purgeCallListReading, hsweep]
  rfl

/-- A purge is its sweep, and then clears the exec-data map. -/
theorem purgeCallList_of_sweep {self swept : ADEvent} {threads : List Thread} {nKeepThread : ℕ}
    {report : PurgeReport}
    (hsweep : self.sweepCallLists threads nKeepThread = .ok (swept, report)) :
    self.purgeCallList threads nKeepThread = .ok (swept.clearUnlabeled, report) := by
  rw [purgeCallList, hsweep]
  rfl

/-- A purge of call lists that are all within the window deletes nothing. -/
theorem purgeCallList_window {self : ADEvent} {threads : List Thread} {nKeepThread : ℕ}
    (h : ∀ thr ∈ threads, (self.callList thr).length ≤ nKeepThread) :
    ∃ report, self.purgeCallList threads nKeepThread = .ok (self.clearUnlabeled, report) := by
  have hsweep : ∀ report, ∃ report',
      threads.foldlM (purgeThread nKeepThread) (self, report) = .ok (self, report') := by
    induction threads with
    | nil => exact fun report => ⟨report, rfl⟩
    | cons thr rest ih =>
      intro report
      obtain ⟨report', hrest⟩ := ih (fun thr hthr => h thr (List.mem_cons_of_mem _ hthr))
        { report with nKeptWindow := report.nKeptWindow + (self.callList thr).length }
      refine ⟨report', ?_⟩
      rw [List.foldlM_cons, purgeThread, if_pos (h thr List.mem_cons_self)]
      exact hrest
  obtain ⟨report, hswept⟩ := hsweep {}
  exact ⟨report, purgeCallList_of_sweep hswept⟩

/-- What the sweep can do at one call: lift the lock of a labeled call, and then delete the call,
lock it if it is unlabeled, or leave it. -/
theorem purgeCall_cases {self self' : ADEvent} {report report' : PurgeReport} {thr : Thread}
    {it : CallRef} (h : self.purgeCall report thr it = .ok (self', report')) :
    ∃ self₁, self.unlockLabeled it = .ok self₁ ∧ (self' = self₁.eraseCall thr it ∧
        (self₁.calls it).canDelete = true ∧ (self₁.calls it).exit ≠ 0 ∨
      self' = self₁.lockUnlabeled it ∧ (self₁.calls it).label = 0 ∧ (self₁.calls it).exit ≠ 0 ∧
        self₁.stackLockedUnlabeled.lookup (self₁.calls it).id = none ∨
      self' = self₁) := by
  rw [purgeCall] at h
  cases hunlock : self.unlockLabeled it with
  | error e =>
    rw [hunlock] at h
    cases h
  | ok self₁ =>
    rw [hunlock] at h
    refine ⟨self₁, rfl, ?_⟩
    have h' := congrArg Prod.fst (Except.ok.inj h)
    change (self₁.deleteOrLock report thr it).1 = self' at h'
    rw [← h', deleteOrLock]
    split
    · rename_i hdelete
      exact Or.inl ⟨rfl, hdelete⟩
    split
    · exact Or.inr (Or.inr rfl)
    split
    · rename_i hexit hlock
      exact Or.inr (Or.inl ⟨rfl, hlock.1, hexit, Option.isNone_iff_eq_none.mp hlock.2⟩)
    · exact Or.inr (Or.inr rfl)

/-- A sweep keeps what it keeps at every call. -/
theorem sweepCallLists_invariant {P : ADEvent → Prop}
    (hcall : ∀ {self self' report report' thr it}, P self →
      purgeCall self report thr it = .ok (self', report') → P self')
    {self swept : ADEvent} {threads : List Thread} {nKeepThread : ℕ} {report : PurgeReport}
    (hself : P self) (h : self.sweepCallLists threads nKeepThread = .ok (swept, report)) :
    P swept := by
  have hthread : ∀ (s : ADEvent × PurgeReport) (thr : Thread) (t : ADEvent × PurgeReport),
      P s.1 → purgeThread nKeepThread s thr = .ok t → P t.1 := by
    intro s thr t hs ht
    rw [purgeThread] at ht
    split at ht
    · cases ht
      exact hs
    · exact foldlM_invariant (P := fun s => P s.1) (fun _ _ _ hs => hcall hs) _ hs ht
  exact foldlM_invariant (P := fun s => P s.1) hthread threads hself h

/-- A purge sweeps over calls, which keeps what every step of the sweep keeps, and then clears the
labeled calls from the exec-data map. -/
theorem purgeCallList_sweep {self self' : ADEvent} {threads : List Thread} {nKeepThread : ℕ}
    {report : PurgeReport} (h : self.purgeCallList threads nKeepThread = .ok (self', report)) :
    ∃ swept, self' = clearUnlabeled swept ∧ ∀ P : ADEvent → Prop,
      (∀ {self self' report report' thr it}, P self →
        purgeCall self report thr it = .ok (self', report') → P self') → P self → P swept := by
  obtain ⟨⟨swept, report'⟩, hsweep, hrest⟩ := bind_eq_ok h
  cases hrest
  exact ⟨swept, rfl, fun P hcall hself => sweepCallLists_invariant hcall hself hsweep⟩

/-- What every step of the sweep keeps, and clearing labeled calls from the exec-data map keeps,
the purge keeps. -/
theorem purgeCallList_invariant {P : ADEvent → Prop}
    (hcall : ∀ {self self' report report' thr it}, P self →
      purgeCall self report thr it = .ok (self', report') → P self')
    (hclear : ∀ {self}, P self → P (clearUnlabeled self))
    {self self' : ADEvent} {threads : List Thread} {nKeepThread : ℕ} {report : PurgeReport}
    (hself : P self) (h : self.purgeCallList threads nKeepThread = .ok (self', report)) :
    P self' := by
  obtain ⟨swept, rfl, hswept⟩ := purgeCallList_sweep h
  exact hclear (hswept P hcall hself)

end ADEvent

end Chimbuko
