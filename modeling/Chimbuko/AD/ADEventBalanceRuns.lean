import Chimbuko.AD.ADEventSweep

/-!
# Runs with balanced reference counts

Along every run in which identifiers are new and protections are lifted for the calls that they
were set up for, the reference counts of the calls are those of the outstanding protections, and
no step fails. A kernel that is matched after its launcher has ended breaks the condition: it had
no partner when it was protected.
-/

namespace Chimbuko

open TransitionSystem

namespace ADEvent

variable {m : ADEvent}

/-- In a new event manager there is nothing to count. -/
theorem tracked_new (shape : List CallRef → Prop) : ADEvent.new.Tracked shape 0 := by
  refine ⟨⟨⟨fun k x => ?_, fun thr x hx => ?_, fun thr => List.nodup_nil⟩,
    ⟨fun thr x hx => ?_, fun thr => List.nodup_nil, fun thr thr' x hx => ?_⟩,
    fun thr x hx => ?_⟩, ?_, fun id p hp => ?_⟩
  · exact iff_of_false (fun h => nomatch h) fun h => nomatch h.1
  · nomatch hx
  · nomatch hx
  · nomatch hx
  · nomatch hx
  · exact ⟨fun k x hx => (nomatch hx), fun x hx => (nomatch hx), fun x hx => (nomatch hx),
      fun x y hy => (nomatch hy), fun p hp => (nomatch hp), fun x hx => (nomatch hx)⟩
  · nomatch hp

/-- A protection covers the call itself, its ancestors in the call list, and the stack of its GPU
partner. -/
def CoversStack (m : ADEvent) (p : Protection) : Prop :=
  p.covers = p.start :: (m.parentLine (m.calls p.start).parent ++
    (p.partner.map m.parentLine).getD [])

/-- The call of a protection can be unprotected, which takes one reference from each call that the
protection counted, and none from others. -/
def LiftsExactly (m : ADEvent) (p : Protection) : Prop :=
  ∃ m', m.stackUnProtectGC p.start = .ok m' ∧
    ∀ x, (m'.calls x).references + (if x ∈ p.covers then 1 else 0) = (m.calls x).references

/-- The reference counts balance: each call is counted once for each outstanding protection that
covers it, and lifting a protection, of a labeled call or of one that has just got its partner,
takes back exactly what it counted. -/
structure ReferencesBalance (m : ADEvent) : Prop where
  covers_stack : ∀ p ∈ m.outstanding, m.CoversStack p
  references_eq : ∀ thr, ∀ x ∈ m.callList thr,
    (m.calls x).references = m.outstanding.countP fun p => x ∈ p.covers
  unprotected : ∀ thr, ∀ x ∈ m.callList thr, (∀ p ∈ m.outstanding, x ∉ p.covers) →
    (m.calls x).references = 0
  lifts : ∀ p ∈ m.outstanding, m.LiftOK p → m.LiftsExactly p
  lifts_matched : ∀ p ∈ m.outstanding, ∀ it, (m.setPartners it p.start).LiftOK p →
    (m.setPartners it p.start).LiftsExactly p

/-- A protection that covers no call twice is lifted exactly. -/
theorem Tracked.liftsExactly {own : CallRef → ℕ} (h : m.Tracked List.Nodup own) {p : Protection}
    (hp : p ∈ m.outstanding) (hok : m.LiftOK p) : m.LiftsExactly p := by
  obtain ⟨-, hlift, -⟩ := h.lift (List.perm_cons_erase hp) hok
  refine ⟨_, hlift, fun x => ?_⟩
  have hle := h.store.count_le hp x
  have hnodup := (h.store.pins_fit p hp).shape_covers
  change p.covers.count x ≤ (m.calls x).references at hle
  rw [withRefs_references]
  split
  · rename_i hx
    rw [List.count_eq_one_of_mem hnodup hx] at hle ⊢
    omega
  · rename_i hx
    rw [List.count_eq_zero_of_not_mem hx]
    omega

/-- If protections cover no call twice and calls come without references, the counts balance. -/
theorem Tracked.referencesBalance (h : m.Tracked List.Nodup 0) : m.ReferencesBalance := by
  have hcount : ∀ thr, ∀ x ∈ m.callList thr,
      (m.calls x).references = m.outstanding.countP fun p => x ∈ p.covers := by
    intro thr x hx
    have hlt := (h.store.find_lt _ x (h.listed.list.find_of_mem hx)).1
    have heq := h.store.refs_eq x hlt
    rw [PinStore.pinned_eq_countP fun p hp => (h.store.pins_fit p hp).shape_covers] at heq
    exact heq.trans (Nat.zero_add _)
  refine ⟨fun p hp => (h.store.pins_fit p hp).covers_eq, hcount, fun thr x hx hnone => ?_,
    fun p hp => h.liftsExactly hp, fun p hp it => ?_⟩
  · rw [hcount thr x hx, List.countP_eq_zero]
    simpa using hnone
  · exact (h.setPartners it p.start).liftsExactly hp

end ADEvent

namespace EventSystem

/-- Each function event and complete call has an identifier of its own. -/
def DistinctIDs (s : EventSystem) : EventAction → Prop
  | .addEvent ev => ev.type = .FUNC → ev.id ∉ s.ids ∧ ev.id ≠ EventID.root
  | .addCall exec => exec.id ∉ s.ids ∧ exec.id ≠ EventID.root
  | _ => True

instance (s : EventSystem) (a : EventAction) : Decidable (s.DistinctIDs a) :=
  match a with
  | .link _ _ _ _ => isTrue trivial
  | .ignoreCorrelationIDsForFunction _ => isTrue trivial
  | .addEvent _ => inferInstanceAs (Decidable (_ → _))
  | .addCall _ => inferInstanceAs (Decidable (_ ∧ _))
  | .setLabel _ _ => isTrue trivial
  | .purgeCallList _ _ => isTrue trivial

/-- The condition on a step: calls start under new identifiers, and protections are lifted for the
calls that they were set up for. What protections cover, and the references that a complete call
comes with, may be restricted. A fresh identifier is not the parent of an earlier call either, which
leaves out the runs in which a complete call is added before its parent, although most of them keep
their counts. -/
def Accounted (shape : List CallRef → Prop) (refs : ℕ → Prop) (s : EventSystem) :
    EventAction → Prop
  | .addEvent ev => s.manager.AddEventOK shape ev
  | .addCall exec => refs exec.references ∧ s.manager.AddCallOK shape exec
  | .purgeCallList threads nKeepThread =>
    s.manager.PurgeOK (fun m it => m.SweepOK shape it) threads nKeepThread
  | _ => True

instance (shape : List CallRef → Prop) (refs : ℕ → Prop) [DecidablePred shape]
    [DecidablePred refs] (s : EventSystem) (a : EventAction) :
    Decidable (Accounted shape refs s a) :=
  match a with
  | .link _ _ _ _ => isTrue trivial
  | .ignoreCorrelationIDsForFunction _ => isTrue trivial
  | .addEvent ev => inferInstanceAs (Decidable (s.manager.AddEventOK shape ev))
  | .addCall exec => inferInstanceAs (Decidable (refs exec.references ∧ _))
  | .setLabel _ _ => isTrue trivial
  | .purgeCallList threads nKeepThread =>
    inferInstanceAs
      (Decidable (s.manager.PurgeOK (fun m it => m.SweepOK shape it) threads nKeepThread))

variable {shape : List CallRef → Prop} {refs : ℕ → Prop}

/-- The reference counts are accounted for. -/
def Tracked (shape : List CallRef → Prop) (refs : ℕ → Prop) (s : EventSystem) : Prop :=
  ∃ own : CallRef → ℕ, (∀ x, refs (own x)) ∧ s.manager.Tracked shape own

/-- At the start nothing is tracked. -/
theorem tracked_start (hzero : refs 0) : start.Tracked shape refs :=
  ⟨0, fun _ => hzero, ADEvent.tracked_new shape⟩

/-- A step that meets the condition succeeds and keeps the accounts. -/
theorem Tracked.exec {s : EventSystem} (hs : s.Tracked shape refs) (hzero : refs 0)
    {a : EventAction} (ha : Accounted shape refs s a) :
    ∃ t, s.exec a = .ok t ∧ t.Tracked shape refs := by
  obtain ⟨own, hrefs, htracked⟩ := hs
  have hsame : ∀ m' : ADEvent, m'.nextRef = s.manager.nextRef →
      m'.callIDMap = s.manager.callIDMap → m'.callList = s.manager.callList →
      m'.callStack = s.manager.callStack →
      m'.unmatchedCorrelationID = s.manager.unmatchedCorrelationID →
      m'.stackLockedUnlabeled = s.manager.stackLockedUnlabeled →
      (∀ x, (m'.calls x).tracked = (s.manager.calls x).tracked ∧
        (m'.calls x).exit = (s.manager.calls x).exit) → m'.Tracked shape own := by
    intro m' hnext hfind hlist hstack hunmatched hlocked hcalls
    refine htracked.congr hnext hfind hlist hunmatched hlocked (fun x => (hcalls x).1)
      (htracked.listed.stacksValid.congr hstack hnext) fun thr x hx => ?_
    rw [hstack] at hx
    rw [(hcalls x).2]
    exact htracked.listed.open_listed thr x hx
  cases a with
  | link funcMap eventType counterMap gpuThreadMap =>
    exact ⟨_, rfl, own, hrefs, hsame _ rfl rfl rfl rfl rfl rfl fun _ => ⟨rfl, rfl⟩⟩
  | ignoreCorrelationIDsForFunction func =>
    exact ⟨_, rfl, own, hrefs, hsame _ rfl rfl rfl rfl rfl rfl fun _ => ⟨rfl, rfl⟩⟩
  | addEvent ev =>
    obtain ⟨m', err, own', hrun, hm', hown⟩ := htracked.addEvent ha
    rw [EventSystem.exec, hrun]
    refine ⟨_, rfl, own', fun x => ?_, hm'⟩
    rcases hown x with hx | hx
    · exact hx ▸ hrefs x
    · exact hx ▸ hzero
  | addCall exec =>
    obtain ⟨m', hrun, hm'⟩ := htracked.addCall ha.2
    rw [EventSystem.exec, hrun]
    refine ⟨_, rfl, _, fun x => ?_, hm'⟩
    by_cases hx : x = s.manager.nextRef
    · rw [hx, Function.update_self]
      exact ha.1
    · rw [Function.update_of_ne hx]
      exact hrefs x
  | setLabel it label =>
    have hproj : ∀ {β : Type} (g : ExecData → β), (∀ d, g (ExecData.setLabel d label) = g d) →
        ∀ x, g ((s.manager.modifyCall it fun d => d.setLabel label).calls x) =
          g (s.manager.calls x) := fun g hg x =>
      ADEvent.proj_modifyCall g s.manager fun _ => hg (s.manager.calls it)
    exact ⟨_, rfl, own, hrefs, hsame _ rfl rfl rfl rfl rfl rfl fun x =>
      ⟨hproj ExecData.tracked (fun _ => rfl) x, hproj ExecData.exit (fun _ => rfl) x⟩⟩
  | purgeCallList threads nKeepThread =>
    obtain ⟨m', report, hrun, hm'⟩ := htracked.purgeCallList ha
    rw [EventSystem.exec, hrun]
    exact ⟨_, rfl, own, hrefs, hm'⟩

/-- Accounts are kept along every run that meets the condition. -/
theorem tracked_of_runs (hzero : refs 0) {s : EventSystem}
    (hrun : Runs (StepOf exec) (Accounted shape refs) start s) : s.Tracked shape refs := by
  refine hrun.invariant (Tracked shape refs) (tracked_start hzero) fun s a t hs ha hstep => ?_
  obtain ⟨t', hexec, ht'⟩ := hs.exec hzero ha
  obtain rfl := Except.ok.inj (hexec.symm.trans hstep)
  exact ht'

/-- In every run in which calls start under new identifiers and without references, no protection
covers a call twice, and protections are lifted for the calls that they were set up for, the
reference counts balance, and no step that meets the condition fails. -/
theorem references_balance {s : EventSystem}
    (hrun : Runs (StepOf exec) (Accounted List.Nodup (· = 0)) start s) :
    s.manager.ReferencesBalance ∧
      ∀ a, Accounted List.Nodup (· = 0) s a → ∃ t, s.exec a = .ok t := by
  have hs : s.Tracked List.Nodup (· = 0) :=
    tracked_of_runs (by rfl) hrun
  refine ⟨?_, fun a ha => ?_⟩
  · obtain ⟨own, hown, htracked⟩ := hs
    obtain rfl : own = 0 := funext hown
    exact htracked.referencesBalance
  · obtain ⟨t, ht, -⟩ := hs.exec rfl ha
    exact ⟨t, ht⟩

/-- A program thread and a GPU thread, numbered 6. -/
def linkGPU : EventAction :=
  .link (some ((AList.singleton (0 : ℤ) "launcher").insert 1 "kernel"))
    (some ((AList.singleton (0 : ℤ) "ENTRY").insert 1 "EXIT"))
    (some (AList.singleton (0 : ℤ) "Correlation ID")) (some [6])

/-- An entry or exit, which is event type 0 or 1. -/
def funcAction (tid eid fid ts idx : ℕ) : EventAction :=
  .addEvent { data := [0, 0, tid, eid, fid, ts], type := .FUNC, idx := idx,
              id := { rank := 0, step := 0, idx := idx } }

/-- A correlation identifier. -/
def correlationAction (tid value ts idx : ℕ) : EventAction :=
  .addEvent { data := [0, 0, tid, 0, value, ts], type := .COUNT, idx := idx,
              id := { rank := 0, step := 0, idx := idx } }

/-- A launcher waits for its kernel, which is matched when it ends, labeled and purged. -/
def launcherFirst : List EventAction :=
  [linkGPU, funcAction 0 0 0 10 0, correlationAction 0 7 11 1, funcAction 0 1 0 12 2,
    funcAction 6 0 1 20 3, correlationAction 6 7 21 4, funcAction 6 1 1 22 5,
    .setLabel 1 1, .purgeCallList [⟨0, 0, 0⟩, ⟨0, 0, 6⟩] 0]

/-- The launcher, which is not labeled, is kept with one reference. -/
theorem references_balance_launcherFirst :
    ∃ s, runAll exec (Accounted List.Nodup (· = 0)) start launcherFirst = some s ∧
      (s.manager.callList ⟨0, 0, 0⟩, s.manager.callList ⟨0, 0, 6⟩) = ([0], []) ∧
      (s.manager.calls 0).references = 1 ∧ s.manager.ReferencesBalance := by
  have hrun : ∃ s ∈ runAll exec (Accounted List.Nodup (· = 0)) start launcherFirst,
      (s.manager.callList ⟨0, 0, 0⟩, s.manager.callList ⟨0, 0, 6⟩) = ([0], []) ∧
        (s.manager.calls 0).references = 1 := by
    decide +kernel
  obtain ⟨s, hs, hlists, hreferences⟩ := hrun
  exact ⟨s, hs, hlists, hreferences, (references_balance (runs_of_runAll _ hs)).1⟩

/-- A kernel that ends before its launcher does. -/
def kernelFirst : List EventAction :=
  [linkGPU, funcAction 0 0 0 10 0, funcAction 6 0 1 11 1, correlationAction 6 7 12 2,
    funcAction 6 1 1 13 3, correlationAction 0 7 14 4]

/-- When the launcher ends, it is the kernel's partner, and unprotecting the kernel takes a
reference from it that it does not have. -/
theorem not_references_balance_kernelFirst :
    ¬∀ s, Runs (StepOf exec) DistinctIDs start s → ∀ a, DistinctIDs s a →
      s.exec a ≠
        .error "Attempting to deregister and event whose external reference count is 0!" := by
  intro hall
  have hrun : ∃ s ∈ runAll exec DistinctIDs start kernelFirst,
      DistinctIDs s (funcAction 0 1 0 15 5) ∧ (match s.exec (funcAction 0 1 0 15 5) with
        | .ok _ => none
        | .error e => some e) =
        some "Attempting to deregister and event whose external reference count is 0!" := by
    decide +kernel
  obtain ⟨s, hs, hid, herror⟩ := hrun
  apply hall s (runs_of_runAll _ hs) _ hid
  cases hexec : s.exec (funcAction 0 1 0 15 5) with
  | ok t =>
    rw [hexec] at herror
    cases herror
  | error e =>
    rw [hexec] at herror
    cases herror
    rfl

end EventSystem

end Chimbuko
