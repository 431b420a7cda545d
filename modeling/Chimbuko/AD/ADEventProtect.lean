import Chimbuko.AD.ADEventAttribution
import Chimbuko.Library.KeyedMap

/-!
# Protection from deletion

The event manager as a store of pinned records: the calls with their identifiers, parents and
reference counts, and the protections that have not been lifted. The code does not keep what a
protection covers but finds it again from the call's parents and its GPU partner. This is the
same as long as the partner is.

Protections may be asked to cover lists of calls of some shape. A protection that covers a list
without repetition counts each of its calls once.
-/

namespace Chimbuko

open KeyedMap TransitionSystem

namespace ExecData

/-- What the event manager needs of a call to find and protect it. -/
def tracked (d : ExecData) : EventID × Thread × EventID × ℕ × List EventID :=
  (d.id, d.thread, d.parent, d.references, d.gpuCorrelationIDpartner)

/-- A message does not change what is tracked of a call. -/
theorem tracked_addMessage (d : ExecData) (comm : CommData) :
    (d.addMessage comm).tracked = d.tracked := by
  unfold addMessage
  split <;> rfl

/-- A counter does not change what is tracked of a call. -/
theorem tracked_addCounter (d : ExecData) (counter : CounterData) :
    (d.addCounter counter).tracked = d.tracked := by
  unfold addCounter
  split <;> rfl

/-- The exit does not change what is tracked of a call. -/
theorem tracked_updateExit {d d' : ExecData} {ev : Event} (h : d.updateExit ev = some d') :
    d'.tracked = d.tracked := by
  unfold updateExit at h
  split at h
  · cases h
  · cases h
    rfl

end ExecData

namespace ADEvent

/-- The protections that have not been lifted: those of calls whose correlation identifier has no
match yet, and those of calls that were not labeled. -/
def outstanding (m : ADEvent) : List Protection :=
  values m.unmatchedCorrelationID ++ values m.stackLockedUnlabeled

/-- The calls as records that are pinned by protections. -/
def pinStore (m : ADEvent) : PinStore EventID where
  size := m.nextRef
  id x := (m.calls x).id
  parent x := (m.calls x).parent
  refs x := (m.calls x).references
  find := m.callIDMap
  pins := m.outstanding

/-- An identifier of a call, or that a call names as its parent or partner. -/
def Named (m : ADEvent) (k : EventID) : Prop :=
  ∃ x < m.nextRef, k = (m.calls x).id ∨ k = (m.calls x).parent ∨
    k ∈ (m.calls x).gpuCorrelationIDpartner

instance (m : ADEvent) (k : EventID) : Decidable (m.Named k) :=
  inferInstanceAs (Decidable (∃ x < m.nextRef, _))

/-- The map of identifiers has exactly the calls of the call list. -/
structure ListValid (m : ADEvent) : Prop where
  find_iff : ∀ k x, m.callIDMap k = some x ↔
    x ∈ m.callList (m.calls x).thread ∧ (m.calls x).id = k
  thread_eq : ∀ thr, ∀ x ∈ m.callList thr, (m.calls x).thread = thr
  nodup : ∀ thr, (m.callList thr).Nodup

/-- The call list, the call stacks and the map of identifiers fit together. -/
structure Listed (m : ADEvent) : Prop where
  list : m.ListValid
  stacksValid : m.StacksValid
  open_listed : ∀ thr, ∀ x ∈ m.callStack thr, x ∈ m.callList thr ∧ (m.calls x).exit = 0

/-- The reference counts are those that the calls came with and those of the outstanding
protections, and locked calls are known under their identifiers. -/
structure Tracked (m : ADEvent) (shape : List CallRef → Prop) (own : CallRef → ℕ) : Prop where
  listed : m.Listed
  store : m.pinStore.Valid EventID.root m.Named shape own
  locked_id : ∀ id p, m.stackLockedUnlabeled.lookup id = some p → (m.calls p.start).id = id

/-- The calls that a protection of a call covers have an allowed shape. -/
def ProtectOK (m : ADEvent) (shape : List CallRef → Prop) (it : CallRef) : Prop :=
  shape (m.coveredCalls it)

/-- A call whose protection is lifted has the GPU partner that it had when it was protected, or
neither of the two partners is in the call list. -/
def LiftOK (m : ADEvent) (p : Protection) : Prop :=
  m.gpuPartner p.start = p.partner ∨
    (∀ k ∈ m.gpuPartner p.start, m.callIDMap k = none) ∧ ∀ k ∈ p.partner, m.callIDMap k = none

instance (m : ADEvent) (shape : List CallRef → Prop) [DecidablePred shape] (it : CallRef) :
    Decidable (m.ProtectOK shape it) :=
  inferInstanceAs (Decidable (shape _))

instance (m : ADEvent) (p : Protection) : Decidable (m.LiftOK p) :=
  inferInstanceAs (Decidable (_ ∨ _))

variable {shape : List CallRef → Prop} {own : CallRef → ℕ}

/-- Calls of the list are known under their identifiers. -/
theorem ListValid.find_of_mem {m : ADEvent} (h : m.ListValid) {thr : Thread} {x : CallRef}
    (hx : x ∈ m.callList thr) : m.callIDMap (m.calls x).id = some x := by
  apply (h.find_iff _ x).mpr
  rw [h.thread_eq thr x hx]
  exact ⟨hx, rfl⟩

/-- Only the lists and the map of identifiers matter. -/
theorem ListValid.congr {m m' : ADEvent} (h : m.ListValid)
    (hfind : m'.callIDMap = m.callIDMap) (hlist : m'.callList = m.callList)
    (hid : ∀ x, (m'.calls x).id = (m.calls x).id)
    (hthread : ∀ x, (m'.calls x).thread = (m.calls x).thread) : m'.ListValid := by
  refine ⟨?_, ?_, ?_⟩
  · simpa only [hfind, hlist, hthread, hid] using h.find_iff
  · simpa only [hlist, hthread] using h.thread_eq
  · simpa only [hlist] using h.nodup

/-- Only the stacks matter. -/
theorem StacksValid.congr {m m' : ADEvent} (h : m.StacksValid)
    (hstack : m'.callStack = m.callStack) (hnext : m'.nextRef = m.nextRef) : m'.StacksValid := by
  refine ⟨?_, ?_, ?_⟩
  · simpa only [hstack, hnext] using h.lt
  · simpa only [hstack] using h.nodup
  · simpa only [hstack] using h.thread_eq

/-- References, partners and protections do not matter. -/
theorem Listed.congr {m m' : ADEvent} (h : m.Listed) (hrefs : m'.forgetRefs = m.forgetRefs) :
    m'.Listed := by
  have hcalls : ∀ {β : Type} (g : ExecData → β), (∀ d, g (ExecData.forgetRefs d) = g d) →
      ∀ x, g (m'.calls x) = g (m.calls x) := by
    intro β g hg x
    rw [← hg (m'.calls x), ← hg (m.calls x)]
    exact (congrArg (fun m : ADEvent => g (m.calls x)) hrefs :)
  have hlist : m'.callList = m.callList := (congrArg ADEvent.callList hrefs :)
  have hstack : m'.callStack = m.callStack := (congrArg ADEvent.callStack hrefs :)
  refine ⟨h.list.congr (congrArg ADEvent.callIDMap hrefs :) hlist
    (hcalls ExecData.id fun _ => rfl) (hcalls ExecData.thread fun _ => rfl),
    h.stacksValid.congr hstack (congrArg ADEvent.nextRef hrefs :), ?_⟩
  simpa only [hstack, hlist, hcalls ExecData.exit fun _ => rfl] using h.open_listed

/-- A protection covers the lines from the parent and from the partner. -/
theorem coveredCalls_eq (m : ADEvent) (it : CallRef) :
    m.coveredCalls it = m.pinStore.coversOf EventID.root it (m.gpuPartner it) := rfl

/-- The partner of a call is one of those recorded. -/
theorem gpuPartner_mem {m : ADEvent} {it : CallRef} {k : EventID} (h : m.gpuPartner it = some k) :
    k ∈ (m.calls it).gpuCorrelationIDpartner := by
  rw [gpuPartner] at h
  split at h
  · exact List.mem_of_head? h
  · cases h

/-- A call in the list can be protected. -/
theorem Tracked.protect {m : ADEvent} (h : m.Tracked shape own) {it : CallRef}
    (hit : m.callIDMap (m.calls it).id = some it) (hok : m.ProtectOK shape it) :
    (m.pinStore.pin (m.stackProtectGC it).2).Valid EventID.root m.Named shape own := by
  apply h.store.pin
  refine ⟨hit, m.coveredCalls_eq it, hok, fun k hk => ?_⟩
  exact ⟨it, (h.store.find_lt _ it hit).1, Or.inr (Or.inr (gpuPartner_mem hk))⟩

/-- No calls are covered for a partner that is not in the call list. -/
theorem coversOf_of_none (m : ADEvent) (it : CallRef) {partner : Option EventID}
    (h : ∀ k ∈ partner, m.callIDMap k = none) :
    m.pinStore.coversOf EventID.root it partner = m.pinStore.coversOf EventID.root it none := by
  cases partner with
  | none => rfl
  | some k =>
    have hline : m.pinStore.line EventID.root k = [] := by
      have hwalk : ∀ n, ParentLine.walk EventID.root m.callIDMap
          (fun x => (m.calls x).parent) n k = [] := by
        intro n
        cases n with
        | zero => rfl
        | succ n =>
          rw [ParentLine.walk, h k rfl]
          simp
      exact hwalk m.nextRef
    change it :: (_ ++ m.pinStore.line EventID.root k) = it :: (_ ++ [])
    rw [hline]

/-- Lifting a protection covers the calls that setting it up covered. -/
theorem Tracked.coveredCalls_eq_covers {m : ADEvent} (h : m.Tracked shape own) {p : Protection}
    (hp : p ∈ m.outstanding) (hok : m.LiftOK p) : m.coveredCalls p.start = p.covers := by
  rw [coveredCalls_eq, (h.store.pins_fit p hp).covers_eq]
  rcases hok with hsame | ⟨hnow, hthen⟩
  · rw [hsame]
  · rw [coversOf_of_none m _ hnow, coversOf_of_none m _ hthen]

/-- An outstanding protection can be lifted, which takes back what it counted. -/
theorem Tracked.lift {m : ADEvent} (h : m.Tracked shape own) {p : Protection}
    {rest : List Protection}
    (hp : m.outstanding.Perm (p :: rest)) (hok : m.LiftOK p) :
    m.coveredCalls p.start = p.covers ∧
      m.stackUnProtectGC p.start =
        .ok (m.withRefs fun x => (m.calls x).references - p.covers.count x) ∧
      (m.pinStore.lift p rest).Valid EventID.root m.Named shape own := by
  have hmem : p ∈ m.pinStore.pins := hp.mem_iff.mpr List.mem_cons_self
  have hcovers := h.coveredCalls_eq_covers hmem hok
  refine ⟨hcovers, ?_, h.store.lift hp⟩
  rw [stackUnProtectGC, hcovers]
  exact deregisterAll_eq.mpr ⟨h.store.count_le hmem, rfl⟩

/-- The store depends on identifiers, parents and references of the calls. -/
theorem pinStore_congr {m m' : ADEvent} (hnext : m'.nextRef = m.nextRef)
    (hfind : m'.callIDMap = m.callIDMap) (hpins : m'.outstanding = m.outstanding)
    (hid : ∀ x, (m'.calls x).id = (m.calls x).id)
    (hparent : ∀ x, (m'.calls x).parent = (m.calls x).parent)
    (hrefs : ∀ x, (m'.calls x).references = (m.calls x).references) :
    m'.pinStore = m.pinStore := by
  unfold pinStore
  simp only [hnext, hfind, hpins, hid, hparent, hrefs]

/-- A state that differs in nothing that is needed to find and protect calls. -/
theorem Tracked.congr {m m' : ADEvent} (h : m.Tracked shape own) (hnext : m'.nextRef = m.nextRef)
    (hfind : m'.callIDMap = m.callIDMap) (hlist : m'.callList = m.callList)
    (hunmatched : m'.unmatchedCorrelationID = m.unmatchedCorrelationID)
    (hlocked : m'.stackLockedUnlabeled = m.stackLockedUnlabeled)
    (htracked : ∀ x, (m'.calls x).tracked = (m.calls x).tracked)
    (hstacks : m'.StacksValid)
    (hopen : ∀ thr, ∀ x ∈ m'.callStack thr, x ∈ m.callList thr ∧ (m'.calls x).exit = 0) :
    m'.Tracked shape own := by
  have hid : ∀ x, (m'.calls x).id = (m.calls x).id := fun x =>
    congrArg (fun t => t.1) (htracked x)
  have hthread : ∀ x, (m'.calls x).thread = (m.calls x).thread := fun x =>
    congrArg (fun t => t.2.1) (htracked x)
  have hparent : ∀ x, (m'.calls x).parent = (m.calls x).parent := fun x =>
    congrArg (fun t => t.2.2.1) (htracked x)
  have hrefs : ∀ x, (m'.calls x).references = (m.calls x).references := fun x =>
    congrArg (fun t => t.2.2.2.1) (htracked x)
  have hpartner : ∀ x, (m'.calls x).gpuCorrelationIDpartner =
      (m.calls x).gpuCorrelationIDpartner := fun x => congrArg (fun t => t.2.2.2.2) (htracked x)
  have hpins : m'.outstanding = m.outstanding := by
    rw [outstanding, hunmatched, hlocked]
    rfl
  have hstore := pinStore_congr hnext hfind hpins hid hparent hrefs
  have hnamed : m'.Named = m.Named := by
    unfold Named
    simp only [hnext, hid, hparent, hpartner]
  refine ⟨⟨h.listed.list.congr hfind hlist hid hthread, hstacks, ?_⟩, ?_, fun id p hp => ?_⟩
  · rw [hlist]
    exact hopen
  · rw [hstore, hnamed]
    exact h.store
  · rw [hlocked] at hp
    rw [hid]
    exact h.locked_id id p hp

/-- Identifiers stay named as long as calls only get more partners. -/
theorem Named.mono {m m' : ADEvent} {k : EventID} (h : m.Named k) (hnext : m.nextRef ≤ m'.nextRef)
    (hid : ∀ x < m.nextRef, (m'.calls x).id = (m.calls x).id)
    (hparent : ∀ x < m.nextRef, (m'.calls x).parent = (m.calls x).parent)
    (hpartner : ∀ x < m.nextRef, (m.calls x).gpuCorrelationIDpartner ⊆
      (m'.calls x).gpuCorrelationIDpartner) : m'.Named k := by
  obtain ⟨x, hx, hk⟩ := h
  refine ⟨x, hx.trans_le hnext, ?_⟩
  rw [hid x hx, hparent x hx]
  exact hk.imp_right (Or.imp_right fun hmem => hpartner x hx hmem)

/-- Setting partners removes none. -/
theorem setPartners_partners (m : ADEvent) (it partner x : CallRef) :
    (m.calls x).gpuCorrelationIDpartner ⊆
      ((m.setPartners it partner).calls x).gpuCorrelationIDpartner := by
  have hmodify : ∀ (m : ADEvent) (y : CallRef) (k : EventID),
      (m.calls x).gpuCorrelationIDpartner ⊆
        ((m.modifyCall y fun d => d.setGPUcorrelationIDpartner k).calls
          x).gpuCorrelationIDpartner := by
    intro m y k
    rw [modifyCall_calls]
    by_cases hx : x = y
    · subst hx
      rw [Function.update_self]
      exact List.subset_append_left _ _
    · rw [Function.update_of_ne hx]
      exact List.Subset.refl _
  exact List.Subset.trans (hmodify m it _) (hmodify _ partner _)

/-- Calls become partners. -/
theorem Tracked.setPartners {m : ADEvent} (h : m.Tracked shape own) (it partner : CallRef) :
    (m.setPartners it partner).Tracked shape own := by
  have hproj : ∀ {β : Type} (g : ExecData → β),
      (∀ d k, g (ExecData.setGPUcorrelationIDpartner d k) = g d) →
      ∀ x, g ((m.setPartners it partner).calls x) = g (m.calls x) := by
    intro β g hg x
    let m₁ := m.modifyCall it fun d => d.setGPUcorrelationIDpartner (m.calls partner).id
    have hfirst : g (m₁.calls x) = g (m.calls x) :=
      proj_modifyCall g m fun _ => hg (m.calls it) _
    have hsecond : g ((m₁.modifyCall partner fun d =>
        d.setGPUcorrelationIDpartner (m.calls it).id).calls x) = g (m₁.calls x) :=
      proj_modifyCall g m₁ fun _ => hg (m₁.calls partner) _
    exact hsecond.trans hfirst
  have hid := hproj ExecData.id fun _ _ => rfl
  have hparent := hproj ExecData.parent fun _ _ => rfl
  have hstore : (m.setPartners it partner).pinStore = m.pinStore :=
    pinStore_congr rfl rfl rfl hid hparent (hproj ExecData.references fun _ _ => rfl)
  refine ⟨h.listed.congr (forgetRefs_setPartners m it partner), ?_, fun id p hp => ?_⟩
  · refine h.store.mono (fun k hk => ?_) (by rw [hstore]) (by rw [hstore])
    exact hk.mono le_rfl (fun x _ => hid x) (fun x _ => hparent x)
      fun x _ => m.setPartners_partners it partner x
  · rw [hid]
    exact h.locked_id id p hp

/-- The condition on matching one counter of a call: it can lift the protection of the call that
it matches, or set one up. -/
def MatchOK (shape : List CallRef → Prop) (it : CallRef) (m : ADEvent) (c : CounterData) : Prop :=
  m.isCorrelationID c = true →
    match m.unmatchedCorrelationID.lookup c.value with
    | some p => (m.setPartners it p.start).LiftOK p
    | none => m.ProtectOK shape it

instance [DecidablePred shape] (it : CallRef) (m : ADEvent) (c : CounterData) :
    Decidable (MatchOK shape it m c) := by
  unfold MatchOK
  cases m.unmatchedCorrelationID.lookup c.value <;> exact inferInstanceAs (Decidable (_ → _))

/-- Protecting a stack adds a reference to each call that it covers. -/
theorem stackProtectGC_fst (m : ADEvent) (it : CallRef) : (m.stackProtectGC it).1 =
    m.withRefs fun x => (m.calls x).references + (m.coveredCalls it).count x :=
  registerAll_eq (m.coveredCalls it) m

/-- A call waits for the match of its correlation identifier. -/
theorem Tracked.wait {m : ADEvent} (h : m.Tracked shape own) {it : CallRef}
    (hit : m.callIDMap (m.calls it).id = some it) (hok : m.ProtectOK shape it) {cid : ℕ}
    (hlookup : m.unmatchedCorrelationID.lookup cid = none) :
    ({ (m.stackProtectGC it).1 with
      unmatchedCorrelationID := (m.stackProtectGC it).1.unmatchedCorrelationID.insert cid
        (m.stackProtectGC it).2 } : ADEvent).Tracked shape own := by
  have hprotect := h.protect hit hok
  rw [stackProtectGC_fst]
  refine ⟨h.listed.congr rfl, ?_, h.locked_id⟩
  refine hprotect.mono (fun _ hk => hk) (List.Perm.of_eq ?_) rfl
  change values (m.unmatchedCorrelationID.insert cid _) ++ _ = _ :: (_ ++ _)
  rw [values_insert _ hlookup]
  rfl

/-- A call is locked while it is not labeled. -/
theorem Tracked.lockUnlabeled {m : ADEvent} (h : m.Tracked shape own) {it : CallRef}
    (hit : m.callIDMap (m.calls it).id = some it) (hok : m.ProtectOK shape it)
    (hlookup : m.stackLockedUnlabeled.lookup (m.calls it).id = none) :
    (m.lockUnlabeled it).Tracked shape own := by
  have hprotect := h.protect hit hok
  have heq : m.lockUnlabeled it = { (m.stackProtectGC it).1 with
      stackLockedUnlabeled := m.stackLockedUnlabeled.insert (m.calls it).id
        (m.stackProtectGC it).2 } := by
    have hsame := stackProtectGC_fst m it
    change ({ (m.stackProtectGC it).1 with
      stackLockedUnlabeled := (m.stackProtectGC it).1.stackLockedUnlabeled.insert
        ((m.stackProtectGC it).1.calls it).id (m.stackProtectGC it).2 } : ADEvent) = _
    rw [hsame]
    rfl
  rw [heq, stackProtectGC_fst]
  refine ⟨h.listed.congr rfl, ?_, fun id p hp => ?_⟩
  · refine hprotect.mono (fun _ hk => hk) ?_ rfl
    change (_ ++ values (m.stackLockedUnlabeled.insert (m.calls it).id _)).Perm (_ :: (_ ++ _))
    rw [values_insert _ hlookup]
    exact List.perm_middle
  · change (m.calls p.start).id = id
    by_cases hid : id = (m.calls it).id
    · subst hid
      rw [AList.lookup_insert] at hp
      rw [← Option.some.inj hp]
      rfl
    · rw [AList.lookup_insert_ne hid] at hp
      exact h.locked_id id p hp

/-- The protection of a call whose correlation identifier is matched is lifted. -/
theorem Tracked.matched {m : ADEvent} (h : m.Tracked shape own) {p : Protection} {cid : ℕ}
    (hlookup : m.unmatchedCorrelationID.lookup cid = some p) (hok : m.LiftOK p) :
    ∃ m', m.stackUnProtectGC p.start = .ok m' ∧
      ({ m' with unmatchedCorrelationID :=
        m'.unmatchedCorrelationID.erase cid } : ADEvent).Tracked shape own := by
  have hperm : m.outstanding.Perm (p :: (values (m.unmatchedCorrelationID.erase cid) ++
      values m.stackLockedUnlabeled)) := (values_erase_perm hlookup).append_right _
  obtain ⟨-, hlift, hstore⟩ := h.lift hperm hok
  exact ⟨_, hlift, h.listed.congr rfl, hstore, h.locked_id⟩

/-- The lock of a call that has been labeled is lifted. -/
theorem Tracked.unlock {m : ADEvent} (h : m.Tracked shape own) {p : Protection} {id : EventID}
    (hlookup : m.stackLockedUnlabeled.lookup id = some p) (hok : m.LiftOK p) :
    ∃ m', m.stackUnProtectGC p.start = .ok m' ∧
      ({ m' with stackLockedUnlabeled :=
        m'.stackLockedUnlabeled.erase id } : ADEvent).Tracked shape own := by
  have hperm : m.outstanding.Perm (p :: (values m.unmatchedCorrelationID ++
      values (m.stackLockedUnlabeled.erase id))) :=
    ((values_erase_perm hlookup).append_left _).trans List.perm_middle
  obtain ⟨-, hlift, hstore⟩ := h.lift hperm hok
  refine ⟨_, hlift, h.listed.congr rfl, hstore, fun id' q hq => h.locked_id id' q ?_⟩
  change (m.stackLockedUnlabeled.erase id).lookup id' = some q at hq
  by_cases hid : id' = id
  · rw [hid, AList.lookup_erase] at hq
    cases hq
  · rwa [AList.lookup_erase_ne hid] at hq

/-- A counter can be matched. -/
theorem Tracked.matchCorrelationID {it : CallRef} {m : ADEvent} (h : m.Tracked shape own)
    (hit : m.callIDMap (m.calls it).id = some it) {c : CounterData} (hok : MatchOK shape it m c) :
    ∃ m', ADEvent.matchCorrelationID it m c = .ok m' ∧ m'.Tracked shape own := by
  rw [ADEvent.matchCorrelationID]
  by_cases hc : m.isCorrelationID c = true
  · rw [if_pos hc]
    have hok := hok hc
    have hm₁ : ({ m with cidxCorrId := toInt c.cid } : ADEvent).Tracked shape own :=
      ⟨h.listed.congr rfl, h.store, h.locked_id⟩
    cases hlookup : m.unmatchedCorrelationID.lookup c.value with
    | none =>
      rw [hlookup] at hok
      refine ⟨_, ?_, hm₁.wait hit hok hlookup⟩
      simp only [hlookup]
      rfl
    | some p =>
      rw [hlookup] at hok
      have hstart : m.callIDMap (m.calls p.start).id = some p.start := (h.store.pins_fit p
        (List.mem_append_left _ (mem_values.mpr ⟨c.value, hlookup⟩))).find_start
      have halive : m.callIDMap (m.calls p.start).id ≠ none := by
        rw [hstart]
        exact Option.some_ne_none _
      obtain ⟨m', hlift, hm'⟩ := (hm₁.setPartners it p.start).matched hlookup hok
      refine ⟨_, ?_, hm'⟩
      simp only [hlookup, if_neg halive, hlift]
      rfl
  · rw [if_neg hc]
    exact ⟨m, rfl, h⟩

end ADEvent

end Chimbuko
