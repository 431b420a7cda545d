import Chimbuko.AD.ADExecDataInterface
import Chimbuko.AD.ADNormalEventProvenance
import Chimbuko.Library.TransitionSystem

/-!
# Provenance of anomalies and normal events

`ad/ADAnomalyProvenance`: a call for a step stores the provenance of the step's normal events,
outputs those that were asked for on earlier steps, and then gathers the provenance of the
anomalies. For the first one of each function it also outputs a normal event, or asks for one.

How the provenance of an event is put together does not matter here. It depends on the event, the
step and the state of other components, so it is an argument of each call.
-/

namespace Chimbuko

open RequestStore TransitionSystem

variable {E : Type}

/-- The events of a type that are recorded for any data set, as pairs of a data set and an
element of it. -/
def ADDataInterface.eventsRecorded (iface : ADDataInterface ADExecDataInterface)
    (type : EventType) : List (ℕ × ℕ) :=
  (List.range iface.nDataSets).flatMap fun dsetIndex =>
    ((iface.getResults dsetIndex).getEventsRecorded type).map fun e => (dsetIndex, e.index)

/-- The execution at an element of a data set. -/
def ADExecDataInterface.execData (self : ADExecDataInterface) (entry : ℕ × ℕ) :
    Except String ExecData := do
  let it ← self.getExecDataEntry entry.1 entry.2
  pure (self.manager.calls it)

/-- The key of an execution in the maps of normal events. -/
def ExecData.normalEventKey (e : ExecData) : NormalEventKey := (e.pid, e.rid, e.tid, e.fid)

/-- What provenance is extracted with. -/
structure ADAnomalyProvenance (E : Type) where
  /-- Anomalies with a shorter exclusive runtime are not reported. -/
  minAnomTime : ℕ
  normalevents : ADNormalEventProvenance E

/-- What the loop over the anomalies builds up. -/
structure GatheredEntries (E : Type) where
  anomEventEntries : List E
  normalEventEntries : List E
  /-- The functions a normal event was looked for on this step. -/
  normalEventFids : List ℕ
  normalevents : ADNormalEventProvenance E

namespace ADAnomalyProvenance

/-- Nothing was extracted. -/
def new : ADAnomalyProvenance E := { minAnomTime := 0, normalevents := .new }

/-- Whether an anomaly is reported. Its runtime is compared as an unsigned integer. -/
def reports (minAnomTime : ℕ) (e : ExecData) : Bool :=
  ¬ (e.exclusive % 2 ^ 64).toNat < minAnomTime

/-- Store the provenance of a normal event. -/
def storeNormalEvent (getEventProvenance : ExecData → Except String E)
    (source : ADExecDataInterface) (normalevents : ADNormalEventProvenance E) (entry : ℕ × ℕ) :
    Except String (ADNormalEventProvenance E) := do
  let e ← source.execData entry
  let event ← getEventProvenance e
  pure (normalevents.addNormalEvent e.pid e.rid e.tid e.fid event)

/-- Store the normal events of a step and output those that were asked for before. -/
def serveNormalEvents (self : ADAnomalyProvenance E)
    (getEventProvenance : ExecData → Except String E)
    (iface : ADDataInterface ADExecDataInterface) :
    Except String (List E × ADNormalEventProvenance E) := do
  let normalevents ← (iface.eventsRecorded .normal).foldlM
    (storeNormalEvent getEventProvenance iface.source) self.normalevents
  pure (normalevents.getOutstandingRequests true)

/-- Gather the provenance of an anomaly and, if it is the first one of its function, look for a
normal event. -/
def gatherAnomaly (getEventProvenance : ExecData → Except String E) (minAnomTime : ℕ)
    (source : ADExecDataInterface) (s : GatheredEntries E) (entry : ℕ × ℕ) :
    Except String (GatheredEntries E) := do
  let e ← source.execData entry
  if reports minAnomTime e then do
    let anom ← getEventProvenance e
    let s := { s with anomEventEntries := s.anomEventEntries ++ [anom] }
    if e.fid ∈ s.normalEventFids then pure s
    else
      let (nev, normalevents) := s.normalevents.getNormalEvent e.pid e.rid e.tid e.fid true true
      pure { s with
        normalEventEntries := s.normalEventEntries ++ nev.toList
        normalEventFids := e.fid :: s.normalEventFids
        normalevents := normalevents }
  else pure s

/-- The entries of anomalies are added to the given ones. The entries of normal events come
second. -/
def getProvenanceEntries (self : ADAnomalyProvenance E)
    (getEventProvenance : ExecData → Except String E) (anomEventEntries : List E)
    (iface : ADDataInterface ADExecDataInterface) :
    Except String (List E × List E × ADAnomalyProvenance E) := do
  let (served, normalevents) ← self.serveNormalEvents getEventProvenance iface
  let s ← (iface.eventsRecorded .outlier).foldlM
    (gatherAnomaly getEventProvenance self.minAnomTime iface.source)
    { anomEventEntries := anomEventEntries, normalEventEntries := served, normalEventFids := []
      normalevents := normalevents }
  pure (s.anomEventEntries, s.normalEventEntries, { self with normalevents := s.normalevents })

end ADAnomalyProvenance

/-- A call for a step, with the settings and the way to put provenance together at that time. -/
structure ProvenanceCall (E : Type) where
  minAnomTime : ℕ
  getEventProvenance : ExecData → Except String E
  anomEventEntries : List E
  iface : ADDataInterface ADExecDataInterface

/-- The normal event that is stored for an element, with its key. -/
def ADExecDataInterface.addedEvent (getEventProvenance : ExecData → Except String E)
    (source : ADExecDataInterface) (entry : ℕ × ℕ) : Except String (NormalEventKey × E) := do
  let e ← source.execData entry
  let event ← getEventProvenance e
  pure (e.normalEventKey, event)

namespace ProvenanceCall

/-- Extract the provenance of a step. -/
def exec (self : ADAnomalyProvenance E) (call : ProvenanceCall E) :
    Except String (List E × List E × ADAnomalyProvenance E) :=
  { self with minAnomTime := call.minAnomTime }.getProvenanceEntries call.getEventProvenance
    call.anomEventEntries call.iface

/-- The normal events that a call stores, with their keys. -/
def addedEvents (call : ProvenanceCall E) : Except String (List (NormalEventKey × E)) :=
  (call.iface.eventsRecorded .normal).mapM
    (ADExecDataInterface.addedEvent call.getEventProvenance call.iface.source)

/-- The first execution of each function, without those of functions that were seen before. -/
def firstOfEachFunction (seen : List ℕ) : List ExecData → List ExecData
  | [] => []
  | e :: rest =>
    if e.fid ∈ seen then firstOfEachFunction seen rest
    else e :: firstOfEachFunction (e.fid :: seen) rest

/-- The keys of the first reported anomaly of each function. -/
def requestedKeys (call : ProvenanceCall E) : Except String (List NormalEventKey) := do
  let anomalies ← (call.iface.eventsRecorded .outlier).mapM call.iface.source.execData
  let reported := anomalies.filter (ADAnomalyProvenance.reports call.minAnomTime)
  pure ((firstOfEachFunction [] reported).map ExecData.normalEventKey)

end ProvenanceCall

namespace ADAnomalyProvenance

/-- Make calls one after the other, and collect the normal events that they output. -/
def runCalls (self : ADAnomalyProvenance E) :
    List (ProvenanceCall E) → Except String (List E × ADAnomalyProvenance E)
  | [] => pure ([], self)
  | call :: rest => do
    let (_, normalEventEntries, self) ← call.exec self
    let (later, self) ← self.runCalls rest
    pure (normalEventEntries ++ later, self)

/-- Storing the normal events of a step adds them to the store. -/
theorem foldlM_storeNormalEvent {getEventProvenance : ExecData → Except String E}
    {source : ADExecDataInterface} {entries : List (ℕ × ℕ)}
    {normalevents normalevents' : ADNormalEventProvenance E}
    (h : entries.foldlM (storeNormalEvent getEventProvenance source) normalevents =
      .ok normalevents') :
    ∃ adds, entries.mapM (ADExecDataInterface.addedEvent getEventProvenance source) = .ok adds ∧
      normalevents'.toStore = normalevents.toStore.addAll adds := by
  induction entries generalizing normalevents with
  | nil =>
    cases h
    exact ⟨[], rfl, rfl⟩
  | cons entry rest ih =>
    rw [List.foldlM_cons] at h
    obtain ⟨stored, hstored, hrest⟩ := bind_eq_ok h
    obtain ⟨e, he, hstored⟩ := bind_eq_ok hstored
    obtain ⟨event, hevent, hstored⟩ := bind_eq_ok hstored
    obtain ⟨adds, hadds, hstore⟩ := ih hrest
    refine ⟨(e.normalEventKey, event) :: adds, ?_, ?_⟩
    · rw [List.mapM_cons, hadds]
      simp only [ADExecDataInterface.addedEvent, he, hevent, bind, Except.bind, pure, Except.pure]
    · cases hstored
      rw [hstore, ADNormalEventProvenance.toStore_addNormalEvent]
      rfl

/-- The loop over the anomalies requests a normal event for the first reported one of each
function. -/
theorem foldlM_gatherAnomaly {getEventProvenance : ExecData → Except String E} {minAnomTime : ℕ}
    {source : ADExecDataInterface} {entries : List (ℕ × ℕ)} {s s' : GatheredEntries E}
    (h : entries.foldlM (gatherAnomaly getEventProvenance minAnomTime source) s = .ok s') :
    ∃ anomalies, entries.mapM source.execData = .ok anomalies ∧
      let r := s.normalevents.toStore.requestAll ((ProvenanceCall.firstOfEachFunction
        s.normalEventFids (anomalies.filter (reports minAnomTime))).map ExecData.normalEventKey)
      s'.normalEventEntries = s.normalEventEntries ++ r.1.map Prod.snd ∧
        s'.normalevents.toStore = r.2 := by
  induction entries generalizing s with
  | nil =>
    cases h
    exact ⟨[], rfl, (List.append_nil _).symm, rfl⟩
  | cons entry rest ih =>
    rw [List.foldlM_cons] at h
    obtain ⟨next, hnext, hrest⟩ := bind_eq_ok h
    obtain ⟨e, he, hnext⟩ := bind_eq_ok hnext
    obtain ⟨anomalies, hanomalies, hentries, hstore⟩ := ih hrest
    refine ⟨e :: anomalies, ?_, ?_⟩
    · rw [List.mapM_cons, he, hanomalies]
      rfl
    by_cases hreports : reports minAnomTime e = true
    · rw [if_pos hreports] at hnext
      obtain ⟨anom, hanom, hnext⟩ := bind_eq_ok hnext
      rw [List.filter_cons_of_pos hreports]
      unfold ProvenanceCall.firstOfEachFunction
      by_cases hseen : e.fid ∈ s.normalEventFids
      · rw [if_pos hseen]
        rw [if_pos hseen] at hnext
        cases hnext
        exact ⟨hentries, hstore⟩
      · rw [if_neg hseen]
        rw [if_neg hseen] at hnext
        have hget := s.normalevents.toStore_getNormalEvent e.pid e.rid e.tid e.fid
        generalize s.normalevents.getNormalEvent e.pid e.rid e.tid e.fid true true = r
          at hget hnext
        obtain ⟨nev, left⟩ := r
        cases hnext
        have hnev : nev = _ := congrArg Prod.fst hget
        have hleft : left.toStore = _ := congrArg Prod.snd hget
        dsimp only at hentries hstore
        rw [hnev, hleft] at hentries
        rw [hleft] at hstore
        refine ⟨hentries.trans ?_, hstore⟩
        rw [List.map_cons, Store.requestAll, List.map_append, List.append_assoc]
        unfold ExecData.normalEventKey
        cases (s.normalevents.toStore.request (e.pid, e.rid, e.tid, e.fid)).1 with
        | none => rfl
        | some event => rfl
    · rw [if_neg hreports] at hnext
      rw [List.filter_cons_of_neg hreports]
      cases hnext
      exact ⟨hentries, hstore⟩

/-- The first executions are of different functions, none of which was seen before. -/
theorem firstOfEachFunction_nodup (executions : List ExecData) (seen : List ℕ) :
    ((ProvenanceCall.firstOfEachFunction seen executions).map ExecData.fid).Nodup ∧
      ∀ e ∈ ProvenanceCall.firstOfEachFunction seen executions, e.fid ∉ seen := by
  induction executions generalizing seen with
  | nil => exact ⟨List.nodup_nil, fun e he => absurd he List.not_mem_nil⟩
  | cons e rest ih =>
    unfold ProvenanceCall.firstOfEachFunction
    split
    · exact ih seen
    · rename_i hseen
      obtain ⟨hnodup, hnew⟩ := ih (e.fid :: seen)
      constructor
      · rw [List.map_cons, List.nodup_cons]
        refine ⟨?_, hnodup⟩
        intro hmem
        obtain ⟨e', he', hfid⟩ := List.mem_map.mp hmem
        exact hnew e' he' (hfid ▸ List.mem_cons_self)
      · intro e' he'
        cases List.mem_cons.mp he' with
        | inl heq => rwa [heq]
        | inr hmem => exact fun hcontra => hnew e' hmem (List.mem_cons_of_mem _ hcontra)

/-- A call requests no key twice. -/
theorem requestedKeys_nodup {call : ProvenanceCall E} {requests : List NormalEventKey}
    (h : call.requestedKeys = .ok requests) : requests.Nodup := by
  obtain ⟨anomalies, -, h⟩ := bind_eq_ok h
  cases h
  apply List.Nodup.of_map fun key : NormalEventKey => key.2.2.2
  rw [List.map_map]
  exact (firstOfEachFunction_nodup _ _).1

/-- What the first part of a call does to the store. -/
theorem serveNormalEvents_serves {self : ADAnomalyProvenance E} {call : ProvenanceCall E}
    {served : List E} {mid : ADNormalEventProvenance E}
    (h : self.serveNormalEvents call.getEventProvenance call.iface = .ok (served, mid)) :
    ∃ adds taken, call.addedEvents = .ok adds ∧ served = taken.map Prod.snd ∧
      Store.Serves true (self.normalevents.toStore.addAll adds) taken mid.toStore := by
  obtain ⟨normalevents, hstore, h⟩ := bind_eq_ok h
  obtain ⟨adds, hadds, hall⟩ := foldlM_storeNormalEvent hstore
  obtain ⟨taken, htaken, hserves⟩ := normalevents.toStore_getOutstandingRequests true
  rw [hall] at hserves
  refine ⟨adds, taken, hadds, ?_⟩
  cases h
  exact ⟨htaken, hserves⟩

/-- A call adds, serves and requests. -/
theorem exec_step {self self' : ADAnomalyProvenance E} {call : ProvenanceCall E}
    {anomEventEntries normalEventEntries : List E}
    (h : call.exec self = .ok (anomEventEntries, normalEventEntries, self')) :
    ∃ adds requests taken mid out, call.addedEvents = .ok adds ∧
      call.requestedKeys = .ok requests ∧
      self.serveNormalEvents call.getEventProvenance call.iface =
        .ok (taken.map Prod.snd, mid) ∧
      normalEventEntries = out.map Prod.snd ∧
      Store.Step self.normalevents.toStore { adds := adds, requests := requests } taken
        mid.toStore out self'.normalevents.toStore := by
  obtain ⟨⟨served, mid⟩, hserve, hrest⟩ := bind_eq_ok h
  obtain ⟨s, hgather, hlast⟩ := bind_eq_ok hrest
  obtain ⟨adds, taken, hadds, rfl, hserves⟩ := serveNormalEvents_serves hserve
  obtain ⟨anomalies, hanomalies, hentries, hstore⟩ := foldlM_gatherAnomaly hgather
  cases hlast
  refine ⟨adds, _, taken, mid, _, hadds, ?_, hserve, ?_, hserves, rfl, hstore⟩
  · unfold ProvenanceCall.requestedKeys
    rw [hanomalies]
    rfl
  · rw [hentries, List.map_append]

/-- A run of calls is a run of the store. -/
theorem runCalls_run {calls : List (ProvenanceCall E)} {self self' : ADAnomalyProvenance E}
    {entries : List E} (h : self.runCalls calls = .ok (entries, self'))
    {before : List (Call NormalEventKey E)} {outsBefore : List (NormalEventKey × E)}
    (hbefore : Store.Run before outsBefore self.normalevents.toStore)
    (hnodup : ∀ c ∈ before, c.requests.Nodup) :
    ∃ later outs, calls.mapM ProvenanceCall.addedEvents = .ok (later.map Call.adds) ∧
      entries = outs.map Prod.snd ∧ (∀ c ∈ later, c.requests.Nodup) ∧
      Store.Run (before ++ later) (outsBefore ++ outs) self'.normalevents.toStore := by
  induction calls generalizing self before outsBefore entries with
  | nil =>
    cases h
    refine ⟨[], [], rfl, rfl, fun c hc => absurd hc List.not_mem_nil, ?_⟩
    rwa [List.append_nil, List.append_nil]
  | cons call rest ih =>
    obtain ⟨⟨anomEventEntries, normalEventEntries, next⟩, hcall, h⟩ := bind_eq_ok h
    obtain ⟨⟨laterEntries, last⟩, hrest, h⟩ := bind_eq_ok h
    cases h
    obtain ⟨adds, requests, taken, mid, out, hadds, hrequests, -, rfl, hstep⟩ := exec_step hcall
    have hfirst : ∀ c ∈ before ++ [{ adds := adds, requests := requests }],
        c.requests.Nodup := by
      intro c hc
      cases List.mem_append.mp hc with
      | inl hmem => exact hnodup c hmem
      | inr hmem =>
        rw [List.mem_singleton.mp hmem]
        exact requestedKeys_nodup hrequests
    obtain ⟨later, outs, hlater, rfl, hlaterNodup, hrun⟩ := ih hrest (hbefore.snoc hstep) hfirst
    refine ⟨{ adds := adds, requests := requests } :: later, out ++ outs, ?_, ?_, ?_, ?_⟩
    · rw [List.mapM_cons, hadds, hlater]
      rfl
    · rw [List.map_append]
    · intro c hc
      cases List.mem_cons.mp hc with
      | inl heq =>
        rw [heq]
        exact requestedKeys_nodup hrequests
      | inr hmem => exact hlaterNodup c hmem
    · rwa [List.append_assoc, List.append_assoc] at hrun

/-- The maps never have an event and an outstanding request for the same key. -/
def Disjoint (self : ADAnomalyProvenance E) : Prop :=
  ∀ key, self.normalevents.outstanding key = true → self.normalevents.stored key = none

/-- What a call does with a key: the request is cleared if an event is stored for it, and made if
nothing is stored when the key is requested. -/
theorem exec_outstanding {self self' : ADAnomalyProvenance E} (hself : self.Disjoint)
    {call : ProvenanceCall E} {anomEventEntries normalEventEntries : List E}
    (h : call.exec self = .ok (anomEventEntries, normalEventEntries, self')) :
    ∃ adds requests served mid, call.addedEvents = .ok adds ∧
      call.requestedKeys = .ok requests ∧
      self.serveNormalEvents call.getEventProvenance call.iface = .ok (served, mid) ∧
      served <+: normalEventEntries ∧ ∀ key,
        (self'.normalevents.outstanding key = true ↔
          mid.outstanding key = true ∨ key ∈ requests ∧ mid.stored key = none) ∧
        (mid.outstanding key = true ↔
          self.normalevents.outstanding key = true ∧ lastAdded adds key = none) ∧
        ∀ event, self.normalevents.outstanding key = true → lastAdded adds key = some event →
          event ∈ served := by
  obtain ⟨adds, requests, taken, mid, out, hadds, hrequests, hserve, rfl, hstep⟩ := exec_step h
  refine ⟨adds, requests, taken.map Prod.snd, mid, hadds, hrequests, hserve, ?_, fun key => ?_⟩
  · rw [hstep.out_eq, List.map_append]
    exact List.prefix_append _ _
  · refine ⟨hstep.wanted_iff (requestedKeys_nodup hrequests) key,
      hstep.serves.wanted_iff hself key, ?_⟩
    intro event houtstanding hlast
    exact List.mem_map.mpr ⟨_, hstep.serves.delivers houtstanding hlast, rfl⟩

/-- A call leaves no key both stored and outstanding. -/
theorem exec_disjoint {self self' : ADAnomalyProvenance E} {call : ProvenanceCall E}
    {anomEventEntries normalEventEntries : List E}
    (h : call.exec self = .ok (anomEventEntries, normalEventEntries, self')) : self'.Disjoint := by
  obtain ⟨adds, requests, taken, mid, out, -, hrequests, -, -, hstep⟩ := exec_step h
  exact hstep.disjoint (requestedKeys_nodup hrequests)

/-- A key stays outstanding over calls that store no event for it. -/
theorem outstanding_persists {calls : List (ProvenanceCall E)} {self self' : ADAnomalyProvenance E}
    {entries : List E} (hself : self.Disjoint) (h : self.runCalls calls = .ok (entries, self'))
    {key : NormalEventKey} (hkey : self.normalevents.outstanding key = true)
    (hcalls : ∀ call ∈ calls, ∀ adds, call.addedEvents = .ok adds → lastAdded adds key = none) :
    self'.normalevents.outstanding key = true := by
  induction calls generalizing self entries with
  | nil =>
    cases h
    exact hkey
  | cons call rest ih =>
    obtain ⟨⟨anomEventEntries, normalEventEntries, next⟩, hcall, hlater⟩ := bind_eq_ok h
    obtain ⟨⟨laterEntries, last⟩, hrest, hlast⟩ := bind_eq_ok hlater
    cases hlast
    obtain ⟨adds, requests, served, mid, hadds, -, -, -, hkeys⟩ := exec_outstanding hself hcall
    obtain ⟨hafter, hmid, -⟩ := hkeys key
    apply ih (exec_disjoint hcall) hrest
    · rw [hafter, hmid]
      exact Or.inl ⟨hkey, hcalls call List.mem_cons_self adds hadds⟩
    · exact fun c hc => hcalls c (List.mem_cons_of_mem _ hc)

/-- Over any run of calls every normal event is output at most as often as it was stored. After
each call no key is both stored and outstanding. A key becomes outstanding on a call exactly if
it is requested while nothing is stored for it. It stays so until a call stores an event for it,
which outputs the event and clears the request. -/
theorem normalEvents_delivered_once {calls : List (ProvenanceCall E)} {entries : List E}
    {self : ADAnomalyProvenance E} (h : new.runCalls calls = .ok (entries, self)) :
    (∃ adds, calls.mapM ProvenanceCall.addedEvents = .ok adds ∧
      entries.Subperm (adds.flatten.map Prod.snd)) ∧
    (∀ key, ¬ (self.normalevents.outstanding key = true ∧
      (self.normalevents.stored key).isSome = true)) ∧
    (∀ (call : ProvenanceCall E) (anomEventEntries normalEventEntries : List E)
        (self' : ADAnomalyProvenance E),
      call.exec self = .ok (anomEventEntries, normalEventEntries, self') →
      ∃ adds requests served mid, call.addedEvents = .ok adds ∧
        call.requestedKeys = .ok requests ∧
        self.serveNormalEvents call.getEventProvenance call.iface = .ok (served, mid) ∧
        served <+: normalEventEntries ∧ ∀ key,
          (self'.normalevents.outstanding key = true ↔
            mid.outstanding key = true ∨ key ∈ requests ∧ mid.stored key = none) ∧
          (mid.outstanding key = true ↔
            self.normalevents.outstanding key = true ∧ lastAdded adds key = none) ∧
          ∀ event, self.normalevents.outstanding key = true → lastAdded adds key = some event →
            event ∈ served) ∧
    ∀ key later laterEntries self', self.normalevents.outstanding key = true →
      self.runCalls later = .ok (laterEntries, self') →
      (∀ call ∈ later, ∀ adds, call.addedEvents = .ok adds → lastAdded adds key = none) →
      self'.normalevents.outstanding key = true := by
  have hempty : Store.Run [] [] (new : ADAnomalyProvenance E).normalevents.toStore := by
    change Store.Run [] [] ADNormalEventProvenance.new.toStore
    rw [ADNormalEventProvenance.toStore_new]
    exact .nil
  obtain ⟨all, outs, hadds, rfl, hnodup, hrun⟩ :=
    runCalls_run h hempty fun c hc => absurd hc List.not_mem_nil
  have hdisjoint : self.Disjoint := hrun.disjoint hnodup
  refine ⟨⟨all.map Call.adds, hadds, ?_⟩, ?_, ?_, ?_⟩
  · rw [← List.flatMap_def]
    obtain ⟨given, hperm, hsublist⟩ := hrun.subperm
    exact ⟨given.map Prod.snd, hperm.map Prod.snd, hsublist.map Prod.snd⟩
  · rintro key ⟨houtstanding, hstored⟩
    rw [hdisjoint key houtstanding] at hstored
    cases hstored
  · intro call anomEventEntries normalEventEntries self' hcall
    exact exec_outstanding hdisjoint hcall
  · intro key later laterEntries self' hkey hlater hcalls
    exact outstanding_persists hdisjoint hlater hkey hcalls

/-- An execution of function 7 with an exclusive runtime. -/
private def executionOfSeven (exclusive : ℤ) : ExecData :=
  { (default : ExecData) with fid := 7, exclusive := exclusive }

/-- A step with one labeled execution of function 7. -/
private def stepWithSeven (label : EventType) (exclusive : ℤ) : ProvenanceCall ℤ where
  minAnomTime := 3
  getEventProvenance e := pure e.exclusive
  anomEventEntries := []
  iface :=
    { source := ADExecDataInterface.new
        { ADEvent.new with
          calls := fun _ => executionOfSeven exclusive, execDataMap := fun _ => [0] }
        [7] .exclusiveRuntime
      dsetAnom :=
        [DataSetAnomalies.new.recordEvent { Elem.new exclusive 0 with label := label }] }

/-- An anomaly asks for a normal event, which is output two steps later, when there is one. -/
theorem normalEvents_delivered_once_twoStepsLater :
    ∃ self : ADAnomalyProvenance ℤ,
      new.runCalls [stepWithSeven .outlier 9, stepWithSeven .outlier 1,
        stepWithSeven .normal 4] = .ok ([4], self) ∧
      ∀ key, ¬ (self.normalevents.outstanding key = true ∧
        (self.normalevents.stored key).isSome = true) := by
  have hrun : ∃ self : ADAnomalyProvenance ℤ,
      new.runCalls [stepWithSeven .outlier 9, stepWithSeven .outlier 1,
        stepWithSeven .normal 4] = .ok ([4], self) := ⟨_, rfl⟩
  obtain ⟨self, hself⟩ := hrun
  exact ⟨self, hself, (normalEvents_delivered_once hself).2.1⟩

end ADAnomalyProvenance

end Chimbuko
