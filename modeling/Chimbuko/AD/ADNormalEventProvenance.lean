import Chimbuko.Library.NestedMap

/-!
# Normal events kept for comparison

`ad/ADNormalEventProvenance`: the provenance of the latest normal event of each function on each
thread, and the functions for which one was requested while there was none. Both are maps of
process, rank, thread and function, the second one with a set of functions at the innermost level.
-/

namespace Chimbuko

open NestedMap RequestStore

/-- Process, rank, thread and function. -/
abbrev NormalEventKey := ℕ × ℕ × ℕ × ℕ

/-- The last normal event of each function on each thread, and the requests for one. -/
structure ADNormalEventProvenance (E : Type) where
  normalEvents :
    AList fun _ : ℕ => AList fun _ : ℕ => AList fun _ : ℕ => AList fun _ : ℕ => E
  /-- The innermost maps are sets. -/
  outstandingNormalEvents :
    AList fun _ : ℕ => AList fun _ : ℕ => AList fun _ : ℕ => AList fun _ : ℕ => Unit

namespace ADNormalEventProvenance

variable {E : Type}

/-- No events and no requests. -/
def new : ADNormalEventProvenance E := { normalEvents := ∅, outstandingNormalEvents := ∅ }

/-- Keep a normal event instead of the last one of its function. -/
def addNormalEvent (self : ADNormalEventProvenance E) (pid rid tid fid : ℕ) (event : E) :
    ADNormalEventProvenance E :=
  { self with
    normalEvents := adjust pid (adjust rid (adjust tid fun m => m.insert fid event))
      self.normalEvents }

/-- Note that a normal event is wanted. -/
def addOutstanding (self : ADNormalEventProvenance E) (pid rid tid fid : ℕ) :
    ADNormalEventProvenance E :=
  { self with
    outstandingNormalEvents := adjust pid (adjust rid (adjust tid fun m => m.insert fid ()))
      self.outstandingNormalEvents }

/-- Get a normal event if there is one. If there is none, that may be put on record; if there is
one, it may be deleted. -/
def getNormalEvent (self : ADNormalEventProvenance E) (pid rid tid fid : ℕ)
    (addOutstanding doDelete : Bool) : Option E × ADNormalEventProvenance E :=
  let missing := (none, if addOutstanding then self.addOutstanding pid rid tid fid else self)
  match self.normalEvents.lookup pid with
  | none => missing
  | some ranks =>
    match ranks.lookup rid with
    | none => missing
    | some threads =>
      match threads.lookup tid with
      | none => missing
      | some functions =>
        match functions.lookup fid with
        | none => missing
        | some event =>
          (some event,
            if doDelete then
              { self with
                normalEvents := adjust pid (adjust rid (adjust tid fun m => m.erase fid))
                  self.normalEvents }
            else self)

/-- Serve the outstanding functions of a thread that have an event now. -/
def serveFunctions (doDelete : Bool) : List ℕ → (AList fun _ : ℕ => Unit) →
    (AList fun _ : ℕ => E) → List E × (AList fun _ : ℕ => Unit) × (AList fun _ : ℕ => E)
  | [], oe, ne => ([], oe, ne)
  | fid :: rest, oe, ne =>
    match ne.lookup fid with
    | none => serveFunctions doDelete rest oe ne
    | some event =>
      let t := serveFunctions doDelete rest (oe.erase fid) (if doDelete then ne.erase fid else ne)
      (event :: t.1, t.2)

/-- The events of outstanding requests that can be served now. -/
def getOutstandingRequests (self : ADNormalEventProvenance E) (doDelete : Bool) :
    List E × ADNormalEventProvenance E :=
  let serveThread := fun oe ne => serveFunctions doDelete oe.keys oe ne
  let (out, oe, ne) := visitBoth (visitBoth (visitBoth serveThread))
    self.outstandingNormalEvents self.normalEvents
  (out, { normalEvents := ne, outstandingNormalEvents := oe })

/-- The event that is stored for a key. -/
def stored (self : ADNormalEventProvenance E) : NormalEventKey → Option E :=
  under (under (under single)) self.normalEvents

/-- Whether a request is outstanding for a key. -/
def outstanding (self : ADNormalEventProvenance E) (key : NormalEventKey) : Bool :=
  (under (under (under single)) self.outstandingNormalEvents key).isSome

/-- The store of latest items that the two maps make. -/
def toStore (self : ADNormalEventProvenance E) : Store NormalEventKey E :=
  store (under (under (under single))) (under (under (under single)))
    self.outstandingNormalEvents self.normalEvents

/-- The store has the events. -/
theorem toStore_stored (self : ADNormalEventProvenance E) : self.toStore.stored = self.stored :=
  rfl

/-- The empty maps are the empty store. -/
theorem toStore_new : (new : ADNormalEventProvenance E).toStore = Store.empty := by
  apply congrArg₂ Store.mk
  · funext key
    exact under_empty _ key
  · funext key
    simp [new]

/-- Changing an innermost map changes the value of one key. -/
theorem view_adjust {V : Type} {f : (AList fun _ : ℕ => V) → AList fun _ : ℕ => V} {fid : ℕ}
    {v : Option V} (hf : ∀ m, single (f m) = Function.update (single m) fid v) (pid rid tid : ℕ)
    (m : AList fun _ : ℕ => AList fun _ : ℕ => AList fun _ : ℕ => AList fun _ : ℕ => V) :
    under (under (under single)) (adjust pid (adjust rid (adjust tid f)) m) =
      Function.update (under (under (under single)) m) (pid, rid, tid, fid) v := by
  apply under_adjust (under_empty _)
  apply under_adjust (under_empty _)
  exact under_adjust single_empty hf tid

/-- Keeping an event adds it to the store. -/
theorem toStore_addNormalEvent (self : ADNormalEventProvenance E) (pid rid tid fid : ℕ)
    (event : E) : (self.addNormalEvent pid rid tid fid event).toStore =
      self.toStore.add ((pid, rid, tid, fid), event) := by
  unfold toStore addNormalEvent store Store.add
  rw [view_adjust fun m => single_insert m fid event]

/-- An event that is wanted is noted. -/
theorem wanted_addOutstanding (self : ADNormalEventProvenance E) (pid rid tid fid : ℕ)
    (key : NormalEventKey) : (self.addOutstanding pid rid tid fid).outstanding key = true ↔
      self.outstanding key = true ∨ key = (pid, rid, tid, fid) := by
  unfold outstanding addOutstanding
  rw [view_adjust fun m => single_insert m fid (), Function.update_apply]
  split
  · rename_i hkey
    simp [hkey]
  · rename_i hkey
    simp [hkey]

/-- Getting a normal event depends on what is stored for its key. -/
theorem getNormalEvent_eq (self : ADNormalEventProvenance E) (pid rid tid fid : ℕ)
    (addOutstanding doDelete : Bool) :
    self.getNormalEvent pid rid tid fid addOutstanding doDelete =
      match self.stored (pid, rid, tid, fid) with
      | none => (none, if addOutstanding then self.addOutstanding pid rid tid fid else self)
      | some event =>
        (some event,
          if doDelete then
            { self with
              normalEvents := adjust pid (adjust rid (adjust tid fun m => m.erase fid))
                self.normalEvents }
          else self) := by
  unfold getNormalEvent stored under single
  cases hp : self.normalEvents.lookup pid with
  | none => simp
  | some ranks =>
    cases hr : ranks.lookup rid with
    | none => simp [hr]
    | some threads =>
      cases ht : threads.lookup tid with
      | none => simp [hr, ht]
      | some functions =>
        cases hf : functions.lookup fid with
        | none => simp [hr, ht, hf]
        | some event => simp [hr, ht, hf]

/-- Getting a normal event with both flags set is a request. -/
theorem toStore_getNormalEvent (self : ADNormalEventProvenance E) (pid rid tid fid : ℕ) :
    ((self.getNormalEvent pid rid tid fid true true).1,
      (self.getNormalEvent pid rid tid fid true true).2.toStore) =
        self.toStore.request (pid, rid, tid, fid) := by
  rw [getNormalEvent_eq]
  unfold Store.request
  rw [toStore_stored]
  cases h : self.stored (pid, rid, tid, fid) with
  | none =>
    refine Prod.ext rfl (congrArg₂ Store.mk rfl ?_)
    funext key
    exact propext (wanted_addOutstanding self pid rid tid fid key)
  | some event =>
    refine Prod.ext rfl ?_
    unfold toStore store
    dsimp only [if_pos]
    rw [if_pos rfl]
    rw [view_adjust fun m => single_erase m fid]
    rfl

/-- What the loop over a thread's functions collects and leaves. -/
private theorem serveFunctions_spec (doDelete : Bool) {fids : List ℕ} (hnodup : fids.Nodup)
    (oe : AList fun _ : ℕ => Unit) (ne : AList fun _ : ℕ => E) :
    ∃ served : List (ℕ × E),
      (serveFunctions doDelete fids oe ne).1 = served.map Prod.snd ∧
      (served.map Prod.fst).Nodup ∧
      (∀ k e, (k, e) ∈ served ↔ k ∈ fids ∧ ne.lookup k = some e) ∧
      (∀ k, (serveFunctions doDelete fids oe ne).2.1.lookup k =
        if k ∈ fids ∧ (ne.lookup k).isSome then none else oe.lookup k) ∧
      ∀ k, (serveFunctions doDelete fids oe ne).2.2.lookup k =
        if doDelete ∧ k ∈ fids then none else ne.lookup k := by
  induction fids generalizing oe ne with
  | nil =>
    exact ⟨[], rfl, List.nodup_nil, by simp, by simp [serveFunctions], by simp [serveFunctions]⟩
  | cons fid rest ih =>
    rw [List.nodup_cons] at hnodup
    unfold serveFunctions
    cases hfid : ne.lookup fid with
    | none =>
      obtain ⟨served, hout, hkeys, hmem, hoe, hne⟩ := ih hnodup.2 oe ne
      refine ⟨served, hout, hkeys, ?_, ?_, ?_⟩
      · intro k e
        rw [hmem, List.mem_cons]
        by_cases hk : k = fid
        · subst hk
          simp [hfid]
        · simp [hk]
      · intro k
        rw [hoe]
        by_cases hk : k = fid
        · subst hk
          simp [hfid]
        · simp [hk]
      · intro k
        rw [hne]
        by_cases hk : k = fid
        · subst hk
          simp [hfid]
        · simp [hk]
    | some event =>
      obtain ⟨served, hout, hkeys, hmem, hoe, hne⟩ :=
        ih hnodup.2 (oe.erase fid) (if doDelete then ne.erase fid else ne)
      have hother : ∀ k, k ≠ fid →
          (if doDelete then ne.erase fid else ne).lookup k = ne.lookup k := by
        intro k hk
        split
        · exact AList.lookup_erase_ne hk
        · rfl
      refine ⟨(fid, event) :: served, congrArg _ hout, ?_, ?_, ?_, ?_⟩
      · rw [List.map_cons, List.nodup_cons]
        refine ⟨?_, hkeys⟩
        intro hcontra
        obtain ⟨⟨k, e⟩, hk, rfl⟩ := List.mem_map.mp hcontra
        exact hnodup.1 ((hmem k e).mp hk).1
      · intro k e
        rw [List.mem_cons, hmem, List.mem_cons]
        by_cases hk : k = fid
        · subst hk
          simp [hfid, hnodup.1, eq_comm]
        · rw [hother k hk]
          simp [hk]
      · intro k
        rw [hoe]
        by_cases hk : k = fid
        · subst hk
          simp [hfid]
        · rw [hother k hk, AList.lookup_erase_ne hk]
          simp [hk]
      · intro k
        rw [hne]
        by_cases hk : k = fid
        · subst hk
          cases doDelete with
          | true => simp
          | false => simp [hnodup.1]
        · rw [hother k hk]
          simp [hk]

/-- The loop over a thread's functions serves them. -/
theorem serveFunctions_serves (doDelete : Bool) :
    ServesBoth doDelete single single
      fun oe (ne : AList fun _ : ℕ => E) => serveFunctions doDelete oe.keys oe ne := by
  intro oe ne
  have hwanted : ∀ k, k ∈ oe.keys ↔ (oe.lookup k).isSome = true := by
    intro k
    rw [AList.lookup_isSome]
    exact Iff.rfl
  obtain ⟨served, hout, hkeys, hmem, hoe, hne⟩ :=
    serveFunctions_spec doDelete oe.keys_nodup oe ne
  refine ⟨served, hout, hkeys, ?_, ?_, ?_, ?_⟩
  · intro k e
    rw [hmem, hwanted]
    exact Iff.rfl
  · intro k
    simp only [store, single, hoe, hwanted]
    cases ne.lookup k with
    | none => simp
    | some e =>
      cases oe.lookup k with
      | none => simp
      | some u => simp
  · intro k hk
    simp only [store, single, hne, hwanted] at hk ⊢
    rw [if_neg hk]
  · intro k hdel hk
    simp only [store, single, hne, hwanted] at hk ⊢
    rw [if_pos ⟨hdel, hk⟩]

/-- Serving the outstanding requests serves the store. -/
theorem toStore_getOutstandingRequests (self : ADNormalEventProvenance E) (doDelete : Bool) :
    ∃ served : List (NormalEventKey × E),
      (self.getOutstandingRequests doDelete).1 = served.map Prod.snd ∧
      Store.Serves doDelete self.toStore served
        (self.getOutstandingRequests doDelete).2.toStore :=
  servesBoth_visitBoth (servesBoth_visitBoth (servesBoth_visitBoth
    (serveFunctions_serves doDelete))) self.outstandingNormalEvents self.normalEvents

end ADNormalEventProvenance

end Chimbuko
