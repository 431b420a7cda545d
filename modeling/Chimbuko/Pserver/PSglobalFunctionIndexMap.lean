import Chimbuko.Library.KeyedMap

/-!
# Global function indices

`PSglobalFunctionIndexMap` gives every pair of a program index and a function name an index of
its own. The clients' requests and restarts from a stored map come in any order; a batched
request is a sequence of single lookups, between which other clients may be served. The map is
stored through a JSON library, which is taken to restore what it stored.
-/

namespace Chimbuko

open KeyedMap

/-- The map between the program index and function name and the global index. -/
abbrev FunctionMap := AList fun _ : ℕ => AList fun _ : String => ℕ

/-- A JSON library that restores the maps it stored. -/
structure JsonLibrary where
  Json : Type
  toJson : FunctionMap → Json
  get : Json → FunctionMap
  find_get : ∀ fmap key, find (get (toJson fmap)) key = find fmap key

/-- A library that stores a map as the array of its pairs, as is done for a map whose keys are not
strings. -/
def JsonLibrary.arrays : JsonLibrary where
  Json := List (ℕ × List (String × ℕ))
  toJson fmap := fmap.entries.map fun e => (e.1, e.2.entries.map fun f => (f.1, f.2))
  get json := ofPairs (json.map fun e => (e.1, ofPairs e.2))
  find_get fmap key := by
    have houter := lookup_ofPairs (fun names : AList fun _ : String => ℕ =>
      ofPairs (names.entries.map fun f => (f.1, f.2))) fmap key.1
    rw [List.map_map]
    change ((ofPairs (fmap.entries.map fun e =>
      (e.1, ofPairs (e.2.entries.map fun f => (f.1, f.2))))).lookup key.1).bind _ = _
    rw [houter, find]
    cases fmap.lookup key.1 with
    | none => rfl
    | some names =>
      change (ofPairs (names.entries.map fun f => (f.1, f.2))).lookup key.2 = names.lookup key.2
      exact (lookup_ofPairs id names key.2).trans Option.map_id'

/-- The map on the server. -/
structure PSglobalFunctionIndexMap where
  fmap : FunctionMap
  /-- The next unassigned index. -/
  idx : ℕ

namespace PSglobalFunctionIndexMap

/-- No function has an index. -/
def new : PSglobalFunctionIndexMap := { fmap := ∅, idx := 0 }

/-- Look up a function by name and return the index. -/
def lookup (self : PSglobalFunctionIndexMap) (pid : ℕ) (funcName : String) :
    PSglobalFunctionIndexMap × ℕ :=
  let fmapPid := (self.fmap.lookup pid).getD ∅
  match fmapPid.lookup funcName with
  | none =>
    ({ fmap := self.fmap.insert pid (fmapPid.insert funcName self.idx), idx := self.idx + 1 },
      self.idx)
  | some fidx => (self, fidx)

/-- Whether a function has an index. -/
def contains (self : PSglobalFunctionIndexMap) (pid : ℕ) (funcName : String) : Bool :=
  (find self.fmap (pid, funcName)).isSome

/-- The map as a JSON text. -/
def serialize (self : PSglobalFunctionIndexMap) (json : JsonLibrary) : json.Json :=
  json.toJson self.fmap

/-- The next index is set to one after the largest previously assigned value. -/
def deserialize (json : JsonLibrary) (stored : json.Json) : PSglobalFunctionIndexMap :=
  let fmap := json.get stored
  let max := (flatten fmap).foldl (fun max e => Nat.max max e.2) 0
  { fmap := fmap, idx := max + 1 }

/-- The map from indices to program indices and function names. -/
def getFunctionIndexMap (self : PSglobalFunctionIndexMap) : AList fun _ : ℕ => ℕ × String :=
  (flatten self.fmap).foldl (fun out e => out.insert e.2 e.1) ∅

/-- Serve a batched request. -/
def lookupBatched (self : PSglobalFunctionIndexMap) (pid : ℕ) :
    List String → PSglobalFunctionIndexMap × List ℕ
  | [] => (self, [])
  | funcName :: rest =>
    let (self, idx) := self.lookup pid funcName
    let (self, indices) := self.lookupBatched pid rest
    (self, idx :: indices)

/-- No two functions share an index, and all indices are less than the next one. -/
structure Valid (map : PSglobalFunctionIndexMap) : Prop where
  lt_idx : ∀ key i, find map.fmap key = some i → i < map.idx
  injective : ∀ key key' i, find map.fmap key = some i → find map.fmap key' = some i →
    key = key'

/-- A new map is valid. -/
theorem valid_new : new.Valid :=
  ⟨fun _ _ h => (nomatch h), fun _ _ _ h => (nomatch h)⟩

/-- A lookup returns the index of a known function, or gives the next index to a new one. -/
theorem lookup_eq (self : PSglobalFunctionIndexMap) (pid : ℕ) (funcName : String) :
    (∃ i, find self.fmap (pid, funcName) = some i ∧ self.lookup pid funcName = (self, i)) ∨
    find self.fmap (pid, funcName) = none ∧ (self.lookup pid funcName).2 = self.idx ∧
      (self.lookup pid funcName).1.idx = self.idx + 1 ∧
      ∀ key, find (self.lookup pid funcName).1.fmap key =
        if key = (pid, funcName) then some self.idx else find self.fmap key := by
  have hfind : find self.fmap (pid, funcName) =
      ((self.fmap.lookup pid).getD ∅).lookup funcName := by
    change (self.fmap.lookup pid).bind _ = _
    cases self.fmap.lookup pid with
    | none => rw [Option.bind_none, Option.getD_none, AList.lookup_empty]
    | some fmapPid => rfl
  rw [hfind, lookup]
  cases ((self.fmap.lookup pid).getD ∅).lookup funcName with
  | none => exact Or.inr ⟨rfl, rfl, rfl, fun key => find_insert self.fmap (pid, funcName) key _⟩
  | some i => exact Or.inl ⟨i, rfl, rfl⟩

/-- A lookup leaves the returned index at its function, and every other index where it was. -/
theorem find_lookup (self : PSglobalFunctionIndexMap) (pid : ℕ) (funcName : String) :
    find (self.lookup pid funcName).1.fmap (pid, funcName) =
        some (self.lookup pid funcName).2 ∧
      ∀ key i, find self.fmap key = some i →
        find (self.lookup pid funcName).1.fmap key = some i := by
  rcases self.lookup_eq pid funcName with ⟨i, hfind, heq⟩ | ⟨hnone, hidx, -, hafter⟩
  · rw [heq]
    exact ⟨hfind, fun _ _ h => h⟩
  · refine ⟨?_, fun key i hkey => ?_⟩
    · rw [hafter, if_pos rfl, hidx]
    · rw [hafter, if_neg]
      · exact hkey
      · rintro rfl
        rw [hnone] at hkey
        cases hkey

/-- What a lookup finds afterwards was there or is its answer. -/
theorem find_of_lookup {self : PSglobalFunctionIndexMap} {pid : ℕ} {funcName : String}
    {key : ℕ × String} {i : ℕ} (h : find (self.lookup pid funcName).1.fmap key = some i) :
    find self.fmap key = some i ∨
      key = (pid, funcName) ∧ i = (self.lookup pid funcName).2 := by
  rcases self.lookup_eq pid funcName with ⟨j, -, heq⟩ | ⟨-, hidx, -, hafter⟩
  · rw [heq] at h
    exact Or.inl h
  · rw [hafter] at h
    split at h
    · rename_i hkey
      exact Or.inr ⟨hkey, (Option.some.inj h).symm.trans hidx.symm⟩
    · exact Or.inl h

/-- Looking a known function up changes nothing. -/
theorem lookup_of_find {self : PSglobalFunctionIndexMap} {pid : ℕ} {funcName : String} {i : ℕ}
    (h : find self.fmap (pid, funcName) = some i) : self.lookup pid funcName = (self, i) := by
  rcases self.lookup_eq pid funcName with ⟨j, hfind, heq⟩ | ⟨hnone, -⟩
  · rw [heq, Option.some.inj (hfind.symm.trans h)]
  · rw [h] at hnone
    cases hnone

/-- A batched request is answered with what the map holds afterwards. -/
theorem find_lookupBatched (self : PSglobalFunctionIndexMap) (pid : ℕ)
    (funcNames : List String) :
    List.Forall₂ (fun funcName i =>
        find (self.lookupBatched pid funcNames).1.fmap (pid, funcName) = some i)
        funcNames (self.lookupBatched pid funcNames).2 ∧
      ∀ key i, find self.fmap key = some i →
        find (self.lookupBatched pid funcNames).1.fmap key = some i := by
  induction funcNames generalizing self with
  | nil => exact ⟨.nil, fun _ _ h => h⟩
  | cons funcName rest ih =>
    obtain ⟨hself, hother⟩ := self.find_lookup pid funcName
    obtain ⟨hrest, hmono⟩ := ih (self.lookup pid funcName).1
    exact ⟨.cons (hmono _ _ hself) hrest, fun key i hi => hmono key i (hother key i hi)⟩

/-- A lookup keeps the indices distinct and below the next one. -/
theorem Valid.lookup {self : PSglobalFunctionIndexMap} (h : self.Valid) (pid : ℕ)
    (funcName : String) : (self.lookup pid funcName).1.Valid := by
  rcases self.lookup_eq pid funcName with ⟨i, -, heq⟩ | ⟨-, -, hidx, hafter⟩
  · rw [heq]
    exact h
  have hold : ∀ key i, key ≠ (pid, funcName) →
      find (self.lookup pid funcName).1.fmap key = some i → find self.fmap key = some i := by
    intro key i hkey hi
    rw [hafter, if_neg hkey] at hi
    exact hi
  have hnew : ∀ i, find (self.lookup pid funcName).1.fmap (pid, funcName) = some i →
      i = self.idx := by
    intro i hi
    rw [hafter, if_pos rfl] at hi
    exact (Option.some.inj hi).symm
  refine ⟨fun key i hi => ?_, fun key key' i hi hi' => ?_⟩
  · rw [hidx]
    by_cases hkey : key = (pid, funcName)
    · rw [hnew i (hkey ▸ hi)]
      exact Nat.lt_succ_self _
    · exact Nat.lt_succ_of_lt (h.lt_idx key i (hold key i hkey hi))
  · by_cases hkey : key = (pid, funcName) <;> by_cases hkey' : key' = (pid, funcName)
    · rw [hkey, hkey']
    · have hlt := h.lt_idx key' i (hold key' i hkey' hi')
      exact absurd (hnew i (hkey ▸ hi)) (Nat.ne_of_lt hlt)
    · have hlt := h.lt_idx key i (hold key i hkey hi)
      exact absurd (hnew i (hkey' ▸ hi')) (Nat.ne_of_lt hlt)
    · exact h.injective key key' i (hold key i hkey hi) (hold key' i hkey' hi')

/-- The largest index is no smaller than any. -/
theorem le_foldl_max (entries : List ((ℕ × String) × ℕ)) (m : ℕ) :
    m ≤ entries.foldl (fun max e => Nat.max max e.2) m ∧
      ∀ e ∈ entries, e.2 ≤ entries.foldl (fun max e => Nat.max max e.2) m := by
  induction entries generalizing m with
  | nil => exact ⟨le_rfl, fun e he => by cases he⟩
  | cons e rest ih =>
    obtain ⟨hm, hrest⟩ := ih (Nat.max m e.2)
    refine ⟨Nat.le_trans (Nat.le_max_left m e.2) hm, fun e' he' => ?_⟩
    rcases List.mem_cons.mp he' with rfl | hmem
    · exact Nat.le_trans (Nat.le_max_right m e'.2) hm
    · exact hrest e' hmem

/-- A restored map finds what the stored one did. -/
theorem find_deserialize (json : JsonLibrary) (self : PSglobalFunctionIndexMap)
    (key : ℕ × String) : find (deserialize json (self.serialize json)).fmap key =
      find self.fmap key :=
  json.find_get self.fmap key

/-- Restoring keeps the indices distinct and below the next one. -/
theorem Valid.deserialize {self : PSglobalFunctionIndexMap} (h : self.Valid)
    (json : JsonLibrary) : (deserialize json (self.serialize json)).Valid := by
  refine ⟨fun key i hi => ?_, fun key key' i hi hi' => ?_⟩
  · have hmem := mem_flatten.mpr hi
    exact Nat.lt_succ_of_le ((le_foldl_max _ 0).2 _ hmem)
  · rw [find_deserialize] at hi hi'
    exact h.injective key key' i hi hi'

/-- The map from indices to functions is the inverse of the map. -/
theorem Valid.lookup_getFunctionIndexMap {self : PSglobalFunctionIndexMap} (h : self.Valid)
    (key : ℕ × String) (i : ℕ) :
    self.getFunctionIndexMap.lookup i = some key ↔ find self.fmap key = some i := by
  have hfold : self.getFunctionIndexMap =
      ((flatten self.fmap).map Prod.swap).foldl (fun acc p => acc.insert p.1 p.2) ∅ := by
    rw [List.foldl_map]
    rfl
  rw [hfold, lookup_foldl_insert]
  · rw [← mem_flatten]
    have hempty : (∅ : AList fun _ : ℕ => ℕ × String).lookup i = none := AList.lookup_empty i
    simp [List.mem_map, hempty]
  · intro p hp q hq heq
    obtain ⟨⟨key, j⟩, he, rfl⟩ := List.mem_map.mp hp
    obtain ⟨⟨key', j'⟩, he', rfl⟩ := List.mem_map.mp hq
    obtain rfl : j = j' := heq
    rw [h.injective key key' j (mem_flatten.mp he) (mem_flatten.mp he')]

end PSglobalFunctionIndexMap

/-- The map on the server, and the answers to all lookups so far. -/
structure FunctionIndexSystem where
  server : PSglobalFunctionIndexMap
  answers : List ((ℕ × String) × ℕ)

/-- A function is looked up for some client, or the map is stored and restored. -/
inductive FunctionIndexAction
  | lookup (pid : ℕ) (funcName : String)
  | restart

namespace FunctionIndexSystem

open PSglobalFunctionIndexMap

/-- A new server, which has answered nothing. -/
def start : FunctionIndexSystem := { server := new, answers := [] }

/-- A lookup is answered; a restart reads the map that was written. -/
def exec (json : JsonLibrary) (s : FunctionIndexSystem) :
    FunctionIndexAction → FunctionIndexSystem
  | .lookup pid funcName =>
    let (server, idx) := s.server.lookup pid funcName
    { server := server, answers := ((pid, funcName), idx) :: s.answers }
  | .restart => { s with server := deserialize json (s.server.serialize json) }

/-- The state after a sequence of actions. -/
def run (json : JsonLibrary) (s : FunctionIndexSystem) (actions : List FunctionIndexAction) :
    FunctionIndexSystem :=
  actions.foldl (exec json) s

/-- A batched request is served by single lookups. -/
theorem run_lookupBatched (json : JsonLibrary) (s : FunctionIndexSystem) (pid : ℕ)
    (funcNames : List String) :
    run json s (funcNames.map fun funcName => .lookup pid funcName) =
      { server := (s.server.lookupBatched pid funcNames).1
        answers := ((funcNames.map fun funcName => (pid, funcName)).zip
          (s.server.lookupBatched pid funcNames).2).reverse ++ s.answers } := by
  induction funcNames generalizing s with
  | nil => rfl
  | cons funcName rest ih =>
    rw [List.map_cons, run, List.foldl_cons]
    change run json (exec json s (.lookup pid funcName)) _ = _
    rw [ih]
    simp [exec, lookupBatched]

/-- The answers are what the map holds. -/
structure Valid (s : FunctionIndexSystem) : Prop where
  server : s.server.Valid
  answers_eq : ∀ key i, (key, i) ∈ s.answers ↔ find s.server.fmap key = some i

/-- The start is valid. -/
theorem valid_start : start.Valid :=
  ⟨valid_new, fun _ _ => ⟨fun h => (nomatch h), fun h => (nomatch h)⟩⟩

/-- Every action keeps the answers up to date. -/
theorem Valid.exec {s : FunctionIndexSystem} (h : s.Valid) (json : JsonLibrary)
    (a : FunctionIndexAction) : (s.exec json a).Valid := by
  cases a with
  | lookup pid funcName =>
    obtain ⟨hself, hother⟩ := s.server.find_lookup pid funcName
    refine ⟨h.server.lookup pid funcName, fun key i => ?_⟩
    change (key, i) ∈ ((pid, funcName), (s.server.lookup pid funcName).2) :: s.answers ↔
      find (s.server.lookup pid funcName).1.fmap key = some i
    rw [List.mem_cons, h.answers_eq]
    constructor
    · rintro (heq | hfind)
      · cases heq
        exact hself
      · exact hother key i hfind
    · intro hfind
      rcases find_of_lookup hfind with hold | ⟨rfl, rfl⟩
      · exact Or.inr hold
      · exact Or.inl rfl
  | restart =>
    refine ⟨h.server.deserialize json, fun key i => ?_⟩
    change (key, i) ∈ s.answers ↔ find (deserialize json (s.server.serialize json)).fmap key = some i
    rw [find_deserialize]
    exact h.answers_eq key i

/-- Every run leaves a valid system. -/
theorem valid_run (json : JsonLibrary) (actions : List FunctionIndexAction) :
    (run json start actions).Valid := by
  have hfold : ∀ s : FunctionIndexSystem, s.Valid → (run json s actions).Valid := by
    induction actions with
    | nil => exact fun s hs => hs
    | cons a rest ih => exact fun s hs => ih _ (hs.exec json a)
  exact hfold start valid_start

/-- After any lookups and restarts, two answers have the same index if and only if they are for
the same function, the map holds exactly the answers, so that a later lookup returns the same
index, all indices are less than the next one, and the map from indices to functions is the
inverse. -/
theorem indices_correct (json : JsonLibrary) (actions : List FunctionIndexAction) :
    (∀ a ∈ (run json start actions).answers, ∀ b ∈ (run json start actions).answers,
        a.1 = b.1 ↔ a.2 = b.2) ∧
      (∀ a ∈ (run json start actions).answers,
        a.2 < (run json start actions).server.idx ∧
        ∀ later, ((run json start (actions ++ later)).server.lookup a.1.1 a.1.2).2 = a.2) ∧
      ∀ key i, ((run json start actions).server.getFunctionIndexMap.lookup i = some key ↔
          find (run json start actions).server.fmap key = some i) ∧
        ((key, i) ∈ (run json start actions).answers ↔
          find (run json start actions).server.fmap key = some i) := by
  have hs := valid_run json actions
  have hanswer : ∀ a ∈ (run json start actions).answers,
      find (run json start actions).server.fmap a.1 = some a.2 := fun a ha =>
    (hs.answers_eq a.1 a.2).mp ha
  have hmono : ∀ (later : List FunctionIndexAction) (s : FunctionIndexSystem) {a},
      a ∈ s.answers → a ∈ (run json s later).answers := by
    intro later
    induction later with
    | nil => exact fun s _ ha => ha
    | cons action rest ih =>
      intro s _ ha
      refine ih (s.exec json action) ?_
      cases action with
      | lookup pid funcName => exact List.mem_cons_of_mem _ ha
      | restart => exact ha
  refine ⟨fun a ha b hb => ⟨fun heq => ?_, fun heq => ?_⟩, fun a ha => ⟨?_, fun later => ?_⟩,
    fun key i => ⟨hs.server.lookup_getFunctionIndexMap key i, hs.answers_eq key i⟩⟩
  · exact Option.some.inj ((hanswer a ha).symm.trans (heq ▸ hanswer b hb))
  · exact hs.server.injective a.1 b.1 a.2 (hanswer a ha) (heq ▸ hanswer b hb)
  · exact hs.server.lt_idx a.1 a.2 (hanswer a ha)
  · have hrun : run json start (actions ++ later) = run json (run json start actions) later :=
      List.foldl_append
    have hlater := ((valid_run json (actions ++ later)).answers_eq a.1 a.2).mp
      (hrun ▸ hmono later _ ha)
    rcases (run json start (actions ++ later)).server.lookup_eq a.1.1 a.1.2 with
      ⟨i, hfind, heq⟩ | ⟨hnone, -⟩
    · rw [heq]
      exact Option.some.inj (hfind.symm.trans hlater)
    · rw [hlater] at hnone
      cases hnone

/-- Two functions of one program and one of another are looked up, and the first again after a
restart, before a function of the same name in a third program. -/
def restartedLookups : List FunctionIndexAction :=
  [.lookup 0 "main", .lookup 0 "send", .lookup 1 "main", .restart, .lookup 0 "main",
    .lookup 2 "main"]

/-- The function has its index again, and the new one gets one that was not given before. -/
theorem indices_correct_restartedLookups :
    (run .arrays start restartedLookups).answers =
      [((2, "main"), 3), ((0, "main"), 0), ((1, "main"), 2), ((0, "send"), 1), ((0, "main"), 0)] ∧
    (∀ a ∈ (run .arrays start restartedLookups).answers,
      ∀ b ∈ (run .arrays start restartedLookups).answers, a.1 = b.1 ↔ a.2 = b.2) ∧
    ∀ key i, (run .arrays start restartedLookups).server.getFunctionIndexMap.lookup i = some key ↔
      find (run .arrays start restartedLookups).server.fmap key = some i := by
  obtain ⟨hanswers, -, hinverse⟩ := indices_correct .arrays restartedLookups
  exact ⟨by decide +kernel, hanswers, fun key i => (hinverse key i).1⟩

end FunctionIndexSystem

end Chimbuko
