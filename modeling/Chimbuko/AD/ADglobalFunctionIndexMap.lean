import Chimbuko.Library.TransitionSystem
import Chimbuko.Pserver.PSglobalFunctionIndexMap

/-!
# Function index lookups on the ranks

`ADglobalFunctionIndexMap` caches the global indices of a rank's functions by their local index
and asks the server for those it does not know, one by one or in a batch. The batch decides which
functions it has to ask for before the cache is filled, so a local index that occurs in it twice
is asked for twice.

Ranks wait for the answers to their requests, while the server looks up the names of different
ranks' requests in any order.
-/

namespace Chimbuko

open KeyedMap TransitionSystem

/-- The indices that a rank knows. -/
structure ADglobalFunctionIndexMap where
  /-- Whether the parameter server is connected. -/
  connectedToPS : Bool
  /-- The global indices by local index. -/
  idxmap : ℕ → Option ℕ
  pid : ℕ

namespace ADglobalFunctionIndexMap

/-- Look up the global index that corresponds to a local index. -/
def lookup (self : ADglobalFunctionIndexMap) (server : PSglobalFunctionIndexMap) (localIdx : ℕ)
    (funcName : String) : ADglobalFunctionIndexMap × PSglobalFunctionIndexMap × ℕ :=
  if self.connectedToPS then
    match self.idxmap localIdx with
    | some globalIdx => (self, server, globalIdx)
    | none =>
      let (server, globalIdx) := server.lookup self.pid funcName
      ({ self with idxmap := Function.update self.idxmap localIdx (some globalIdx) }, server,
        globalIdx)
  else (self, server, localIdx)

/-- Look up one local index after another. -/
def lookupEach : List (ℕ × String) → ADglobalFunctionIndexMap → PSglobalFunctionIndexMap →
    ADglobalFunctionIndexMap × PSglobalFunctionIndexMap × List ℕ
  | [], self, server => (self, server, [])
  | (localIdx, funcName) :: rest, self, server =>
    let (self, server, globalIdx) := self.lookup server localIdx funcName
    let (self, server, out) := lookupEach rest self server
    (self, server, globalIdx :: out)

/-- The functions that have to be asked for, with their offsets. -/
def getRemote (self : ADglobalFunctionIndexMap) (items : List (ℕ × String)) :
    List ((ℕ × String) × ℕ) :=
  items.zipIdx.filter fun e => self.idxmap e.1.1 = none

/-- Fill in the indices that were asked for. -/
def fillRemote (self : ADglobalFunctionIndexMap) (items : List (ℕ × String))
    (globalIndices : List ℕ) : ADglobalFunctionIndexMap × List ℕ :=
  let received := (self.getRemote items).zip globalIndices
  ({ self with idxmap :=
      received.foldl (fun idxmap e => Function.update idxmap e.1.1.1 (some e.2)) self.idxmap },
    received.foldl (fun out e => out.set e.1.2 e.2)
      (items.map fun item => (self.idxmap item.1).getD 0))

/-- Look up the global indices that correspond to local indices as a batch. -/
def lookupBatch (self : ADglobalFunctionIndexMap) (server : PSglobalFunctionIndexMap)
    (localIdx : List ℕ) (funcName : List String) :
    Except String (ADglobalFunctionIndexMap × PSglobalFunctionIndexMap × List ℕ) :=
  if !self.connectedToPS then pure (self, server, localIdx)
  else if funcName.length ≠ localIdx.length then throw "Size of input arrays differ"
  else
    let items := localIdx.zip funcName
    let remote := self.getRemote items
    if remote.length = 0 then
      pure (self, server, items.map fun item => (self.idxmap item.1).getD 0)
    else
      let (server, globalIndices) := server.lookupBatched self.pid (remote.map fun e => e.1.2)
      if globalIndices.length ≠ remote.length then
        throw "Global indices returned not complete"
      else
        let (self, out) := self.fillRemote items globalIndices
        pure (self, server, out)

/-- A local index that has to be asked for is used with one name. -/
def OneName (self : ADglobalFunctionIndexMap) (items : List (ℕ × String)) : Prop :=
  ∀ a ∈ items, ∀ b ∈ items, a.1 = b.1 → self.idxmap a.1 = none → a.2 = b.2

/-- The index of a function on the server. -/
def globalIdx (self : ADglobalFunctionIndexMap) (server : PSglobalFunctionIndexMap)
    (funcName : String) : ℕ :=
  (find server.fmap (self.pid, funcName)).getD 0

/-- The cache after a lookup, if a local index that is not in it has a known name. -/
def filledCache (self : ADglobalFunctionIndexMap) (server : PSglobalFunctionIndexMap)
    (items : List (ℕ × String)) (names : ℕ → String) (l : ℕ) : Option ℕ :=
  if self.idxmap l = none ∧ l ∈ items.map Prod.fst then some (self.globalIdx server (names l))
  else self.idxmap l

/-- Setting the entries of a list at the offsets of the members that satisfy a predicate. -/
private theorem foldl_set_filter {α β : Type} (p : α → Bool) (f g : α → β) (xs : List α)
    (done : List β) :
    ((xs.zipIdx done.length).filter fun e => p e.1).foldl (fun out e => out.set e.2 (f e.1))
        (done ++ xs.map g) = done ++ xs.map fun x => if p x then f x else g x := by
  induction xs generalizing done with
  | nil => rfl
  | cons x rest ih =>
    have hrest : ∀ y : β, ((rest.zipIdx (done.length + 1)).filter fun e => p e.1).foldl
        (fun out e => out.set e.2 (f e.1)) (done ++ y :: rest.map g) =
        done ++ y :: rest.map fun x => if p x then f x else g x := by
      intro y
      have h := ih (done ++ [y])
      rw [List.length_append, List.append_assoc, List.append_assoc] at h
      exact h
    rw [List.zipIdx_cons, List.map_cons, List.map_cons, List.filter_cons]
    by_cases hx : p x = true
    · rw [if_pos hx, List.foldl_cons, if_pos hx, List.set_append_right _ _ le_rfl, Nat.sub_self,
        List.set_cons_zero]
      exact hrest (f x)
    · rw [if_neg hx, if_neg hx]
      exact hrest (g x)

/-- Updating a map at the first components of pairs whose values depend on them. -/
private theorem foldl_update {α : Type} (key : α → ℕ) (value : ℕ → ℕ) (xs : List α)
    (m : ℕ → Option ℕ) (l : ℕ) :
    xs.foldl (fun m e => Function.update m (key e) (some (value (key e)))) m l =
      if l ∈ xs.map key then some (value l) else m l := by
  induction xs generalizing m with
  | nil => rfl
  | cons x rest ih =>
    rw [List.foldl_cons, ih, List.map_cons]
    by_cases hrest : l ∈ rest.map key
    · rw [if_pos hrest, if_pos (List.mem_cons_of_mem _ hrest)]
    · rw [if_neg hrest]
      by_cases hl : l = key x
      · rw [hl, Function.update_self, if_pos List.mem_cons_self]
      · rw [Function.update_of_ne hl, if_neg]
        rw [List.mem_cons, not_or]
        exact ⟨hl, hrest⟩

/-- The answers to a request are the indices on the server. -/
theorem eq_map_globalIdx (self : ADglobalFunctionIndexMap) {server : PSglobalFunctionIndexMap}
    {remote : List ((ℕ × String) × ℕ)} {globalIndices : List ℕ}
    (h : List.Forall₂ (fun funcName i => find server.fmap (self.pid, funcName) = some i)
      (remote.map fun e => e.1.2) globalIndices) :
    globalIndices = remote.map fun e => self.globalIdx server e.1.2 := by
  induction remote generalizing globalIndices with
  | nil =>
    cases h
    rfl
  | cons e rest ih =>
    obtain _ | ⟨hfirst, hrest⟩ := h
    rw [List.map_cons, ← ih hrest, globalIdx, hfirst]
    rfl

/-- Filling in the indices on the server completes the output and the cache. -/
theorem fillRemote_eq (self : ADglobalFunctionIndexMap) (server : PSglobalFunctionIndexMap)
    {items : List (ℕ × String)} {names : ℕ → String}
    (hnames : ∀ item ∈ items, self.idxmap item.1 = none → item.2 = names item.1) :
    self.fillRemote items ((self.getRemote items).map fun e => self.globalIdx server e.1.2) =
      ({ self with idxmap := self.filledCache server items names },
        items.map fun item => (self.idxmap item.1).getD (self.globalIdx server item.2)) := by
  have hzip : (self.getRemote items).zip
      ((self.getRemote items).map fun e => self.globalIdx server e.1.2) =
      (self.getRemote items).map fun e => (e, self.globalIdx server e.1.2) := by
    have hself : ((self.getRemote items).map id).zip
        ((self.getRemote items).map fun e => self.globalIdx server e.1.2) =
        (self.getRemote items).map fun e => (id e, self.globalIdx server e.1.2) := List.zip_map'
    rw [List.map_id] at hself
    exact hself
  have hmem : ∀ e ∈ self.getRemote items, e.1 ∈ items ∧ self.idxmap e.1.1 = none := by
    intro e he
    obtain ⟨hitems, hnone⟩ := List.mem_filter.mp he
    exact ⟨List.mem_of_getElem? (List.mem_zipIdx_iff_getElem?.mp hitems), by simpa using hnone⟩
  have hkeys : ∀ l, l ∈ (self.getRemote items).map (fun e => e.1.1) ↔
      self.idxmap l = none ∧ l ∈ items.map Prod.fst := by
    intro l
    rw [List.mem_map, List.mem_map]
    constructor
    · rintro ⟨e, he, rfl⟩
      exact ⟨(hmem e he).2, e.1, (hmem e he).1, rfl⟩
    · rintro ⟨hnone, item, hitem, rfl⟩
      obtain ⟨i, hi⟩ := List.mem_iff_getElem?.mp hitem
      refine ⟨(item, i), List.mem_filter.mpr ⟨List.mem_zipIdx_iff_getElem?.mpr hi, ?_⟩, rfl⟩
      simpa using hnone
  rw [fillRemote, hzip]
  simp only [List.foldl_map]
  refine Prod.ext ?_ ?_
  · have hfold : (self.getRemote items).foldl (fun (idxmap : ℕ → Option ℕ) e =>
          Function.update idxmap e.1.1 (some (self.globalIdx server e.1.2))) self.idxmap =
        (self.getRemote items).foldl (fun (idxmap : ℕ → Option ℕ) e =>
          Function.update idxmap e.1.1 (some (self.globalIdx server (names e.1.1))))
            self.idxmap := by
      refine List.foldl_ext _ _ _ fun idxmap e he => ?_
      rw [hnames e.1 (hmem e he).1 (hmem e he).2]
    have hcache : (self.getRemote items).foldl (fun (idxmap : ℕ → Option ℕ) e =>
        Function.update idxmap e.1.1 (some (self.globalIdx server e.1.2))) self.idxmap =
          self.filledCache server items names := by
      rw [hfold]
      funext l
      rw [filledCache, foldl_update (fun e : (ℕ × String) × ℕ => e.1.1)
        (fun l => self.globalIdx server (names l))]
      simp only [hkeys l]
    simp only [hcache]
  · have hset := foldl_set_filter (fun item : ℕ × String => decide (self.idxmap item.1 = none))
      (fun item => self.globalIdx server item.2) (fun item => (self.idxmap item.1).getD 0) items []
    rw [List.nil_append, List.nil_append] at hset
    refine hset.trans (List.map_congr_left fun item _ => ?_)
    cases self.idxmap item.1 with
    | none => simp
    | some i => simp

/-- The functions that are asked for are those that are not in the cache. -/
theorem map_getRemote (self : ADglobalFunctionIndexMap) (items : List (ℕ × String)) :
    (self.getRemote items).map (fun e => e.1.2) =
      (items.filter fun item => self.idxmap item.1 = none).map Prod.snd := by
  have hfst : (self.getRemote items).map Prod.fst =
      items.filter fun item => self.idxmap item.1 = none := by
    have hfilter := List.filter_map (p := fun item : ℕ × String =>
      decide (self.idxmap item.1 = none)) (f := Prod.fst) (l := items.zipIdx)
    rw [List.zipIdx_map_fst] at hfilter
    exact hfilter.symm
  rw [← hfst, List.map_map]
  rfl

/-- Looking functions up one by one leaves the server as looking up those not in the cache does,
and completes the output and the cache with the indices that the server then holds. -/
theorem lookupEach_eq {self : ADglobalFunctionIndexMap} (hps : self.connectedToPS = true)
    {names : ℕ → String} (items : List (ℕ × String))
    (hnames : ∀ item ∈ items, self.idxmap item.1 = none → item.2 = names item.1)
    {m : ℕ → Option ℕ} {server final : PSglobalFunctionIndexMap} {globalIndices : List ℕ}
    (hbase : ∀ l, self.idxmap l ≠ none → m l = self.idxmap l)
    (hnew : ∀ l i, self.idxmap l = none → m l = some i →
      find server.fmap (self.pid, names l) = some i)
    (hfinal : server.lookupBatched self.pid
      ((items.filter fun item => self.idxmap item.1 = none).map Prod.snd) =
        (final, globalIndices)) :
    lookupEach items { self with idxmap := m } server =
      ({ self with idxmap := filledCache { self with idxmap := m } final items names }, final,
        items.map fun item => (self.idxmap item.1).getD (self.globalIdx final item.2)) := by
  induction items generalizing m server globalIndices with
  | nil =>
    cases hfinal
    have hcache : filledCache { self with idxmap := m } final [] names = m := by
      funext l
      rw [filledCache, if_neg]
      exact fun h => List.not_mem_nil h.2
    rw [lookupEach, hcache]
    rfl
  | cons item rest ih =>
    obtain ⟨l, funcName⟩ := item
    have hrest : ∀ item ∈ rest, self.idxmap item.1 = none → item.2 = names item.1 :=
      fun item hitem => hnames item (List.mem_cons_of_mem _ hitem)
    have hkeep : m l ≠ none → filledCache { self with idxmap := m } final
        ((l, funcName) :: rest) names = filledCache { self with idxmap := m } final rest names := by
      intro hml
      funext k
      simp only [filledCache, List.map_cons, List.mem_cons]
      by_cases hk : k = l
      · rw [hk, if_neg (fun h => hml h.1), if_neg (fun h => hml h.1)]
      · simp only [hk, false_or]
    cases hl : self.idxmap l with
    | some i =>
      have hml : m l = some i := (hbase l (by rw [hl]; exact Option.some_ne_none i)).trans hl
      have hlookup : lookup { self with idxmap := m } server l funcName =
          ({ self with idxmap := m }, server, i) := by
        rw [lookup, if_pos hps]
        simp only [hml]
      have hfinal' : server.lookupBatched self.pid
          ((rest.filter fun item => self.idxmap item.1 = none).map Prod.snd) =
            (final, globalIndices) := by
        rw [List.filter_cons, if_neg (by simp [hl])] at hfinal
        exact hfinal
      rw [lookupEach, hlookup]
      simp only
      rw [ih hrest hbase hnew hfinal', hkeep (by rw [hml]; exact Option.some_ne_none i),
        List.map_cons, hl]
      rfl
    | none =>
      have hname : funcName = names l := hnames _ List.mem_cons_self hl
      rw [List.filter_cons, if_pos (by simp [hl]), List.map_cons] at hfinal
      have hbatch := congrArg Prod.fst hfinal
      change ((server.lookup self.pid funcName).1.lookupBatched self.pid _).1 = final at hbatch
      have hfinal' : (server.lookup self.pid funcName).1.lookupBatched self.pid
          ((rest.filter fun item => self.idxmap item.1 = none).map Prod.snd) =
            (final, ((server.lookup self.pid funcName).1.lookupBatched self.pid
              ((rest.filter fun item => self.idxmap item.1 = none).map Prod.snd)).2) :=
        Prod.ext hbatch rfl
      obtain ⟨hself, hother⟩ := server.find_lookup self.pid funcName
      have hidx : self.globalIdx final funcName = (server.lookup self.pid funcName).2 := by
        have hmono := ((server.lookup self.pid funcName).1.find_lookupBatched self.pid
          ((rest.filter fun item => self.idxmap item.1 = none).map Prod.snd)).2 _ _ hself
        rw [hbatch] at hmono
        rw [globalIdx, hmono]
        rfl
      cases hml : m l with
      | some i =>
        -- the local index has been asked for before in this list, under the same name
        have hfind : find server.fmap (self.pid, funcName) = some i := by
          rw [hname]
          exact hnew l i hl hml
        have hknown := PSglobalFunctionIndexMap.lookup_of_find hfind
        have hlookup : lookup { self with idxmap := m } server l funcName =
            ({ self with idxmap := m }, server, i) := by
          rw [lookup, if_pos hps]
          simp only [hml]
        rw [hknown] at hfinal' hidx
        rw [lookupEach, hlookup]
        simp only
        rw [ih hrest hbase hnew hfinal', hkeep (by rw [hml]; exact Option.some_ne_none i),
          List.map_cons, hl, Option.getD_none, hidx]
      | none =>
        have hlookup : lookup { self with idxmap := m } server l funcName =
            ({ self with
                idxmap := Function.update m l (some (server.lookup self.pid funcName).2) },
              (server.lookup self.pid funcName).1, (server.lookup self.pid funcName).2) := by
          rw [lookup, if_pos hps]
          simp only [hml]
        have hbase' : ∀ k, self.idxmap k ≠ none →
            Function.update m l (some (server.lookup self.pid funcName).2) k =
              self.idxmap k := by
          intro k hk
          have hkl : k ≠ l := fun heq => hk (by rw [heq, hl])
          rw [Function.update_of_ne hkl]
          exact hbase k hk
        have hnew' : ∀ k i, self.idxmap k = none →
            Function.update m l (some (server.lookup self.pid funcName).2) k = some i →
              find (server.lookup self.pid funcName).1.fmap (self.pid, names k) = some i := by
          intro k i hk hki
          by_cases heq : k = l
          · subst heq
            rw [Function.update_self] at hki
            rw [← hname, hself]
            exact hki
          · rw [Function.update_of_ne heq] at hki
            exact hother _ _ (hnew k i hk hki)
        have hcache : filledCache { self with
            idxmap := Function.update m l (some (server.lookup self.pid funcName).2) } final rest
              names = filledCache { self with idxmap := m } final ((l, funcName) :: rest) names := by
          funext k
          simp only [filledCache, List.map_cons, List.mem_cons]
          by_cases heq : k = l
          · subst heq
            simp only [Function.update_self, hml, true_or, and_self, if_true]
            rw [if_neg (fun h => Option.some_ne_none _ h.1), ← hname]
            exact congrArg some hidx.symm
          · simp only [Function.update_of_ne heq, heq, false_or]
            rfl
        rw [lookupEach, hlookup]
        simp only
        rw [ih hrest hbase' hnew' hfinal', hcache, List.map_cons, hl, Option.getD_none, hidx]

/-- A batch does what single lookups do, if a local index that has to be asked for is used with
one name. -/
theorem lookupBatch_eq_lookupEach (self : ADglobalFunctionIndexMap)
    (server : PSglobalFunctionIndexMap) {localIdx : List ℕ} {funcName : List String}
    (hlength : localIdx.length = funcName.length) (hone : self.OneName (localIdx.zip funcName)) :
    self.lookupBatch server localIdx funcName =
      .ok (lookupEach (localIdx.zip funcName) self server) := by
  rw [lookupBatch]
  cases hps : self.connectedToPS with
  | false =>
    have heach : ∀ (localIdx : List ℕ) (funcName : List String),
        localIdx.length = funcName.length →
        lookupEach (localIdx.zip funcName) self server = (self, server, localIdx) := by
      intro localIdx
      induction localIdx with
      | nil => exact fun _ _ => rfl
      | cons l rest ih =>
        intro funcName hlength
        obtain _ | ⟨name, names⟩ := funcName
        · cases hlength
        · rw [List.zip_cons_cons, lookupEach, lookup, hps]
          simp only [Bool.false_eq_true, if_false]
          rw [ih names (Nat.succ.inj hlength)]
    rw [heach localIdx funcName hlength]
    rfl
  | true =>
    -- a name for each local index that has to be asked for
    obtain ⟨names, hnames⟩ : ∃ names : ℕ → String, ∀ item ∈ localIdx.zip funcName,
        self.idxmap item.1 = none → item.2 = names item.1 := by
      refine ⟨fun l => (((localIdx.zip funcName).find? fun item => item.1 = l).map
        Prod.snd).getD "", fun item hitem hnone => ?_⟩
      cases hfind : (localIdx.zip funcName).find? fun other => other.1 = item.1 with
      | none => simpa using List.find?_eq_none.mp hfind item hitem
      | some other =>
        have hother : other.1 = item.1 := by simpa using List.find?_some hfind
        simp only [hfind, Option.map_some, Option.getD_some]
        exact hone item hitem other (List.mem_of_find?_eq_some hfind) hother.symm hnone
    have hmisses : server.lookupBatched self.pid
        (((localIdx.zip funcName).filter fun item => self.idxmap item.1 = none).map Prod.snd) =
        (_, _) := Prod.mk.eta.symm
    have heach := lookupEach_eq hps (localIdx.zip funcName) hnames (m := self.idxmap)
      (fun _ _ => rfl) (fun l i hnone hsome => by
        rw [hnone] at hsome
        cases hsome) hmisses
    rw [← self.map_getRemote (localIdx.zip funcName)] at heach
    have hbatch := server.find_lookupBatched self.pid
      ((self.getRemote (localIdx.zip funcName)).map fun e => e.1.2)
    have hindices := self.eq_map_globalIdx hbatch.1
    cases hserver : server.lookupBatched self.pid
      ((self.getRemote (localIdx.zip funcName)).map fun e => e.1.2) with
    | mk final globalIndices =>
    rw [hserver] at heach hindices
    have hfill := self.fillRemote_eq final hnames
    rw [← hindices] at hfill
    rw [Bool.not_true, if_neg Bool.false_ne_true, if_neg (not_not.mpr hlength.symm)]
    change _ = Except.ok (lookupEach (localIdx.zip funcName) { self with idxmap := self.idxmap }
      server)
    rw [heach]
    have hresult := congrArg (fun r : ADglobalFunctionIndexMap × List ℕ =>
      (Except.ok (r.1, final, r.2) : Except String _)) hfill
    refine Eq.trans ?_ hresult
    by_cases hremote : (self.getRemote (localIdx.zip funcName)).length = 0
    · rw [if_pos hremote]
      rw [List.length_eq_zero_iff] at hremote
      rw [hremote] at hserver
      cases hserver
      rw [fillRemote, hremote]
      rfl
    · have hcount : globalIndices.length = (self.getRemote (localIdx.zip funcName)).length :=
        (congrArg List.length hindices).trans (List.length_map _)
      rw [if_neg hremote, hserver]
      simp only [if_neg (not_not.mpr hcount)]
      rfl

/-- Nothing is asked for if there is nothing to look up. -/
theorem lookupBatch_nil (self : ADglobalFunctionIndexMap) (server : PSglobalFunctionIndexMap) :
    self.lookupBatch server [] [] = .ok (self, server, []) := by
  unfold lookupBatch
  split
  · rfl
  · rfl

/-- A batch of local indices with a name each gets a global index for each. -/
theorem lookupBatch_total (self : ADglobalFunctionIndexMap) (server : PSglobalFunctionIndexMap)
    (localIdx : List ℕ) (funcName : List String) (hlength : funcName.length = localIdx.length) :
    ∃ ad server' globIdx, self.lookupBatch server localIdx funcName =
      .ok (ad, server', globIdx) ∧ globIdx.length = localIdx.length := by
  have hitems : (localIdx.zip funcName).length = localIdx.length := by
    rw [List.length_zip, hlength, Nat.min_self]
  have hset : ∀ (received : List (((ℕ × String) × ℕ) × ℕ)) (out : List ℕ),
      (received.foldl (fun out e => out.set e.1.2 e.2) out).length = out.length := by
    intro received
    induction received with
    | nil => exact fun out => rfl
    | cons e rest ih => exact fun out => (ih _).trans List.length_set
  unfold lookupBatch
  split
  · exact ⟨_, _, _, rfl, rfl⟩
  · rw [if_neg (not_not.mpr hlength)]
    simp only
    split
    · exact ⟨_, _, _, rfl, by rw [List.length_map, hitems]⟩
    · have hbatch := (server.find_lookupBatched self.pid
        ((self.getRemote (localIdx.zip funcName)).map fun e => e.1.2)).1.length_eq
      rw [List.length_map] at hbatch
      rw [if_neg (not_not.mpr hbatch.symm)]
      refine ⟨_, _, _, rfl, ?_⟩
      rw [fillRemote, hset, List.length_map, hitems]

end ADglobalFunctionIndexMap

/-- A request of a rank: what it looks up, the names that the server has still to look up, and the
indices found so far. -/
structure FunctionIndexRequest where
  items : List (ℕ × String)
  remaining : List String
  globalIndices : List ℕ

/-- The server, the ranks with their requests, and what was answered to them. -/
structure FunctionIndexRanks where
  server : PSglobalFunctionIndexMap
  ranks : ℕ → ADglobalFunctionIndexMap
  requests : ℕ → Option FunctionIndexRequest
  answers : List ((ℕ × String) × ℕ)

/-- A rank starts to look functions up, the server looks up the next name of a rank's request, or
a rank receives the indices that it asked for. -/
inductive FunctionIndexStep
  | request (rank : ℕ) (items : List (ℕ × String))
  | serve (rank : ℕ)
  | receive (rank : ℕ)

namespace FunctionIndexRanks

open ADglobalFunctionIndexMap

/-- Ranks with empty caches that are connected to a server. -/
def start (server : PSglobalFunctionIndexMap) (pid : ℕ → ℕ) : FunctionIndexRanks where
  server := server
  ranks rank := { connectedToPS := true, idxmap := fun _ => none, pid := pid rank }
  requests _ := none
  answers := []

/-- What a step does. -/
def exec (s : FunctionIndexRanks) : FunctionIndexStep → Except String FunctionIndexRanks
  | .request rank items =>
    match s.requests rank with
    | some _ => throw "The rank waits for an answer"
    | none =>
      let request : FunctionIndexRequest :=
        { items := items
          remaining := ((s.ranks rank).getRemote items).map fun e => e.1.2
          globalIndices := [] }
      pure { s with requests := Function.update s.requests rank (some request) }
  | .serve rank =>
    match s.requests rank with
    | some { items, remaining := funcName :: remaining, globalIndices } =>
      let (server, idx) := s.server.lookup (s.ranks rank).pid funcName
      let request : FunctionIndexRequest :=
        { items := items, remaining := remaining, globalIndices := globalIndices ++ [idx] }
      pure { s with
        server := server
        requests := Function.update s.requests rank (some request) }
    | _ => throw "The rank has no name to be looked up"
  | .receive rank =>
    match s.requests rank with
    | some { items, remaining := [], globalIndices } =>
      let (ad, out) := (s.ranks rank).fillRemote items globalIndices
      pure { s with
        ranks := Function.update s.ranks rank ad
        requests := Function.update s.requests rank none
        answers := (items.map fun item => (ad.pid, item.2)).zip out ++ s.answers }
    | _ => throw "The rank has no answer"

/-- Each rank uses a local index for one name. -/
def UsesNames (names : ℕ → ℕ → String) (_ : FunctionIndexRanks) : FunctionIndexStep → Prop
  | .request rank items => ∀ item ∈ items, item.2 = names rank item.1
  | _ => True

instance (names : ℕ → ℕ → String) (s : FunctionIndexRanks) :
    (a : FunctionIndexStep) → Decidable (UsesNames names s a)
  | .request rank items =>
    inferInstanceAs (Decidable (∀ item ∈ items, item.2 = names rank item.1))
  | .serve _ => inferInstanceAs (Decidable True)
  | .receive _ => inferInstanceAs (Decidable True)

/-- The caches, the answers and the requests that are being served agree with the server. -/
structure Valid (names : ℕ → ℕ → String) (s : FunctionIndexRanks) : Prop where
  cache : ∀ rank l i, (s.ranks rank).idxmap l = some i →
    find s.server.fmap ((s.ranks rank).pid, names rank l) = some i
  request : ∀ rank r, s.requests rank = some r →
    (∀ item ∈ r.items, item.2 = names rank item.1) ∧
      ∃ served, ((s.ranks rank).getRemote r.items).map (fun e => e.1.2) = served ++ r.remaining ∧
        List.Forall₂ (fun funcName i =>
          find s.server.fmap ((s.ranks rank).pid, funcName) = some i) served r.globalIndices
  answers : ∀ a ∈ s.answers, find s.server.fmap a.1 = some a.2

/-- Each member of a list has its partner. -/
private theorem exists_of_forall₂ {α β : Type} {R : α → β → Prop} {xs : List α} {ys : List β}
    (h : List.Forall₂ R xs ys) {x : α} (hx : x ∈ xs) : ∃ y ∈ ys, R x y := by
  induction h with
  | nil => cases hx
  | cons hfirst _ ih =>
    rcases List.mem_cons.mp hx with rfl | hmem
    · exact ⟨_, List.mem_cons_self, hfirst⟩
    · obtain ⟨y, hy, hR⟩ := ih hmem
      exact ⟨y, List.mem_cons_of_mem _ hy, hR⟩

/-- What the server holds when it serves a name, it still holds afterwards. -/
theorem Valid.mono {names : ℕ → ℕ → String} {s : FunctionIndexRanks} (h : s.Valid names)
    {server : PSglobalFunctionIndexMap}
    (hmono : ∀ key i, find s.server.fmap key = some i → find server.fmap key = some i) :
    Valid names { s with server := server } := by
  refine ⟨fun rank l i hi => hmono _ _ (h.cache rank l i hi), fun rank r hr => ?_,
    fun a ha => hmono _ _ (h.answers a ha)⟩
  obtain ⟨hitems, served, hserved, hforall⟩ := h.request rank r hr
  exact ⟨hitems, served, hserved, hforall.imp fun _ _ hi => hmono _ _ hi⟩

/-- Every step keeps caches, answers and requests in agreement with the server. -/
theorem Valid.exec {names : ℕ → ℕ → String} {s t : FunctionIndexRanks} (h : s.Valid names)
    {a : FunctionIndexStep} (ha : s.UsesNames names a) (hstep : s.exec a = .ok t) :
    t.Valid names := by
  cases a with
  | request rank items =>
    rw [FunctionIndexRanks.exec] at hstep
    split at hstep
    · cases hstep
    · cases hstep
      refine ⟨h.cache, fun other r hr => ?_, h.answers⟩
      by_cases hother : other = rank
      · subst hother
        simp only [Function.update_self] at hr
        cases hr
        exact ⟨ha, [], rfl, .nil⟩
      · simp only [Function.update_of_ne hother] at hr
        exact h.request other r hr
  | serve rank =>
    rw [FunctionIndexRanks.exec] at hstep
    split at hstep
    · rename_i items funcName remaining globalIndices hrequest
      cases hstep
      obtain ⟨hself, hmono⟩ := s.server.find_lookup (s.ranks rank).pid funcName
      have hs := h.mono hmono
      refine ⟨hs.cache, fun other r hr => ?_, hs.answers⟩
      by_cases hother : other = rank
      · subst hother
        simp only [Function.update_self] at hr
        cases hr
        obtain ⟨hitems, served, hserved, hforall⟩ := hs.request other _ hrequest
        refine ⟨hitems, served ++ [funcName], ?_, ?_⟩
        · rw [List.append_assoc]
          exact hserved
        · exact List.rel_append hforall (.cons hself .nil)
      · simp only [Function.update_of_ne hother] at hr
        exact hs.request other r hr
    · cases hstep
  | receive rank =>
    rw [FunctionIndexRanks.exec] at hstep
    split at hstep
    · rename_i items globalIndices hrequest
      obtain ⟨hitems, served, hserved, hforall⟩ := h.request rank _ hrequest
      rw [List.append_nil] at hserved
      have hindices := (s.ranks rank).eq_map_globalIdx (hserved ▸ hforall)
      have hfill := (s.ranks rank).fillRemote_eq s.server fun item hitem _ => hitems item hitem
      rw [← hindices] at hfill
      change (s.ranks rank).fillRemote items globalIndices = _ at hfill
      rw [hfill] at hstep
      cases hstep
      have hknown : ∀ item ∈ items, (s.ranks rank).idxmap item.1 = none →
          find s.server.fmap ((s.ranks rank).pid, item.2) =
            some ((s.ranks rank).globalIdx s.server item.2) := by
        intro item hitem hnone
        have hmem : item.2 ∈ served := by
          rw [← hserved, map_getRemote]
          exact List.mem_map_of_mem (List.mem_filter.mpr ⟨hitem, by simpa using hnone⟩)
        obtain ⟨i, -, hi⟩ := exists_of_forall₂ hforall hmem
        rw [globalIdx, hi]
        rfl
      have hanswer : ∀ item ∈ items, find s.server.fmap ((s.ranks rank).pid, item.2) =
          some (((s.ranks rank).idxmap item.1).getD
            ((s.ranks rank).globalIdx s.server item.2)) := by
        intro item hitem
        cases hcached : (s.ranks rank).idxmap item.1 with
        | none => exact hknown item hitem hcached
        | some i =>
          rw [hitems item hitem]
          exact h.cache rank item.1 i hcached
      refine ⟨fun other l i hi => ?_, fun other r hr => ?_, fun a ha => ?_⟩
      · by_cases hother : other = rank
        · subst hother
          simp only [Function.update_self, filledCache] at hi ⊢
          split at hi
          · rename_i hl
            obtain ⟨item, hitem, rfl⟩ := List.mem_map.mp hl.2
            have hfind := hknown item hitem hl.1
            rw [hitems item hitem] at hfind
            exact hfind.trans hi
          · exact h.cache other l i hi
        · simp only [Function.update_of_ne hother] at hi ⊢
          exact h.cache other l i hi
      · by_cases hother : other = rank
        · subst hother
          simp only [Function.update_self] at hr
          cases hr
        · simp only [Function.update_of_ne hother] at hr ⊢
          exact h.request other r hr
      · rcases List.mem_append.mp ha with hnew | hold
        · rw [List.zip_map'] at hnew
          obtain ⟨item, hitem, rfl⟩ := List.mem_map.mp hnew
          exact hanswer item hitem
        · exact h.answers a hold
    · cases hstep

/-- The start is valid. -/
theorem valid_start (names : ℕ → ℕ → String) (server : PSglobalFunctionIndexMap)
    (pid : ℕ → ℕ) : (start server pid).Valid names := by
  refine ⟨fun rank l i h => ?_, fun rank r h => ?_, fun a ha => ?_⟩
  · cases h
  · cases h
  · cases ha

/-- A batch does what single lookups do if a local index that is not in the cache is used with
one name; and ranks that each use a local index for one name get the same index for the same
function, in whatever order the server serves them. -/
theorem batch_refines_single :
    (∀ (ad : ADglobalFunctionIndexMap) (server : PSglobalFunctionIndexMap) (localIdx : List ℕ)
        (funcName : List String), localIdx.length = funcName.length →
      ad.OneName (localIdx.zip funcName) → ad.lookupBatch server localIdx funcName =
        .ok (lookupEach (localIdx.zip funcName) ad server)) ∧
      ∀ (names : ℕ → ℕ → String) (server : PSglobalFunctionIndexMap) (pid : ℕ → ℕ)
        (s : FunctionIndexRanks), Runs (StepOf exec) (UsesNames names) (start server pid) s →
      ∀ a ∈ s.answers, ∀ b ∈ s.answers, a.1 = b.1 → a.2 = b.2 := by
  refine ⟨fun ad server localIdx funcName hlength hone =>
      ad.lookupBatch_eq_lookupEach server hlength hone,
    fun names server pid s hrun a ha b hb heq => ?_⟩
  have hs : s.Valid names := hrun.invariant (Valid names) (valid_start names server pid)
    fun _ _ _ hs hguard hstep => hs.exec hguard hstep
  have ha' := hs.answers a ha
  rw [heq, hs.answers b hb] at ha'
  exact (Option.some.inj ha').symm

/-- A rank that is connected and knows no index. -/
private def emptyRank : ADglobalFunctionIndexMap :=
  { connectedToPS := true, idxmap := fun _ => none, pid := 0 }

/-- Two ranks look up one function under different local indices, each served in between the
other's steps. -/
private def twoRanks : List FunctionIndexStep :=
  [.request 0 [(3, "f")], .request 1 [(7, "f")], .serve 1, .serve 0, .receive 0, .receive 1]

/-- A batch with a repeated function, and two ranks that ask for one function. -/
theorem batch_refines_single_repeated :
    (emptyRank.lookupBatch .new [5, 6, 5] ["f", "g", "f"] =
        .ok (lookupEach [(5, "f"), (6, "g"), (5, "f")] emptyRank .new)) ∧
      ∃ s, runAll exec (UsesNames fun _ _ => "f") (start .new fun _ => 0) twoRanks = some s ∧
        ∀ a ∈ s.answers, ∀ b ∈ s.answers, a.1 = b.1 → a.2 = b.2 := by
  have hone : emptyRank.OneName [(5, "f"), (6, "g"), (5, "f")] := by
    intro a ha b hb heq _
    revert a b
    decide
  have hrun : (runAll exec (UsesNames fun _ _ => "f") (start .new fun _ => 0) twoRanks).isSome := by
    decide +kernel
  obtain ⟨s, hs⟩ := Option.isSome_iff_exists.mp hrun
  exact ⟨batch_refines_single.1 emptyRank .new [5, 6, 5] ["f", "g", "f"] rfl hone, s, hs,
    batch_refines_single.2 _ _ _ s (runs_of_runAll twoRanks hs)⟩

/-- A batch that uses a local index with two names looks both names up, single lookups only the
first. -/
theorem batch_differs_two_names : ∃ ad server localIdx funcName r,
    localIdx.length = funcName.length ∧ lookupBatch ad server localIdx funcName = .ok r ∧
      r.2.2 ≠ (lookupEach (localIdx.zip funcName) ad server).2.2 := by
  refine ⟨emptyRank, .new, [5, 5], ["f", "g"], _, rfl, rfl, ?_⟩
  decide +kernel

end FunctionIndexRanks

end Chimbuko
