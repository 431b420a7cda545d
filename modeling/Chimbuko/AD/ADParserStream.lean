import Chimbuko.AD.ADParserOrder

/-!
# What holds of every event stream

Whatever the trace data are, a stream that the parser returns holds exactly the valid events,
thread by thread in ascending order and in time order within a thread: arrays out of order are
an error, and of several next events the earliest is put out. Hence the first event of a stream
is the earliest one of the lowest thread, and the last event the latest one of the highest.
-/

namespace Chimbuko

namespace ADParser

open EventDataType Grouping

namespace ThreadData

/-- Events that are separated without error are in time order for each type and thread. -/
theorem separates_of_foldlM {events : List Event} {thr : ThreadData}
    (h : events.foldlM ThreadData.push ThreadData.empty = .ok thr) :
    thr.Separates events ∧ ∀ type tid,
      (group Event.tid (group Event.type events type) tid).Pairwise fun x y => x.ts ≤ y.ts := by
  induction events using List.reverseRecOn generalizing thr with
  | nil =>
    cases h
    obtain ⟨thr, hrun, hthr⟩ := separates_foldlM [] fun _ _ => List.Pairwise.nil
    cases hrun
    exact ⟨hthr, fun _ _ => List.Pairwise.nil⟩
  | append_singleton events ev ih =>
    rw [List.foldlM_append] at h
    cases hrun : events.foldlM ThreadData.push ThreadData.empty with
    | error e =>
      rw [hrun] at h
      cases h
    | ok before =>
    rw [hrun] at h
    change (before.push ev >>= fun thr => pure thr) = .ok thr at h
    rw [bind_pure] at h
    obtain ⟨hbefore, hsorted⟩ := ih hrun
    have hsingle : group Event.tid (group Event.type [ev] ev.type) ev.tid = [ev] := by
      rw [group_eq_self Event.type (by simp), group_eq_self Event.tid (by simp)]
    have hev : (group Event.tid (group Event.type (events ++ [ev]) ev.type) ev.tid).Pairwise
        fun x y => x.ts ≤ y.ts := by
      rw [group_append, group_append, hsingle, List.pairwise_append]
      refine ⟨hsorted ev.type ev.tid, List.pairwise_singleton _ _, fun x hx y hy => ?_⟩
      rw [List.mem_singleton.mp hy]
      rw [ThreadData.push] at h
      split at h
      · cases h
      · rename_i hlast
        rw [hbefore.data] at hlast
        have hne := List.ne_nil_of_mem hx
        rw [List.getLast?_eq_some_getLast hne, Option.any_some, decide_eq_true_eq, not_lt] at hlast
        exact ((hsorted ev.type ev.tid).rel_getLast hx).trans hlast
    obtain ⟨thr', hpush, hthr'⟩ := hbefore.push hev
    rw [hpush] at h
    cases h
    refine ⟨hthr', fun type tid => ?_⟩
    by_cases heq : type = ev.type ∧ tid = ev.tid
    · rw [heq.1, heq.2]
      exact hev
    · have hnil : group Event.tid (group Event.type [ev] type) tid = [] := by
        refine group_eq_nil Event.tid fun x hx hxtid => heq ?_
        obtain ⟨hmem, hxtype⟩ := (mem_group Event.type).mp hx
        obtain rfl := List.mem_singleton.mp hmem
        exact ⟨hxtype.symm, hxtid.symm⟩
      rw [group_append, group_append, hnil, List.append_nil]
      exact hsorted type tid

end ThreadData

/-- The pieces of a loop that appends what a step yields for each key. -/
theorem foldlM_append_of_ok {f : ℕ → Except String (List Event)} {keys : List ℕ}
    {acc out : List Event}
    (h : keys.foldlM (fun out k => do
      let events ← f k
      pure (out ++ events)) acc = .ok out) (hkeys : keys.Nodup) :
    ∃ g : ℕ → List Event, (∀ k ∈ keys, f k = .ok (g k)) ∧ out = acc ++ keys.flatMap g := by
  induction keys generalizing acc with
  | nil =>
    cases h
    exact ⟨fun _ => [], fun _ hk => (List.not_mem_nil hk).elim, (List.append_nil _).symm⟩
  | cons k rest ih =>
    rw [List.nodup_cons] at hkeys
    rw [List.foldlM_cons] at h
    cases hk : f k with
    | error e =>
      rw [hk] at h
      cases h
    | ok events =>
      rw [hk] at h
      obtain ⟨g, hg, hout⟩ := ih h hkeys.2
      refine ⟨Function.update g k events, fun k' hk' => ?_, ?_⟩
      · rcases List.mem_cons.mp hk' with rfl | hmem
        · rw [Function.update_self, hk]
        · rw [Function.update_of_ne fun heq : k' = k => hkeys.1 (heq ▸ hmem), hg k' hmem]
      · have hrest : rest.flatMap (Function.update g k events) = rest.flatMap g := by
          refine List.flatMap_congr fun k' hk' => ?_
          rw [Function.update_of_ne fun heq : k' = k => hkeys.1 (heq ▸ hk')]
        rw [List.flatMap_cons, Function.update_self, hrest, hout, List.append_assoc]

/-- A stream holds exactly the valid events, thread by thread in ascending order. Within a thread it
is in time order, and at one time puts the communication events and then the counters after the
leading entries and before the other function events. -/
theorem getEvents_spec {self : ADParser} {out : List Event} (h : self.getEvents = .ok out) :
    out.Perm self.allValid ∧ (out.Pairwise fun x y => x.tid ≤ y.tid) ∧
      ∀ tid, ((group Event.tid out tid).Pairwise fun x y => x.ts ≤ y.ts) ∧
        ∀ time, group Event.ts (group Event.tid out tid) time =
          ties self.funcEventTypeMap (self.validOn tid) time := by
  rw [getEvents] at h
  obtain ⟨thr, hthr, hrun⟩ := TransitionSystem.bind_eq_ok h
  obtain ⟨hseparates, hsorted⟩ := ThreadData.separates_of_foldlM hthr
  obtain ⟨out', hloop, hout⟩ := TransitionSystem.bind_eq_ok hrun
  split at hout
  · cases hout
  cases hout
  obtain ⟨g, hg, rfl⟩ := foldlM_append_of_ok hloop hseparates.nodup
  rw [List.nil_append]
  obtain ⟨hperm, htids, hthreads⟩ := stream_of_threads hseparates hsorted hg
  refine ⟨hperm, htids, fun tid => ⟨(hthreads tid).1, fun time => ?_⟩⟩
  have hdata : (fun type => thr.data type tid) = self.validOn tid := by
    funext type
    rw [hseparates.data]
    exact congrArg (fun events => group Event.tid events tid) (self.group_type_allValid type)
  rw [(hthreads tid).2.2, hdata]

/-- A stream holds exactly the valid events, thread by thread in ascending order, and in time
order within a thread. -/
theorem getEvents_ok {self : ADParser} {out : List Event} (h : self.getEvents = .ok out) :
    out.Perm self.allValid ∧ (out.Pairwise fun x y => x.tid ≤ y.tid) ∧
      ∀ tid, (group Event.tid out tid).Pairwise fun x y => x.ts ≤ y.ts := by
  obtain ⟨hperm, htids, hthreads⟩ := getEvents_spec h
  exact ⟨hperm, htids, fun tid => (hthreads tid).1⟩

/-- Some event of a list is at or before a time, on the lowest thread. -/
def LowestThreadBy (events : List Event) (time : ℕ) : Prop :=
  ∃ x ∈ events, (∀ y ∈ events, x.tid ≤ y.tid) ∧ x.ts ≤ time

/-- Some event of a list is at or after a time, on the highest thread. -/
def HighestThreadFrom (events : List Event) (time : ℕ) : Prop :=
  ∃ x ∈ events, (∀ y ∈ events, y.tid ≤ x.tid) ∧ time ≤ x.ts

/-- The order of the events does not matter. -/
theorem lowestThreadBy_congr {xs ys : List Event} (h : xs.Perm ys) (time : ℕ) :
    LowestThreadBy xs time ↔ LowestThreadBy ys time := by
  simp only [LowestThreadBy, h.mem_iff]

/-- The order of the events does not matter. -/
theorem highestThreadFrom_congr {xs ys : List Event} (h : xs.Perm ys) (time : ℕ) :
    HighestThreadFrom xs time ↔ HighestThreadFrom ys time := by
  simp only [HighestThreadFrom, h.mem_iff]

/-- The first event of a stream is the earliest of the lowest thread. -/
theorem head_le_iff {out : List Event} {first : Event} (hfirst : out.head? = some first)
    (htid : out.Pairwise fun x y => x.tid ≤ y.tid)
    (hts : ∀ tid, (group Event.tid out tid).Pairwise fun x y => x.ts ≤ y.ts) (time : ℕ) :
    first.ts ≤ time ↔ LowestThreadBy out time := by
  obtain ⟨rest, rfl⟩ : ∃ rest, out = first :: rest := by
    cases out with
    | nil => cases hfirst
    | cons x rest => exact ⟨rest, by rw [Option.some.inj hfirst]⟩
  have hlow := (List.pairwise_cons.mp htid).1
  constructor
  · intro hle
    refine ⟨first, List.mem_cons_self, fun y hy => ?_, hle⟩
    rcases List.mem_cons.mp hy with rfl | hmem
    · exact le_rfl
    · exact hlow y hmem
  · rintro ⟨x, hx, hxlow, hxts⟩
    rcases List.mem_cons.mp hx with rfl | hmem
    · exact hxts
    · have heq : x.tid = first.tid :=
        le_antisymm (hxlow first List.mem_cons_self) (hlow x hmem)
      have hsorted := hts first.tid
      rw [group, List.filter_cons, if_pos (decide_eq_true rfl), List.pairwise_cons] at hsorted
      exact (hsorted.1 x (List.mem_filter.mpr ⟨hmem, decide_eq_true heq⟩)).trans hxts

/-- The last event of a stream is the latest of the highest thread. -/
theorem le_last_iff {out : List Event} {last : Event} (hlast : out.getLast? = some last)
    (htid : out.Pairwise fun x y => x.tid ≤ y.tid)
    (hts : ∀ tid, (group Event.tid out tid).Pairwise fun x y => x.ts ≤ y.ts) (time : ℕ) :
    time ≤ last.ts ↔ HighestThreadFrom out time := by
  obtain ⟨init, rfl⟩ := List.getLast?_eq_some_iff.mp hlast
  have hhigh := (List.pairwise_append.mp htid).2.2
  have hmemLast : last ∈ init ++ [last] := List.mem_append_right _ List.mem_cons_self
  constructor
  · intro hle
    refine ⟨last, hmemLast, fun y hy => ?_, hle⟩
    rcases List.mem_append.mp hy with hmem | hmem
    · exact hhigh y hmem last List.mem_cons_self
    · rw [List.mem_singleton.mp hmem]
  · rintro ⟨x, hx, hxhigh, hxts⟩
    rcases List.mem_append.mp hx with hmem | hmem
    · have heq : x.tid = last.tid :=
        le_antisymm (hhigh x hmem last List.mem_cons_self) (hxhigh last hmemLast)
      have hsorted := hts last.tid
      rw [group_append, List.pairwise_append] at hsorted
      exact hxts.trans (hsorted.2.2 x ((mem_group Event.tid).mpr ⟨hmem, heq⟩) last
        ((mem_group Event.tid).mpr ⟨List.mem_cons_self, rfl⟩))
    · rwa [List.mem_singleton.mp hmem] at hxts

end ADParser

end Chimbuko
