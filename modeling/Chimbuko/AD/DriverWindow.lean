import Chimbuko.AD.ADParserStream
import Chimbuko.AD.Driver

/-!
# The time window of an analysis

The window that is handed over with the executions runs from the first event of the first frame
since the previous analysis to the last event of the last frame. A frame's events are grouped by
thread, so these are the earliest event of the lowest thread and the latest event of the highest
one. A frame without events counts as if it had one at the end of time.
-/

namespace Chimbuko

open TransitionSystem

/-- The window is one, and contains every event registered since the previous analysis. -/
def AnalysisRecord.Covers (r : AnalysisRecord) : Prop :=
  r.firstEventTs ≤ r.lastEventTs ∧
    ∀ ev ∈ r.registered, r.firstEventTs ≤ ev.ts ∧ ev.ts ≤ r.lastEventTs

instance (r : AnalysisRecord) : Decidable r.Covers := inferInstanceAs (Decidable (_ ∧ _))

namespace ADParser

/-- The lowest thread of a frame has an event at or before a time. A frame without events starts
at the end of time. -/
def StartsBy (p : ADParser) (time : ℕ) : Prop :=
  p.allValid = [] ∧ maxTs ≤ time ∨ LowestThreadBy p.allValid time

/-- The highest thread of a frame has an event at or after a time. A frame without events lasts to
the end of time. -/
def LastsUntil (p : ADParser) (time : ℕ) : Prop :=
  p.allValid = [] ∧ time ≤ maxTs ∨ HighestThreadFrom p.allValid time

/-- The time of the first event of a frame, as the driver takes it. -/
def FirstTs (p : ADParser) (ts : ℕ) : Prop :=
  ∃ out, p.getEvents = .ok out ∧ ts = (out.head?.map Event.ts).getD maxTs

/-- The time of the last event of a frame, as the driver takes it. -/
def LastTs (p : ADParser) (ts : ℕ) : Prop :=
  ∃ out, p.getEvents = .ok out ∧ ts = (out.getLast?.map Event.ts).getD maxTs

/-- The first event of a frame is at or before the times by which the lowest thread starts. -/
theorem FirstTs.le_iff {p : ADParser} {ts : ℕ} (h : p.FirstTs ts) (time : ℕ) :
    ts ≤ time ↔ p.StartsBy time := by
  obtain ⟨out, hout, rfl⟩ := h
  obtain ⟨hperm, htid, hts⟩ := getEvents_ok hout
  rw [StartsBy, ← lowestThreadBy_congr hperm]
  cases hfirst : out.head? with
  | none =>
    have hnil : out = [] := List.head?_eq_none_iff.mp hfirst
    subst hnil
    have hvalid : p.allValid = [] := hperm.nil_eq.symm
    simp [hvalid, LowestThreadBy]
  | some first =>
    have hvalid : p.allValid ≠ [] := by
      intro hnil
      rw [hnil, List.perm_nil] at hperm
      rw [hperm] at hfirst
      cases hfirst
    rw [Option.map_some, Option.getD_some, head_le_iff hfirst htid hts]
    simp [hvalid]

/-- The last event of a frame is at or after the times until which the highest thread lasts. -/
theorem LastTs.le_iff {p : ADParser} {ts : ℕ} (h : p.LastTs ts) (time : ℕ) :
    time ≤ ts ↔ p.LastsUntil time := by
  obtain ⟨out, hout, rfl⟩ := h
  obtain ⟨hperm, htid, hts⟩ := getEvents_ok hout
  rw [LastsUntil, ← highestThreadFrom_congr hperm]
  cases hlast : out.getLast? with
  | none =>
    have hnil : out = [] := List.getLast?_eq_none_iff.mp hlast
    subst hnil
    have hvalid : p.allValid = [] := hperm.nil_eq.symm
    simp [hvalid, HighestThreadFrom]
  | some last =>
    have hvalid : p.allValid ≠ [] := by
      intro hnil
      rw [hnil, List.perm_nil] at hperm
      rw [hperm] at hlast
      cases hlast
    rw [Option.map_some, Option.getD_some, le_last_iff hlast htid hts]
    simp [hvalid]

end ADParser

/-- The window is that of the steps parsed. -/
structure WindowOf (parsed : List ADParser) (registered : List Event) (first last : ℕ) : Prop where
  registered_nil : parsed = [] → registered = []
  first : ∀ p ∈ parsed.head?, p.FirstTs first
  last : ∀ p ∈ parsed.getLast?, p.LastTs last

/-- Every event registered since the previous analysis is no earlier than the lowest thread of the
first frame and no later than the highest thread of the last frame. -/
def AnalysisRecord.ThreadsEnclose (r : AnalysisRecord) : Prop :=
  ∀ ev ∈ r.registered, (∀ p ∈ r.parsed.head?, p.StartsBy ev.ts) ∧
    ∀ p ∈ r.parsed.getLast?, p.LastsUntil ev.ts

/-- With events registered, the window covers them exactly if the threads at its ends do. -/
theorem WindowOf.covers_iff {r : AnalysisRecord}
    (h : WindowOf r.parsed r.registered r.firstEventTs r.lastEventTs) (hne : r.registered ≠ []) :
    r.Covers ↔ r.ThreadsEnclose := by
  have hparsed : r.parsed ≠ [] := fun hnil => hne (h.registered_nil hnil)
  have hhead : r.parsed.head? = some (r.parsed.head hparsed) := List.head?_eq_some_head hparsed
  have hlast : r.parsed.getLast? = some (r.parsed.getLast hparsed) :=
    List.getLast?_eq_some_getLast hparsed
  have hfirstTs := h.first _ hhead
  have hlastTs := h.last _ hlast
  have hbounds : r.ThreadsEnclose ↔
      ∀ ev ∈ r.registered, r.firstEventTs ≤ ev.ts ∧ ev.ts ≤ r.lastEventTs := by
    rw [AnalysisRecord.ThreadsEnclose]
    refine forall₂_congr fun ev _ => ?_
    rw [hhead, hlast, hfirstTs.le_iff, hlastTs.le_iff]
    simp
  rw [AnalysisRecord.Covers, hbounds]
  refine ⟨fun h => h.2, fun h => ⟨?_, h⟩⟩
  obtain ⟨ev, hev⟩ := List.exists_mem_of_ne_nil _ hne
  exact (h ev hev).1.trans (h ev hev).2

namespace Driver

/-- The window of the driver and those of its analyses are those of the steps parsed. -/
structure Windowed (s : Driver) : Prop where
  current : WindowOf s.parsed s.registered s.execdataFirstEventTs s.execdataLastEventTs
  set_iff : s.execdataFirstEventTsSet = true ↔ s.parsed ≠ []
  analyses : ∀ r ∈ s.analyses, WindowOf r.parsed r.registered r.firstEventTs r.lastEventTs

/-- At first no event was read. -/
theorem windowed_new : new.Windowed := by
  refine ⟨⟨fun _ => rfl, ?_, ?_⟩, ?_, ?_⟩
  · intro _ h
    cases h
  · intro _ h
    cases h
  · simp [new]
  · intro _ h
    cases h

/-- Reading a frame starts the window or extends it. -/
theorem Windowed.readFrame {self t : Driver} (h : self.Windowed) {p : ParsedStep}
    (hread : self.readFrame p = .ok t) : t.Windowed := by
  obtain ⟨events, manager, registered, hevents, -, -, rfl⟩ := readFrame_ok hread
  refine ⟨⟨fun hnil => absurd hnil (by simp), fun q hq => ?_, fun q hq => ?_⟩, ?_, h.analyses⟩
  · by_cases hparsed : self.parsed = []
    · have hset : self.execdataFirstEventTsSet = false := by
        rw [Bool.eq_false_iff]
        exact fun hset => h.set_iff.mp hset hparsed
      rw [hparsed] at hq
      cases hq
      exact ⟨events, hevents, by simp only [hset]; rfl⟩
    · have hset : self.execdataFirstEventTsSet = true := h.set_iff.mpr hparsed
      simp only [List.head?_append_of_ne_nil _ hparsed] at hq
      obtain ⟨out, hout, hfirst⟩ := h.current.first q hq
      exact ⟨out, hout, by simp only [hset]; exact hfirst⟩
  · simp only [List.getLast?_concat] at hq
    cases hq
    exact ⟨events, hevents, rfl⟩
  · simp

/-- An analysis takes the window over, and the next one starts anew. -/
theorem Windowed.analyse {params : DriverParams} {self t : Driver} (h : self.Windowed)
    {input : StepInput} (hanalyse : self.analyse params input = .ok t) : t.Windowed := by
  obtain ⟨manager, report, -, rfl⟩ := analyse_ok hanalyse
  refine ⟨⟨fun _ => rfl, ?_, ?_⟩, by simp, fun r hr => ?_⟩
  · intro _ hp
    cases hp
  · intro _ hp
    cases hp
  · rcases List.mem_append.mp hr with hold | hnew
    · exact h.analyses r hold
    · rw [List.mem_singleton.mp hnew]
      exact h.current

/-- Sending statistics changes no window. -/
theorem Windowed.sendPSdata {self : Driver} (h : self.Windowed) (params : DriverParams)
    (force : Bool) : (self.sendPSdata params force).Windowed := by
  rw [Driver.sendPSdata]
  split
  · split
    · exact ⟨h.current, h.set_iff, h.analyses⟩
    · exact h
  · exact h

/-- What the driver does keeps the windows. -/
theorem Windowed.exec {params : DriverParams} {self t : Driver} (h : self.Windowed)
    {a : DriverAction} (hexec : exec params self a = .ok t) : t.Windowed := by
  cases a with
  | runFrame input =>
    obtain ⟨self₁, hread, hrest⟩ := runFrame_ok hexec
    have h₁ : self₁.Windowed := by
      rcases hread with ⟨-, rfl⟩ | ⟨p, -, hframe⟩
      · exact h
      · exact h.readFrame hframe
    rcases hrest with ⟨rfl, -⟩ | ⟨self₂, hanalyse, rfl⟩
    · exact h₁
    · have h₂ : self₂.Windowed := by
        rcases hanalyse with ⟨hanalyse, -⟩ | ⟨rfl, -⟩
        · exact h₁.analyse hanalyse
        · exact h₁
      have h₃ := h₂.sendPSdata params false
      exact ⟨h₃.current, h₃.set_iff, h₃.analyses⟩
  | endRun =>
    cases hexec
    exact h.sendPSdata params true

/-- An analysis in every step. -/
def everyStep : DriverParams :=
  { programIdx := 0, rank := 0, anomWinSize := 0, analysisStepFreq := ⟨1, Nat.one_pos⟩,
    psSendStatsFreq := ⟨1, Nat.one_pos⟩,
    usePS := true }

/-- A step that reads one call of a function on each of some threads, with entry and exit times. -/
def callsOnThreads (step : ℕ) (calls : List (ℕ × ℕ × ℕ)) : StepInput :=
  let names := (AList.singleton (0 : ℤ) "ENTRY").insert 1 "EXIT"
  let parser : ADParser :=
    { rank := 0, programIdx := 0, currentStep := step
      eventType := (AList.singleton 1 "EXIT").insert 0 "ENTRY"
      correlationIDcounterIdx := -1
      eventTimestamps := calls.flatMap fun c =>
        [0, 0, c.1, 0, 5, c.2.1, 0, 0, c.1, 1, 5, c.2.2]
      timerEventCount := 2 * calls.length
      commTimestamps := [], commCount := 0, counterTimestamps := [], counterCount := 0 }
  { parsed := some { parser := parser, funcMap := AList.singleton 5 "function"
                     eventType := names, counterMap := ∅, gpuThreadMap := [], monitored := [] }
    labels := [], threads := [] }

end Driver

end Chimbuko
