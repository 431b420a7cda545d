import Chimbuko.Library.KeyedMap
import Mathlib.Data.PNat.Basic
import Mathlib.Algebra.Order.Group.Multiset
import Mathlib.Data.List.Induction

/-!
# Provenance output of the driver

Every analysed frame adds provenance entries to the driver's buffers, one buffer for each
collection. A frame whose step is due writes each buffer to a file named by the step and the
collection, and so does the end of a run, where the step has already moved on to the next frame.
A file of that name is replaced.

`readStep` and the analysis belong to the derived class: a run is given the frames that are read
until there is no more data, each as the provenance entries that analysing it yields.
-/

namespace Chimbuko

open KeyedMap

/-- The parameters that provenance output depends on. -/
structure ChimbukoBaseParams where
  provOutputpath : String
  /-- If not -1, the step on which to start recording. -/
  provRecordStartstep : ℤ
  /-- If not -1, the step on which to stop recording. -/
  provRecordStopstep : ℤ
  /-- The frequency, in steps, at which buffers are written. -/
  provIoFreq : ℕ+
  onlyOneFrame : Bool
  /-- The most frames in a run; unlimited if negative. -/
  maxFrames : ℤ
  analysisStepFreq : ℕ+
  rank : ℕ

/-- The provenance entries of a frame, each with its collection. -/
abbrev Frame (E : Type) := List (String × E)

/-- The files of the output directory, by step and collection. -/
abbrev OutputFiles (E : Type) := AList fun _ : ℕ × String => List E

/-- The driver's provenance buffers, with the files that it writes. -/
structure ChimbukoBase (E : Type) where
  step : ℕ
  provdataBuf : AList fun _ : String => List E
  files : OutputFiles E
  /-- What was written so far. -/
  writes : List ((ℕ × String) × List E)
  /-- The entries that were added to the buffers so far. -/
  added : List E

namespace ChimbukoBase

variable {E : Type}

/-- The driver before the first run, with an empty output directory. -/
def new : ChimbukoBase E :=
  { step := 0, provdataBuf := ∅, files := ∅, writes := [], added := [] }

/-- Append an entry to the buffer of its collection. -/
def bufferEntry (self : ChimbukoBase E) (entry : String × E) : ChimbukoBase E :=
  { self with
    provdataBuf := self.provdataBuf.insert entry.1
      ((self.provdataBuf.lookup entry.1).getD [] ++ [entry.2])
    added := self.added ++ [entry.2] }

/-- Whether provenance is recorded on the current step. -/
def Records (params : ChimbukoBaseParams) (step : ℕ) : Prop :=
  ¬(params.provRecordStartstep ≠ -1 ∧ (step : ℤ) < params.provRecordStartstep) ∧
    ¬(params.provRecordStopstep ≠ -1 ∧ (step : ℤ) > params.provRecordStopstep) ∧
    0 < params.provOutputpath.length

instance (params : ChimbukoBaseParams) (step : ℕ) : Decidable (Records params step) :=
  inferInstanceAs (Decidable (_ ∧ _))

/-- Put the entries of a frame into the buffers, if its step is recorded. -/
def bufferStoreProvenanceData (params : ChimbukoBaseParams) (self : ChimbukoBase E)
    (frame : Frame E) : ChimbukoBase E :=
  if Records params self.step then frame.foldl bufferEntry self else self

/-- Write the data of a collection to the file of the current step. -/
def writeJSON (self : ChimbukoBase E) (data : List E) (coll : String) : ChimbukoBase E :=
  { self with
    files := self.files.insert (self.step, coll) data
    writes := self.writes ++ [((self.step, coll), data)] }

/-- Write the data of a collection if there are any. -/
def writeBuffer (self : ChimbukoBase E) (b : Sigma fun _ : String => List E) : ChimbukoBase E :=
  if b.2.length ≠ 0 then self.writeJSON b.2 b.1 else self

/-- Whether a step is one on which buffers are written, staggered over ranks. -/
def Due (params : ChimbukoBaseParams) (step : ℕ) : Prop :=
  (step + params.rank) % (params.provIoFreq : ℕ) = 0

instance (params : ChimbukoBaseParams) (step : ℕ) : Decidable (Due params step) :=
  inferInstanceAs (Decidable (_ = _))

/-- Write the buffers and clear them, if the step is due or it is forced. -/
def sendProvenance (params : ChimbukoBaseParams) (self : ChimbukoBase E) (force : Bool) :
    ChimbukoBase E :=
  if 0 < params.provOutputpath.length ∧ (Due params self.step ∨ force = true) then
    { self.provdataBuf.entries.foldl writeBuffer self with provdataBuf := ∅ }
  else self

/-- Whether a step is analysed. -/
def doAnalysisOnStep (params : ChimbukoBaseParams) (step : ℕ) : Bool :=
  step % (params.analysisStepFreq : ℕ) = 0

/-- What follows reading a frame. -/
def runFrame (params : ChimbukoBaseParams) (self : ChimbukoBase E) (frame : Frame E) :
    ChimbukoBase E :=
  let self := if doAnalysisOnStep params self.step then
    self.bufferStoreProvenanceData params frame else self
  let self := self.sendProvenance params false
  { self with step := self.step + 1 }

/-- The loop of a run over the frames that it reads, counting them. -/
def runFrames (params : ChimbukoBaseParams) :
    ChimbukoBase E → ℕ → List (Frame E) → ChimbukoBase E × ℕ
  | self, frames, [] => (self, frames)
  | self, frames, frame :: rest =>
    let self := self.runFrame params frame
    let frames := frames + 1
    if params.onlyOneFrame ∨ (0 < params.maxFrames ∧ (frames : ℤ) = params.maxFrames) then
      (self, frames)
    else runFrames params self frames rest

/-- A run; outstanding data are written at its end. -/
def run (params : ChimbukoBaseParams) (self : ChimbukoBase E) (input : List (Frame E)) :
    ChimbukoBase E × ℕ :=
  if params.maxFrames = 0 then (self, 0)
  else
    let (self, frames) := runFrames params self 0 input
    (self.sendProvenance params true, frames)

/-- Successive runs of one driver. -/
def runs (params : ChimbukoBaseParams) (self : ChimbukoBase E) (inputs : List (List (Frame E))) :
    ChimbukoBase E :=
  inputs.foldl (fun self input => (self.run params input).1) self

/-- The entries in all files. -/
def contents (files : OutputFiles E) : Multiset E :=
  total (fun data : List E => (data : Multiset E)) files

/-- No file was written twice, and the files hold exactly the entries that were added. -/
def WrittenOnce (self : ChimbukoBase E) : Prop :=
  (self.writes.map Prod.fst).Nodup ∧ contents self.files = self.added

/-- A run that writes its first frame does not write a file that exists. -/
def FirstFrameFresh (params : ChimbukoBaseParams) (self : ChimbukoBase E)
    (input : List (Frame E)) : Prop :=
  params.maxFrames ≠ 0 → Due params self.step → doAnalysisOnStep params self.step →
    Records params self.step →
    ∀ frame ∈ input.head?, ∀ entry ∈ frame, (self.step, entry.1) ∉ self.files

/-- The first frame of every run meets the condition. -/
def FirstFramesFresh (params : ChimbukoBaseParams) : ChimbukoBase E → List (List (Frame E)) → Prop
  | _, [] => True
  | self, input :: rest =>
    FirstFrameFresh params self input ∧ FirstFramesFresh params (self.run params input).1 rest

/-- The files that a sequence of writes leaves. -/
def disk (writes : List ((ℕ × String) × List E)) : OutputFiles E :=
  writes.foldl (fun files w => files.insert w.1 w.2) ∅

/-- The entries of a sequence of writes. -/
def written (writes : List ((ℕ × String) × List E)) : Multiset E :=
  (writes.map fun w => (w.2 : Multiset E)).sum

/-- The last write leaves its own data in its file. -/
theorem disk_concat (writes : List ((ℕ × String) × List E)) (w : (ℕ × String) × List E) :
    disk (writes ++ [w]) = (disk writes).insert w.1 w.2 := by
  rw [disk, List.foldl_append]
  rfl

/-- The last write adds its data to what was written. -/
theorem written_concat (writes : List ((ℕ × String) × List E)) (w : (ℕ × String) × List E) :
    written (writes ++ [w]) = written writes + w.2 := by
  rw [written, List.map_append, List.sum_append, List.map_singleton, List.sum_singleton]
  rfl

/-- A file has the data of one of the writes. -/
theorem mem_of_lookup_disk {writes : List ((ℕ × String) × List E)} {key : ℕ × String}
    {data : List E} (h : (disk writes).lookup key = some data) : (key, data) ∈ writes := by
  induction writes using List.reverseRecOn with
  | nil => cases h
  | append_singleton rest w ih =>
    rw [disk_concat] at h
    by_cases hkey : key = w.1
    · subst hkey
      rw [AList.lookup_insert] at h
      cases h
      exact List.mem_append_right _ List.mem_cons_self
    · rw [AList.lookup_insert_ne hkey] at h
      exact List.mem_append_left _ (ih h)

/-- The files are those that were written. -/
theorem mem_disk {writes : List ((ℕ × String) × List E)} {key : ℕ × String} :
    key ∈ disk writes ↔ key ∈ writes.map Prod.fst := by
  induction writes using List.reverseRecOn with
  | nil => simp [disk]
  | append_singleton rest w ih =>
    rw [disk_concat, AList.mem_insert, ih, List.map_append, List.mem_append, or_comm]
    simp

/-- What was written is in the files, or was replaced there. -/
theorem contents_disk_le (writes : List ((ℕ × String) × List E)) :
    contents (disk writes) ≤ written writes := by
  induction writes using List.reverseRecOn with
  | nil => exact le_rfl
  | append_singleton rest w ih =>
    rw [disk_concat, written_concat, contents, total_insert, add_comm]
    refine add_le_add_left (le_trans ?_ ih) _
    rw [contents, total_erase _ (disk rest) w.1]
    exact Multiset.le_add_left _ _

/-- The files hold everything that was written exactly if no file was written twice. -/
theorem contents_disk_eq_iff {writes : List ((ℕ × String) × List E)}
    (hdata : ∀ w ∈ writes, w.2 ≠ []) :
    contents (disk writes) = written writes ↔ (writes.map Prod.fst).Nodup := by
  induction writes using List.reverseRecOn with
  | nil => exact ⟨fun _ => List.nodup_nil, fun _ => rfl⟩
  | append_singleton rest w ih =>
    have hrest := ih fun v hv => hdata v (List.mem_append_left _ hv)
    have hold := total_erase (fun data : List E => (data : Multiset E)) (disk rest) w.1
    change contents (disk rest) = _ at hold
    rw [disk_concat, written_concat, contents, total_insert, add_comm (written rest),
      add_right_inj, List.map_append, List.nodup_append_comm, List.map_singleton,
      List.singleton_append, List.nodup_cons, ← hrest, ← mem_disk]
    cases hlookup : (disk rest).lookup w.1 with
    | none =>
      rw [hlookup, Option.map_none, Option.getD_none, zero_add] at hold
      rw [← hold]
      exact ⟨fun h => ⟨AList.lookup_eq_none.mp hlookup, h⟩, fun h => h.2⟩
    | some data =>
      have hmem : w.1 ∈ disk rest :=
        AList.lookup_isSome.mp (Option.isSome_iff_exists.mpr ⟨data, hlookup⟩)
      refine ⟨fun h => absurd ?_ (hdata _ (List.mem_append_left _ (mem_of_lookup_disk hlookup))),
        fun h => absurd hmem h.1⟩
      have hle := contents_disk_le rest
      rw [hold, hlookup, h] at hle
      have hzero := Multiset.card_le_card hle
      rw [Multiset.card_add] at hzero
      have hlength : data.length = 0 := by
        change data.length + _ ≤ _ at hzero
        omega
      exact List.length_eq_zero_iff.mp hlength

/-- The writes that empty some buffers into files of a step. -/
def flushed (step : ℕ) (buffers : List (Sigma fun _ : String => List E)) :
    List ((ℕ × String) × List E) :=
  (buffers.filter fun b => b.2.length ≠ 0).map fun b => ((step, b.1), b.2)

/-- A buffer has data. -/
def HasData (buf : AList fun _ : String => List E) (coll : String) : Prop :=
  ∃ data, buf.lookup coll = some data ∧ data ≠ []

/-- Emptying the buffers adds writes to the files. -/
theorem foldl_writeBuffer (buffers : List (Sigma fun _ : String => List E))
    {self : ChimbukoBase E} (hfiles : self.files = disk self.writes) :
    buffers.foldl writeBuffer self = { self with
      writes := self.writes ++ flushed self.step buffers
      files := disk (self.writes ++ flushed self.step buffers) } := by
  induction buffers generalizing self with
  | nil =>
    rw [flushed, List.filter_nil, List.map_nil, List.append_nil, ← hfiles]
    rfl
  | cons b rest ih =>
    rw [List.foldl_cons, writeBuffer]
    by_cases hb : b.2.length ≠ 0
    · have hwrite : (self.writeJSON b.2 b.1).files = disk (self.writeJSON b.2 b.1).writes := by
        rw [writeJSON, disk_concat, hfiles]
      rw [if_pos hb, ih hwrite]
      simp only [writeJSON, flushed, List.filter_cons, decide_eq_true hb, if_true, List.map_cons,
        List.append_assoc, List.singleton_append]
    · rw [if_neg hb, ih hfiles]
      simp only [flushed, List.filter_cons, decide_eq_false hb, Bool.false_eq_true, if_false]

/-- Flushing buffers writes their data. -/
theorem written_flushed (step : ℕ) (buffers : List (Sigma fun _ : String => List E)) :
    written (flushed step buffers) =
      ((buffers.map Sigma.snd).map fun data : List E => (data : Multiset E)).sum := by
  induction buffers with
  | nil => rfl
  | cons b rest ih =>
    rw [List.map_cons, List.map_cons, List.sum_cons, ← ih, flushed, List.filter_cons]
    split
    · rfl
    · rename_i hb
      have hnil : b.2 = [] := by simpa using hb
      rw [hnil, Multiset.coe_nil, zero_add]
      rfl

/-- What was written first and then is what was written. -/
theorem written_append (ws ws' : List ((ℕ × String) × List E)) :
    written (ws ++ ws') = written ws + written ws' := by
  rw [written, List.map_append, List.sum_append]
  rfl

/-- The files of the buffers of one map are different ones. -/
theorem nodup_flushed (step : ℕ) (buf : AList fun _ : String => List E) :
    ((flushed step buf.entries).map Prod.fst).Nodup := by
  have hkeys : (flushed step buf.entries).map Prod.fst =
      ((buf.entries.filter fun b => b.2.length ≠ 0).map Sigma.fst).map fun c => (step, c) := by
    rw [flushed, List.map_map, List.map_map]
    rfl
  rw [hkeys]
  refine List.Nodup.map (fun c c' h => congrArg Prod.snd h) ?_
  exact (List.filter_sublist.map Sigma.fst).nodup buf.nodupKeys

/-- Flushing writes the files of the collections with data. -/
theorem mem_flushed {step : ℕ} {buf : AList fun _ : String => List E} {key : ℕ × String} :
    key ∈ (flushed step buf.entries).map Prod.fst ↔ key.1 = step ∧ HasData buf key.2 := by
  rw [flushed, List.map_map, List.mem_map]
  constructor
  · rintro ⟨b, hb, rfl⟩
    obtain ⟨hmem, hlength⟩ := List.mem_filter.mp hb
    refine ⟨rfl, b.2, AList.mem_lookup_iff.mpr hmem, fun h => ?_⟩
    rw [h] at hlength
    cases hlength
  · rintro ⟨hstep, data, hdata, hne⟩
    refine ⟨⟨key.2, data⟩, List.mem_filter.mpr ⟨AList.mem_lookup_iff.mp hdata, ?_⟩,
      Prod.ext hstep.symm rfl⟩
    exact decide_eq_true fun h => hne (List.length_eq_zero_iff.mp h)

/-- The files and buffers hold what they should, files being those of steps so far. -/
structure Consistent (s : ChimbukoBase E) : Prop where
  files : s.files = disk s.writes
  data : ∀ w ∈ s.writes, w.2 ≠ []
  step_le : ∀ w ∈ s.writes, w.1.1 ≤ s.step
  added : (s.added : Multiset E) =
    total (fun data : List E => (data : Multiset E)) s.provdataBuf + written s.writes

/-- At first nothing was written or added. -/
theorem consistent_new : (new : ChimbukoBase E).Consistent :=
  ⟨rfl, fun _ h => absurd h List.not_mem_nil, fun _ h => absurd h List.not_mem_nil, rfl⟩

/-- An entry that is buffered is added. -/
theorem Consistent.bufferEntry {self : ChimbukoBase E} (h : self.Consistent)
    (entry : String × E) : (self.bufferEntry entry).Consistent := by
  refine ⟨h.files, h.data, h.step_le, ?_⟩
  rw [ChimbukoBase.bufferEntry, total_insert, ← Multiset.coe_add, h.added,
    total_erase _ self.provdataBuf entry.1]
  cases self.provdataBuf.lookup entry.1 with
  | none =>
    change _ + ({entry.2} : Multiset E) = (({entry.2} : Multiset E) + _) + _
    rw [Option.map_none, Option.getD_none]
    abel
  | some data =>
    change ((data : Multiset E) + _ + _) + ({entry.2} : Multiset E) =
      (((data ++ [entry.2] : List E) : Multiset E) + _) + _
    rw [← Multiset.coe_add, Multiset.coe_singleton]
    abel

/-- An entry gives its collection data. -/
theorem hasData_bufferEntry {self : ChimbukoBase E} {entry : String × E} {coll : String} :
    HasData (self.bufferEntry entry).provdataBuf coll ↔
      HasData self.provdataBuf coll ∨ entry.1 = coll := by
  rw [bufferEntry]
  by_cases hcoll : coll = entry.1
  · subst hcoll
    refine ⟨fun _ => Or.inr rfl, fun _ => ⟨_, AList.lookup_insert _, ?_⟩⟩
    exact List.append_ne_nil_of_right_ne_nil _ (List.cons_ne_nil _ _)
  · simp only [HasData, AList.lookup_insert_ne hcoll]
    exact ⟨Or.inl, fun h => h.resolve_right fun heq => hcoll heq.symm⟩

/-- Buffering changes only the buffers. -/
theorem foldl_bufferEntry (frame : Frame E) {self : ChimbukoBase E} (h : self.Consistent) :
    (frame.foldl bufferEntry self).Consistent ∧
      (frame.foldl bufferEntry self).step = self.step ∧
      (frame.foldl bufferEntry self).writes = self.writes ∧
      ∀ coll, HasData (frame.foldl bufferEntry self).provdataBuf coll ↔
        HasData self.provdataBuf coll ∨ ∃ entry ∈ frame, entry.1 = coll := by
  induction frame generalizing self with
  | nil => exact ⟨h, rfl, rfl, fun coll => by simp⟩
  | cons entry rest ih =>
    obtain ⟨hconsistent, hstep, hwrites, hdata⟩ := ih (h.bufferEntry entry)
    refine ⟨hconsistent, hstep, hwrites, fun coll => ?_⟩
    rw [List.foldl_cons, hdata, hasData_bufferEntry, or_assoc]
    simp

/-- Sending the buffers clears them and writes files of the current step. -/
theorem Consistent.send {self : ChimbukoBase E} (h : self.Consistent)
    {params : ChimbukoBaseParams} {force : Bool} (hpath : 0 < params.provOutputpath.length)
    (hsend : Due params self.step ∨ force = true) :
    (self.sendProvenance params force).Consistent ∧
      (self.sendProvenance params force).step = self.step ∧
      (self.sendProvenance params force).provdataBuf = ∅ ∧
      (self.sendProvenance params force).writes =
        self.writes ++ flushed self.step self.provdataBuf.entries := by
  rw [sendProvenance, if_pos ⟨hpath, hsend⟩, foldl_writeBuffer _ h.files]
  refine ⟨⟨rfl, fun w hw => ?_, fun w hw => ?_, ?_⟩, rfl, rfl, rfl⟩
  · rcases List.mem_append.mp hw with hold | hnew
    · exact h.data w hold
    · obtain ⟨b, hb, rfl⟩ := List.mem_map.mp hnew
      exact List.ne_nil_of_length_pos (Nat.pos_of_ne_zero
        (of_decide_eq_true (List.mem_filter.mp hb).2))
  · rcases List.mem_append.mp hw with hold | hnew
    · exact h.step_le w hold
    · obtain ⟨b, -, rfl⟩ := List.mem_map.mp hnew
      exact le_rfl
  · change (self.added : Multiset E) = total _ ∅ + written (_ ++ _)
    rw [h.added, written_append, written_flushed, total_empty, zero_add, add_comm]
    rfl

/-- Nothing is written on a step that is not due. -/
theorem sendProvenance_not_due {self : ChimbukoBase E} {params : ChimbukoBaseParams}
    (h : ¬Due params self.step) : self.sendProvenance params false = self := by
  rw [sendProvenance, if_neg]
  rintro ⟨-, hdue | hforce⟩
  · exact h hdue
  · cases hforce

/-- The writes of one step are new files if no file of the step exists for a buffer with data. -/
theorem nodup_append_flushed {writes : List ((ℕ × String) × List E)} {step : ℕ}
    {buf : AList fun _ : String => List E} :
    ((writes ++ flushed step buf.entries).map Prod.fst).Nodup ↔
      (writes.map Prod.fst).Nodup ∧
        ∀ coll, HasData buf coll → (step, coll) ∉ writes.map Prod.fst := by
  rw [List.map_append, List.nodup_append']
  constructor
  · rintro ⟨hwrites, -, hdisjoint⟩
    exact ⟨hwrites, fun coll hdata hmem => hdisjoint hmem (mem_flushed.mpr ⟨rfl, hdata⟩)⟩
  · rintro ⟨hwrites, hfresh⟩
    refine ⟨hwrites, nodup_flushed step buf, fun key hold hnew => ?_⟩
    obtain ⟨hstep, hdata⟩ := mem_flushed.mp hnew
    refine hfresh key.2 hdata ?_
    rw [← hstep]
    exact hold

/-- The driver after buffering the entries of a frame. -/
def buffered (params : ChimbukoBaseParams) (self : ChimbukoBase E) (frame : Frame E) :
    ChimbukoBase E :=
  if doAnalysisOnStep params self.step then self.bufferStoreProvenanceData params frame else self

/-- A frame is buffered, sent and counted. -/
theorem runFrame_eq (params : ChimbukoBaseParams) (self : ChimbukoBase E) (frame : Frame E) :
    self.runFrame params frame =
      { (self.buffered params frame).sendProvenance params false with
        step := ((self.buffered params frame).sendProvenance params false).step + 1 } := rfl

/-- Buffering a frame only changes the buffers. -/
theorem Consistent.buffered {self : ChimbukoBase E} (h : self.Consistent)
    (params : ChimbukoBaseParams) (frame : Frame E) :
    (self.buffered params frame).Consistent ∧ (self.buffered params frame).step = self.step ∧
      (self.buffered params frame).writes = self.writes ∧
      ∀ coll, HasData (self.buffered params frame).provdataBuf coll ↔
        HasData self.provdataBuf coll ∨ doAnalysisOnStep params self.step ∧
          Records params self.step ∧ ∃ entry ∈ frame, entry.1 = coll := by
  rw [ChimbukoBase.buffered]
  split
  · rename_i hanalysis
    rw [bufferStoreProvenanceData]
    split
    · rename_i hrecords
      obtain ⟨hconsistent, hstep, hwrites, hdata⟩ := foldl_bufferEntry frame h
      refine ⟨hconsistent, hstep, hwrites, fun coll => (hdata coll).trans ?_⟩
      simp [hanalysis, hrecords]
    · rename_i hrecords
      exact ⟨h, rfl, rfl, fun coll => by simp [hrecords]⟩
  · rename_i hanalysis
    exact ⟨h, rfl, rfl, fun coll => by simp [hanalysis]⟩

/-- All files are of earlier steps. -/
def Past (self : ChimbukoBase E) : Prop := ∀ w ∈ self.writes, w.1.1 < self.step

/-- After a frame all files are of earlier steps, and it wrote no file twice exactly if none of
the files that it wrote existed. -/
theorem Consistent.runFrame {self : ChimbukoBase E} (h : self.Consistent)
    {params : ChimbukoBaseParams} (hpath : 0 < params.provOutputpath.length) (frame : Frame E) :
    (self.runFrame params frame).Consistent ∧ (self.runFrame params frame).Past ∧
      (((self.runFrame params frame).writes.map Prod.fst).Nodup ↔
        (self.writes.map Prod.fst).Nodup ∧ (Due params self.step → ∀ coll,
          HasData (self.buffered params frame).provdataBuf coll →
            (self.step, coll) ∉ self.writes.map Prod.fst)) := by
  obtain ⟨hbuffered, hstep, hwrites, -⟩ := h.buffered params frame
  rw [runFrame_eq]
  by_cases hdue : Due params (self.buffered params frame).step
  · obtain ⟨hsent, hstep', -, hwrites'⟩ := hbuffered.send hpath (Or.inl hdue)
    refine ⟨⟨hsent.files, hsent.data, fun w hw => Nat.le_succ_of_le (hsent.step_le w hw),
      hsent.added⟩, fun w hw => Nat.lt_succ_of_le (hsent.step_le w hw), ?_⟩
    change ((((self.buffered params frame).sendProvenance params false).writes.map
      Prod.fst).Nodup ↔ _)
    rw [hwrites', nodup_append_flushed, hwrites, hstep]
    simp only [show Due params self.step from hstep ▸ hdue, forall_const]
  · rw [sendProvenance_not_due hdue]
    refine ⟨⟨hbuffered.files, hbuffered.data, fun w hw =>
      Nat.le_succ_of_le (hbuffered.step_le w hw), hbuffered.added⟩,
      fun w hw => Nat.lt_succ_of_le (hbuffered.step_le w hw), ?_⟩
    change ((self.buffered params frame).writes.map Prod.fst).Nodup ↔ _
    rw [hwrites]
    exact ⟨fun hnodup => ⟨hnodup, fun hdue' => absurd (hstep.symm ▸ hdue') hdue⟩, fun h => h.1⟩

/-- The files of the current step were not written before. -/
theorem Past.not_mem {self : ChimbukoBase E} (h : self.Past) (coll : String) :
    (self.step, coll) ∉ self.writes.map Prod.fst := by
  intro hmem
  obtain ⟨w, hw, hkey⟩ := List.mem_map.mp hmem
  have hlt := h w hw
  rw [hkey] at hlt
  exact lt_irrefl _ hlt

/-- Once all files are of earlier steps, a run writes only new files. -/
theorem Consistent.runFrames {self : ChimbukoBase E} (h : self.Consistent) (hpast : self.Past)
    {params : ChimbukoBaseParams} (hpath : 0 < params.provOutputpath.length) (frames : ℕ)
    (input : List (Frame E)) :
    (runFrames params self frames input).1.Consistent ∧
      (runFrames params self frames input).1.Past ∧
      (((runFrames params self frames input).1.writes.map Prod.fst).Nodup ↔
        (self.writes.map Prod.fst).Nodup) := by
  induction input generalizing self frames with
  | nil => exact ⟨h, hpast, Iff.rfl⟩
  | cons frame rest ih =>
    obtain ⟨hframe, hpastFrame, hnodup⟩ := h.runFrame hpath frame
    have hnew : ((self.runFrame params frame).writes.map Prod.fst).Nodup ↔
        (self.writes.map Prod.fst).Nodup :=
      hnodup.trans (and_iff_left fun _ coll _ => hpast.not_mem coll)
    rw [ChimbukoBase.runFrames]
    split
    · exact ⟨hframe, hpastFrame, hnew⟩
    · obtain ⟨hrest, hpastRest, hnodupRest⟩ := ih hframe hpastFrame (frames + 1)
      exact ⟨hrest, hpastRest, hnodupRest.trans hnew⟩

/-- With empty buffers, the first frame writes the collections of its own entries. -/
theorem Consistent.firstFrameFresh_iff {self : ChimbukoBase E} (h : self.Consistent)
    (hbuf : self.provdataBuf = ∅) {params : ChimbukoBaseParams} (hmax : params.maxFrames ≠ 0)
    (frame : Frame E) (rest : List (Frame E)) :
    FirstFrameFresh params self (frame :: rest) ↔ (Due params self.step → ∀ coll,
      HasData (self.buffered params frame).provdataBuf coll →
        (self.step, coll) ∉ self.writes.map Prod.fst) := by
  obtain ⟨-, -, -, hdata⟩ := h.buffered params frame
  have hempty : ∀ coll, ¬HasData self.provdataBuf coll := by
    rintro coll ⟨data, hlookup, -⟩
    rw [hbuf, AList.lookup_empty] at hlookup
    cases hlookup
  have hmem : ∀ key, key ∈ self.files ↔ key ∈ self.writes.map Prod.fst := by
    intro key
    rw [h.files]
    exact mem_disk
  constructor
  · intro hfresh hdue coll hcoll
    obtain hold | ⟨hanalysis, hrecords, entry, hentry, rfl⟩ := (hdata coll).mp hcoll
    · exact absurd hold (hempty coll)
    · rw [← hmem]
      exact hfresh hmax hdue hanalysis hrecords frame rfl entry hentry
  · intro hfresh _ hdue hanalysis hrecords first hfirst entry hentry
    obtain rfl : frame = first := Option.some.inj hfirst
    rw [hmem]
    exact hfresh hdue entry.1
      ((hdata _).mpr (Or.inr ⟨hanalysis, hrecords, entry, hentry, rfl⟩))

/-- A run leaves no data in the buffers, and writes no file twice exactly if it does not write a
file that exists with its first frame. -/
theorem Consistent.run {self : ChimbukoBase E} (h : self.Consistent)
    (hbuf : self.provdataBuf = ∅) {params : ChimbukoBaseParams}
    (hpath : 0 < params.provOutputpath.length) (input : List (Frame E)) :
    (self.run params input).1.Consistent ∧ (self.run params input).1.provdataBuf = ∅ ∧
      (((self.run params input).1.writes.map Prod.fst).Nodup ↔
        (self.writes.map Prod.fst).Nodup ∧ FirstFrameFresh params self input) := by
  rw [ChimbukoBase.run]
  split
  · rename_i hmax
    exact ⟨h, hbuf, iff_self_and.mpr fun _ hne => absurd hmax hne⟩
  · rename_i hmax
    cases input with
    | nil =>
      obtain ⟨hsent, -, hbuf', hwrites⟩ := h.send hpath (Or.inr (rfl : true = true))
      refine ⟨hsent, hbuf', ?_⟩
      change ((self.sendProvenance params true).writes.map Prod.fst).Nodup ↔ _
      rw [hwrites, hbuf]
      change ((self.writes ++ []).map Prod.fst).Nodup ↔ _
      rw [List.append_nil]
      exact iff_self_and.mpr fun _ _ _ _ _ frame hframe => by cases hframe
    | cons frame rest =>
      have hframes : (self.runFrames params 0 (frame :: rest)).1.Consistent ∧
          (self.runFrames params 0 (frame :: rest)).1.Past ∧
          (((self.runFrames params 0 (frame :: rest)).1.writes.map Prod.fst).Nodup ↔
            (self.writes.map Prod.fst).Nodup ∧ FirstFrameFresh params self (frame :: rest)) := by
        obtain ⟨hframe, hpast, hnodup⟩ := h.runFrame hpath frame
        rw [h.firstFrameFresh_iff hbuf hmax, ChimbukoBase.runFrames]
        split
        · exact ⟨hframe, hpast, hnodup⟩
        · obtain ⟨hrest, hpastRest, hnodupRest⟩ := hframe.runFrames hpast hpath (0 + 1) rest
          exact ⟨hrest, hpastRest, hnodupRest.trans hnodup⟩
      obtain ⟨hconsistent, hpast, hnodup⟩ := hframes
      obtain ⟨hsent, -, hbuf', hwrites⟩ := hconsistent.send hpath (Or.inr (rfl : true = true))
      refine ⟨hsent, hbuf', ?_⟩
      change (((self.runFrames params 0 (frame :: rest)).1.sendProvenance params true).writes.map
        Prod.fst).Nodup ↔ _
      rw [hwrites, nodup_append_flushed, ← hnodup]
      exact and_iff_left fun coll _ => hpast.not_mem coll

/-- The first run comes before the others. -/
theorem runs_cons (params : ChimbukoBaseParams) (self : ChimbukoBase E) (input : List (Frame E))
    (inputs : List (List (Frame E))) :
    runs params self (input :: inputs) = runs params (self.run params input).1 inputs := rfl

/-- Every run leaves empty buffers, and no file twice exactly if its first frame is fresh. -/
theorem Consistent.runs {self : ChimbukoBase E} (h : self.Consistent)
    (hbuf : self.provdataBuf = ∅) {params : ChimbukoBaseParams}
    (hpath : 0 < params.provOutputpath.length) (inputs : List (List (Frame E))) :
    (runs params self inputs).Consistent ∧ (runs params self inputs).provdataBuf = ∅ ∧
      (((runs params self inputs).writes.map Prod.fst).Nodup ↔
        (self.writes.map Prod.fst).Nodup ∧ FirstFramesFresh params self inputs) := by
  induction inputs generalizing self with
  | nil => exact ⟨h, hbuf, iff_self_and.mpr fun _ => trivial⟩
  | cons input rest ih =>
    obtain ⟨hrun, hbufRun, hnodup⟩ := h.run hbuf hpath input
    obtain ⟨hrest, hbufRest, hnodupRest⟩ := ih hrun hbufRun
    refine ⟨hrest, hbufRest, ?_⟩
    rw [runs_cons, hnodupRest, hnodup, and_assoc]
    rfl

/-- With empty buffers the files hold all entries exactly if no file was written twice. -/
theorem Consistent.contents_eq_iff {self : ChimbukoBase E} (h : self.Consistent)
    (hbuf : self.provdataBuf = ∅) :
    contents self.files = self.added ↔ (self.writes.map Prod.fst).Nodup := by
  rw [h.files, h.added, hbuf, total_empty, zero_add]
  exact contents_disk_eq_iff h.data

/-- Over any runs of the driver, provenance output is written exactly once if and only if no run
writes its first frame to a file that exists. -/
theorem writtenOnce_iff (params : ChimbukoBaseParams) (hpath : 0 < params.provOutputpath.length)
    (inputs : List (List (Frame E))) :
    WrittenOnce (runs params new inputs) ↔ FirstFramesFresh params new inputs := by
  obtain ⟨hruns, hbuf, hnodup⟩ := (consistent_new (E := E)).runs rfl hpath inputs
  rw [WrittenOnce, hruns.contents_eq_iff hbuf, and_self_iff, hnodup]
  exact and_iff_right List.nodup_nil

/-- One frame in every run of rank 1, with output on every second step. -/
def oneFrameParams : ChimbukoBaseParams :=
  { provOutputpath := "provenance", provRecordStartstep := -1, provRecordStopstep := -1
    provIoFreq := 2, onlyOneFrame := true, maxFrames := -1, analysisStepFreq := 1, rank := 1 }

/-- Two frames with one anomaly each, read in two runs of rank 0, are written exactly once: the
first one is written on its own step, and the second one at the end of its run. -/
theorem writtenOnce_iff_twoRuns :
    WrittenOnce (runs { oneFrameParams with rank := 0 } new
      [[[("anomalies", 0)]], [[("anomalies", 1)]]]) := by
  refine (writtenOnce_iff _ (by decide) _).mpr ⟨?_, ?_, trivial⟩
  · intro _ _ _ _ frame _ entry _
    exact AList.notMem_empty _
  · intro _ hdue
    exact absurd hdue (by decide)

/-- On rank 1 the second frame replaces the file of the first. -/
theorem not_writtenOnce_twoRuns :
    ¬WrittenOnce (runs oneFrameParams new [[[("anomalies", 0)]], [[("anomalies", 1)]]]) := by
  rintro ⟨hnodup, -⟩
  revert hnodup
  decide +kernel

end ChimbukoBase

end Chimbuko
