import PebbleDB.Jobs

/-!
# How far a compaction job gets

`execute_job` writes its outputs, then the marker, then removes its inputs, then updates the
handle, then removes the marker. `JobExit` lists where this can be cut off and what the
directory and the handle are there; `JobDone` is the end.
-/

namespace PebbleDB

open EarlyExit

/-! ## The outputs -/

/-- The outputs stand in `files`, and nothing else has changed there. -/
structure Added (level : Nat) (outs : List SSTable) (files files' : String → Option Bytes) :
    Prop where
  path : ∀ o ∈ outs, o.path = sstableFileName level o.id
  stored : ∀ o ∈ outs, o.StoredIn files'
  others : ∀ name, (∀ o ∈ outs, o.path ≠ name) → files' name = files name

theorem Added.nil (level : Nat) (files : String → Option Bytes) : Added level [] files files :=
  ⟨fun _ h => absurd h List.not_mem_nil, fun _ h => absurd h List.not_mem_nil, fun _ _ => rfl⟩

/-- The ids of the outputs are new, and ascend. -/
structure NewIds (first next : Nat) (outs : List SSTable) : Prop where
  ascending : outs.Pairwise fun a b => a.id < b.id
  fresh : ∀ o ∈ outs, first ≤ o.id
  below : ∀ o ∈ outs, o.id < next
  fits : ∀ o ∈ outs, o.id + 1 < 2 ^ 64

theorem NewIds.mono {first next next' : Nat} {outs : List SSTable} (h : NewIds first next outs)
    (hle : next ≤ next') : NewIds first next' outs :=
  ⟨h.ascending, h.fresh, fun o ho => (h.below o ho).trans_le hle, h.fits⟩

/-- The first of the pieces have been written, as `outs`. -/
structure Outputs (level : Nat) (chunks : List (SortedMap String SSTableEntry)) (w w' : World)
    (outs : List SSTable) : Prop where
  ids : NewIds w.inner.nextSstId w'.inner.nextSstId outs
  added : Added level outs w.files w'.files
  length_le : outs.length ≤ chunks.length
  holds : w'.disk.Fits → List.Forall₂ SSTable.Holds outs (chunks.take outs.length)

theorem Outputs.nil {level : Nat} {w w' : World} (chunks : List (SortedMap String SSTableEntry))
    (hfiles : w'.files = w.files) :
    Outputs level chunks w w' [] where
  ids := ⟨List.Pairwise.nil, by simp, by simp, by simp⟩
  added := hfiles ▸ Added.nil _ _
  length_le := Nat.zero_le _
  holds := fun _ => List.Forall₂.nil

section Run

variable [BloomSizing] {level : Nat} {w w' : World}

/-- A file that was added can be read back, whether the call got to do so or not. -/
theorem FileAdded.exists_wrote {entries : SortedMap String SSTableEntry}
    (h : FileAdded level entries w w') (hfits : w'.disk.Fits) :
    ∃ sst, Wrote level entries w w' sst := by
  obtain ⟨file, hfile, hlog, hfiles⟩ := h.files
  obtain ⟨sst, hload, hholds, hid, hpath, -⟩ := SSTable.load_holds hfile (hfits.offsetsFit hlog)
    w.inner.nextSstId (sstableFileName level w.inner.nextSstId)
  refine ⟨sst, h, hid, hpath, ⟨file, ?_, ?_⟩, fun _ => hholds⟩
  · rw [hpath, hfiles, Function.update_self]
  · rw [hid, hpath]
    exact hload

theorem Wrote.outputs {entries : SortedMap String SSTableEntry} {sst : SSTable}
    (h : Wrote level entries w w' sst) (chunks : List (SortedMap String SSTableEntry)) :
    Outputs level (entries :: chunks) w w' [sst] := by
  obtain ⟨file, -, -, hfiles⟩ := h.files
  have hnext := h.nextSstId
  have hfit := h.idFits
  have hid := h.id
  refine ⟨⟨List.pairwise_singleton _ _, ?_, ?_, ?_⟩, ⟨?_, ?_, ?_⟩, by simp, fun hfits => ?_⟩
  · simp [hid]
  · simp [hid, hnext]
  · intro o ho
    rw [List.mem_singleton.mp ho, hid]
    exact hfit
  · simp [h.path, hid]
  · simpa using h.stored
  · intro name hname
    rw [hfiles, Function.update_of_ne]
    rintro rfl
    exact hname sst List.mem_cons_self h.path
  · exact List.Forall₂.cons (h.holds hfits) List.Forall₂.nil

/-- One more file in front. -/
theorem Outputs.cons {entries : SortedMap String SSTableEntry}
    {chunks : List (SortedMap String SSTableEntry)} {w₁ : World} {sst : SSTable}
    {outs : List SSTable} (hlevel : level < 2 ^ 32) (h : Wrote level entries w w₁ sst)
    (hrest : Outputs level chunks w₁ w' outs) (hframe : w₁.Frame w') :
    Outputs level (entries :: chunks) w w' (sst :: outs) := by
  have hnext := h.nextSstId
  have hfit := h.idFits
  have hid := h.id
  have hlt : ∀ o ∈ outs, sst.id < o.id := fun o ho => by
    have := hrest.ids.fresh o ho
    omega
  have hne : ∀ o ∈ outs, o.path ≠ sst.path := by
    intro o ho heq
    rw [hrest.added.path o ho, h.path] at heq
    have := hrest.ids.fits o ho
    have := (sstableFileName_injective hlevel (by omega) hlevel (by omega) heq).2
    have := hlt o ho
    omega
  obtain ⟨file, -, -, hfiles⟩ := h.files
  refine ⟨⟨hrest.ids.ascending.cons hlt, ?_, ?_, ?_⟩, ⟨?_, ?_, ?_⟩, ?_, fun hfits => ?_⟩
  · intro o ho
    rcases List.mem_cons.mp ho with rfl | ho
    · omega
    · have := hlt o ho
      omega
  · intro o ho
    rcases List.mem_cons.mp ho with rfl | ho
    · have := hframe.nextSstId
      omega
    · exact hrest.ids.below o ho
  · intro o ho
    rcases List.mem_cons.mp ho with rfl | ho
    · omega
    · exact hrest.ids.fits o ho
  · intro o ho
    rcases List.mem_cons.mp ho with rfl | ho
    · rw [h.path, hid]
    · exact hrest.added.path o ho
  · intro o ho
    rcases List.mem_cons.mp ho with rfl | ho
    · obtain ⟨data, hdata, hload⟩ := h.stored
      exact ⟨data, (hrest.added.others _ hne).trans hdata, hload⟩
    · exact hrest.added.stored o ho
  · intro name hname
    rw [hrest.added.others name fun o ho => hname o (List.mem_cons_of_mem _ ho), hfiles,
      Function.update_of_ne]
    rintro rfl
    exact hname sst List.mem_cons_self h.path
  · simpa using hrest.length_le
  · exact List.Forall₂.cons (h.holds (hframe.disk.fits hfits)) (hrest.holds hfits)

theorem along_writeAll (chunks : List (SortedMap String SSTableEntry)) :
    Along World.Frame (writeAll level chunks) := by
  induction chunks with
  | nil => exact .pure .refl _
  | cons chunk chunks ih =>
    exact .bind .trans (along_writeLevelFile _ _) fun _ => .bind .trans ih fun _ => .pure .refl _

/-- Writing the pieces of a job; cut off, it has written the first few. -/
theorem wp_writeAll (hlevel : level < 2 ^ 32) (chunks : List (SortedMap String SSTableEntry))
    (w : World) :
    Wp (writeAll level chunks)
      (fun outs w' => w.inner.SameData w'.inner ∧ outs.length = chunks.length ∧
        Outputs level chunks w w' outs)
      (fun _ w' => w.inner.SameData w'.inner ∧
        (w'.disk.Fits → ∃ outs, Outputs level chunks w w' outs)) w := by
  induction chunks generalizing w with
  | nil => exact Wp.pure ⟨.refl _, rfl, .nil _ rfl⟩
  | cons chunk chunks ih =>
    rw [writeAll]
    refine Wp.bind ((wp_writeLevelFile hlevel w).mono (fun sst w₁ h => ?_) fun e w₁ h => ?_)
    · refine Wp.bind (((ih w₁).and (along_writeAll chunks w₁)).mono ?_ ?_)
      · rintro outs w' ⟨⟨hdata, hlen, houts⟩, hframe⟩
        exact Wp.pure ⟨h.data.trans hdata, by simp [hlen], .cons hlevel h houts hframe⟩
      · rintro e w' ⟨⟨hdata, houts⟩, hframe⟩
        refine ⟨h.data.trans hdata, fun hfits => ?_⟩
        obtain ⟨outs, houts⟩ := houts hfits
        exact ⟨sst :: outs, .cons hlevel h houts hframe⟩
    · refine ⟨h.data, fun hfits => ?_⟩
      rcases h.files with hsame | hadded
      · exact ⟨[], .nil _ hsame⟩
      · obtain ⟨sst, hwrote⟩ := hadded.exists_wrote hfits
        exact ⟨[sst], hwrote.outputs chunks⟩

end Run

/-! ## The marker and the inputs -/

/-- Some files among `names` are gone. -/
def Removed (names : List String) (files files' : String → Option Bytes) : Prop :=
  ∀ name, files' name = files name ∨ (name ∈ names ∧ files' name = none)

theorem Removed.refl (names : List String) (files : String → Option Bytes) :
    Removed names files files := fun _ => Or.inl rfl

theorem Removed.trans {names : List String} {f g h : String → Option Bytes}
    (hfg : Removed names f g) (hgh : Removed names g h) : Removed names f h := by
  intro name
  rcases hgh name with heq | hgone
  · rw [heq]
    exact hfg name
  · exact Or.inr hgone

theorem Removed.mono {names names' : List String} {f g : String → Option Bytes}
    (h : Removed names f g) (hsub : names ⊆ names') : Removed names' f g :=
  fun name => (h name).imp id fun hgone => ⟨hsub hgone.1, hgone.2⟩

theorem removed_update {files : String → Option Bytes} (name : String) :
    Removed [name] files (Function.update files name none) := by
  intro other
  rw [Function.update_apply]
  split
  · rename_i h
    exact Or.inr ⟨List.mem_singleton.mpr h, rfl⟩
  · exact Or.inl rfl

theorem settled_remove_cut (dir : Dir) (name : String) (cut : Nat) :
    settled ((FileOp.remove name).applyCut cut dir) = settled dir ∨
      settled ((FileOp.remove name).applyCut cut dir) =
        Function.update (settled dir) name none := by
  cases cut with
  | zero => exact Or.inl rfl
  | succ cut => exact Or.inr (settled_erase dir name)

theorem removed_of_cut {dir : Dir} {name : String} {cut : Nat} :
    Removed [name] (settled dir) (settled ((FileOp.remove name).applyCut cut dir)) := by
  rcases settled_remove_cut dir name cut with heq | heq
  · rw [heq]
    exact .refl _ _
  · rw [heq]
    exact removed_update name

/-- Removing the inputs touches nothing else; a file stays only if it cannot be removed. -/
theorem wp_deleteInputs (inputs : List Placed) (w : World) :
    Wp (deleteInputs inputs)
      (fun _ w' => w.inner.SameData w'.inner ∧
        Removed (inputs.map fun input => input.2.path) w.files w'.files ∧
        ∀ input ∈ inputs, w.disk.unlinkFails input.2.path = false →
          w'.files input.2.path = none)
      (fun _ w' => w.inner.SameData w'.inner ∧
        Removed (inputs.map fun input => input.2.path) w.files w'.files) w := by
  induction inputs generalizing w with
  | nil => exact Wp.pure ⟨.refl _, .refl _ _, fun _ h => absurd h List.not_mem_nil⟩
  | cons input inputs ih =>
    rw [deleteInputs]
    refine Wp.bind (wp_hit (fun _ => ?_) fun _ _ => ⟨⟨rfl, rfl⟩, .refl _ _⟩)
    have hhead : [input.2.path] ⊆ (input :: inputs).map fun input => input.2.path := by simp
    have htail : (inputs.map fun input => input.2.path) ⊆
        (input :: inputs).map fun input => input.2.path := by simp
    -- the rest of the loop, from wherever the removal of this file left the directory
    have hrest : ∀ disk : Disk, Removed [input.2.path] w.files (settled disk.dir) →
        disk.unlinkFails = w.disk.unlinkFails →
        (w.disk.unlinkFails input.2.path = false → settled disk.dir input.2.path = none) →
        Wp (deleteInputs inputs)
          (fun _ w' => w.inner.SameData w'.inner ∧
            Removed ((input :: inputs).map fun input => input.2.path) w.files w'.files ∧
            ∀ i ∈ input :: inputs, w.disk.unlinkFails i.2.path = false →
              w'.files i.2.path = none)
          (fun _ w' => w.inner.SameData w'.inner ∧
            Removed ((input :: inputs).map fun input => input.2.path) w.files w'.files)
          ⟨{ w.inner with fault := (w.inner.fault.hit .beforeObsoleteFileDelete).2 }, disk⟩ := by
      intro disk hremoved hfails hgone
      refine (ih ⟨_, disk⟩).mono ?_ ?_
      · rintro _ w' ⟨hsame, hrem, hall⟩
        refine ⟨⟨hsame.memtable, hsame.levels⟩, (hremoved.mono hhead).trans (hrem.mono htail), ?_⟩
        intro i hi hok
        rcases List.mem_cons.mp hi with rfl | hi
        · rcases hrem i.2.path with heq | ⟨-, hnone⟩
          · rw [heq]
            exact hgone hok
          · exact hnone
        · exact hall i hi (hfails ▸ hok)
      · rintro _ w' ⟨hsame, hrem⟩
        exact ⟨⟨hsame.memtable, hsame.levels⟩, (hremoved.mono hhead).trans (hrem.mono htail)⟩
    refine Wp.bind (Wp.onPart (Disk.wp_tryRemoveFile (fun _ _ stop _ => ?_) (fun hkept => ?_)
      fun cut _ => ⟨⟨rfl, rfl⟩, removed_of_cut.mono hhead⟩))
    · refine hrest _ ?_ rfl fun _ => ?_
      · exact settled_erase w.disk.dir input.2.path ▸ removed_update _
      · show settled (w.disk.dir.erase input.2.path) _ = none
        rw [settled_erase, Function.update_self]
    · refine hrest _ (.refl _ _) rfl fun hok => ?_
      rcases hkept with hnone | hfail
      · show settled w.disk.dir input.2.path = none
        rw [settled]
        split
        · rfl
        · exact hnone
      · rw [show w.disk.unlinkFails input.2.path = true from hfail] at hok
        cases hok

/-- The content of the marker of a job. -/
def markerBytes (job : CompactionJob) (outs : List SSTable) : Bytes :=
  asBytes (markerText (outs.map SSTable.id) (job.inputs.map fun input => input.2.id))

theorem isTmp_mergePendingFile : isTmp mergePendingFile = false := fixed_names.2.2.2.1

/-- Writing the marker puts it there whole or not at all. -/
theorem wp_writePendingMerge (outputs inputs : List Nat) (disk : Disk) :
    Wp (writePendingMerge outputs inputs)
      (fun _ disk' => settled disk'.dir = Function.update (settled disk.dir) mergePendingFile
        (some (asBytes (markerText outputs inputs))))
      (fun _ disk' => settled disk'.dir = settled disk.dir ∨
        settled disk'.dir = Function.update (settled disk.dir) mergePendingFile
          (some (asBytes (markerText outputs inputs)))) disk := by
  rw [writePendingMerge]
  refine Wp.bind (Disk.wp_perform (fun stop _ => ?_) fun cut _ =>
    Or.inl (settled_write_tmp_cut _ _ _ _))
  have hwritten : settled ((FileOp.write (tmpName mergePendingFile)
      (asBytes (markerText outputs inputs))).apply disk.dir) = settled disk.dir :=
    settled_insert_tmp _ _ _
  have hdata : ((FileOp.write (tmpName mergePendingFile)
      (asBytes (markerText outputs inputs))).apply disk.dir).get? (tmpName mergePendingFile) =
        some (asBytes (markerText outputs inputs)) := by
    rw [FileOp.apply, SortedMap.get?_insert, if_pos rfl]
  generalize (FileOp.write (tmpName mergePendingFile)
    (asBytes (markerText outputs inputs))).apply disk.dir = dir at hwritten hdata ⊢
  refine Wp.bind (Disk.wp_fileExists (Wp.ite (fun _ => ?_) fun hnone => ?_))
  · rw [← hwritten]
    exact Disk.wp_perform (fun _ _ => settled_rename isTmp_mergePendingFile hdata)
      fun cut _ => settled_rename_cut isTmp_mergePendingFile hdata cut
  · rw [hdata] at hnone
    exact absurd rfl hnone

/-- Clearing the marker; only a removal that fails keeps it. -/
theorem wp_clearPendingMerge (disk : Disk) :
    Wp clearPendingMerge
      (fun _ disk' => settled disk'.dir = Function.update (settled disk.dir) mergePendingFile none)
      (fun _ disk' => settled disk'.dir = settled disk.dir ∨
        settled disk'.dir = Function.update (settled disk.dir) mergePendingFile none) disk := by
  rw [clearPendingMerge]
  refine Wp.bind (Disk.wp_fileExists (Wp.ite (fun _ => ?_) fun hnone => Wp.pure ?_))
  · exact Disk.wp_removeFile (fun _ _ _ _ => settled_erase _ _) (fun _ => Or.inl rfl)
      (fun _ => Or.inl rfl) fun cut _ => settled_remove_cut _ _ _
  · refine (Function.update_eq_self_iff.mpr ?_).symm
    rw [settled_of_not_tmp isTmp_mergePendingFile]
    symm
    simpa using hnone

/-! ## The whole job -/

/-- All outputs of the job are written. -/
structure Complete (job : CompactionJob) (w w' : World) (outs : List SSTable) : Prop where
  ids : NewIds w.inner.nextSstId w'.inner.nextSstId outs
  length_eq : outs.length = job.chunks.length
  holds : w'.disk.Fits → List.Forall₂ SSTable.Holds outs job.chunks

/-- The directory has the outputs and the marker, and some inputs are gone. -/
def MarkedFiles (job : CompactionJob) (outs : List SSTable) (files files' : String → Option Bytes) :
    Prop :=
  ∃ added, Added job.outputLevel outs files added ∧
    Removed (job.inputs.map fun input => input.2.path)
      (Function.update added mergePendingFile (some (markerBytes job outs))) files'

/-- All inputs that can be removed are gone as well. -/
def EmptiedFiles (job : CompactionJob) (outs : List SSTable) (w : World)
    (files' : String → Option Bytes) : Prop :=
  MarkedFiles job outs w.files files' ∧
    ∀ input ∈ job.inputs, w.disk.unlinkFails input.2.path = false → files' input.2.path = none

/-- The handle has the outputs in the place of the inputs. -/
structure Applied (job : CompactionJob) (outs : List SSTable) (db db' : DbInner) : Prop where
  memtable : db'.memtable = db.memtable
  levels : db'.levels = (db.applyJob job outs).levels

/-- Where a job can be cut off. -/
inductive JobExit (job : CompactionJob) (w w' : World) : Prop where
  | writing (data : w.inner.SameData w'.inner)
      (written : w'.disk.Fits → ∃ outs, Outputs job.outputLevel job.chunks w w' outs)
  | marked (outs : List SSTable) (data : w.inner.SameData w'.inner)
      (complete : Complete job w w' outs) (files : MarkedFiles job outs w.files w'.files)
  | applied (outs : List SSTable) (data : Applied job outs w.inner w'.inner)
      (complete : Complete job w w' outs)
      (files : EmptiedFiles job outs w w'.files ∨
        ∃ emptied, EmptiedFiles job outs w emptied ∧
          w'.files = Function.update emptied mergePendingFile none)

/-- A finished job. -/
structure JobDone (job : CompactionJob) (outs : List SSTable) (w w' : World) : Prop where
  data : Applied job outs w.inner w'.inner
  complete : Complete job w w' outs
  files : ∃ emptied, EmptiedFiles job outs w emptied ∧
    w'.files = Function.update emptied mergePendingFile none

theorem applyJob_levels_congr {db db' : DbInner} (job : CompactionJob) (outs : List SSTable)
    (h : db'.levels = db.levels) :
    (db'.applyJob job outs).levels = (db.applyJob job outs).levels := by
  simp only [DbInner.applyJob, DbInner.ensureLevel, h]

theorem Outputs.mono {level : Nat} {chunks : List (SortedMap String SSTableEntry)}
    {w w₁ w' : World} {outs : List SSTable} (h : Outputs level chunks w w₁ outs)
    (hfiles : w'.files = w₁.files) (hframe : w₁.Frame w') : Outputs level chunks w w' outs where
  ids := h.ids.mono hframe.nextSstId
  added := hfiles ▸ h.added
  length_le := h.length_le
  holds hfits := h.holds (hframe.disk.fits hfits)

theorem Outputs.complete {job : CompactionJob} {w w₁ w' : World} {outs : List SSTable}
    (h : Outputs job.outputLevel job.chunks w w₁ outs) (hlen : outs.length = job.chunks.length)
    (hframe : w₁.Frame w') : Complete job w w' outs where
  ids := h.ids.mono hframe.nextSstId
  length_eq := hlen
  holds hfits := by
    have hholds := h.holds (hframe.disk.fits hfits)
    rwa [hlen, List.take_length] at hholds

theorem wp_applyJob (job : CompactionJob) (outs : List SSTable) (w : World) :
    Wp (update fun db => db.applyJob job outs)
      (fun _ w' => Applied job outs w.inner w'.inner ∧ w'.disk = w.disk ∧ w.Frame w')
      (fun _ _ => False) w :=
  Wp.modify ⟨⟨rfl, rfl⟩, rfl, Disk.Frame.refl _, rfl, rfl, le_rfl, le_rfl⟩

/-- How a job on sound inputs ends. -/
theorem wp_executeJob [BloomSizing] {job : CompactionJob} (hlevel : job.outputLevel < 2 ^ 32)
    (hsound : ∀ input ∈ job.inputs, input.2.Sound) (w : World) :
    Wp (executeJob job) (fun _ w' => ∃ outs, JobDone job outs w w')
      (fun _ w' => JobExit job w w') w := by
  rw [executeJob, writeOutputs_eq job hsound]
  refine Wp.bind (((wp_writeAll hlevel job.chunks w).and (along_writeAll _ w)).mono ?_
    fun e w' h => .writing h.1.1 h.1.2)
  rintro outs w₁ ⟨⟨hdata₁, hlen, houts⟩, hframe₁⟩
  refine Wp.bind ((wp_passed _ w₁).mono (fun _ w₂ hpass₂ => ?_) fun _ w' hpass =>
    .writing (hdata₁.trans hpass.data) fun _ => ⟨outs, houts.mono hpass.files hpass.frame⟩)
  have hdata₂ := hdata₁.trans hpass₂.data
  have houts₂ := houts.mono hpass₂.files hpass₂.frame
  refine Wp.bind (Wp.onPart (((wp_writePendingMerge _ _ w₂.disk).and
    (along_writePendingMerge _ _ w₂.disk)).mono ?_ ?_))
  case refine_2 =>
    rintro _ disk ⟨hfiles | hfiles, hframe⟩
    · exact .writing ⟨hdata₂.memtable, hdata₂.levels⟩ fun _ =>
        ⟨outs, houts₂.mono hfiles ⟨hframe, rfl, rfl, le_rfl, le_rfl⟩⟩
    · exact .marked outs ⟨hdata₂.memtable, hdata₂.levels⟩
        (houts₂.complete hlen ⟨hframe, rfl, rfl, le_rfl, le_rfl⟩)
        ⟨w₂.files, houts₂.added, (show settled disk.dir = _ from hfiles) ▸ .refl _ _⟩
  rintro _ disk₃ ⟨hfiles₃, hframe₃⟩
  obtain ⟨w₃, hw₃⟩ : ∃ w₃ : World, w₃ = { w₂ with disk := disk₃ } := ⟨_, rfl⟩
  rw [← hw₃]
  have hframe₃ : w₂.Frame w₃ := hw₃ ▸ ⟨hframe₃, rfl, rfl, le_rfl, le_rfl⟩
  have hdata₃ : w.inner.SameData w₃.inner := hw₃ ▸ hdata₂
  have hmarked₃ : MarkedFiles job outs w.files w₃.files :=
    ⟨w₂.files, houts₂.added, by rw [hw₃]; exact hfiles₃ ▸ .refl _ _⟩
  clear hw₃ hfiles₃
  refine Wp.bind (((wp_deleteInputs job.inputs w₃).and (along_deleteInputs _ w₃)).mono ?_ ?_)
  case refine_2 =>
    rintro _ w' ⟨⟨hsame, hrem⟩, hframe⟩
    obtain ⟨added, hadded, hrem₃⟩ := hmarked₃
    exact .marked outs (hdata₃.trans hsame) (houts₂.complete hlen (hframe₃.trans hframe))
      ⟨added, hadded, hrem₃.trans hrem⟩
  rintro _ w₄ ⟨⟨hsame₄, hrem₄, hgone⟩, hframe₄⟩
  have hframe₄ := hframe₃.trans hframe₄
  have hdata₄ := hdata₃.trans hsame₄
  have hunlink : w₃.disk.unlinkFails = w.disk.unlinkFails :=
    ((hframe₁.trans hpass₂.frame).trans hframe₃).disk.unlinkFails
  have hemptied : EmptiedFiles job outs w w₄.files := by
    obtain ⟨added, hadded, hrem₃⟩ := hmarked₃
    exact ⟨⟨added, hadded, hrem₃.trans hrem₄⟩,
      fun input hinput hok => hgone input hinput (hunlink ▸ hok)⟩
  -- the two fault points before the update leave the marker in place
  refine Wp.bind ((wp_passed _ w₄).mono (fun _ w₅ hpass₅ => ?_) fun _ w' hpass =>
    .marked outs (hdata₄.trans hpass.data) (houts₂.complete hlen (hframe₄.trans hpass.frame))
      (hpass.files ▸ hemptied.1))
  have hemptied₅ : EmptiedFiles job outs w w₅.files := hpass₅.files ▸ hemptied
  have hframe₅ := hframe₄.trans hpass₅.frame
  have hdata₅ := hdata₄.trans hpass₅.data
  refine Wp.bind ((wp_passed _ w₅).mono (fun _ w₆ hpass₆ => ?_) fun _ w' hpass =>
    .marked outs (hdata₅.trans hpass.data) (houts₂.complete hlen (hframe₅.trans hpass.frame))
      (hpass.files ▸ hemptied₅.1))
  have hemptied₆ : EmptiedFiles job outs w w₆.files := hpass₆.files ▸ hemptied₅
  have hframe₆ := hframe₅.trans hpass₆.frame
  have hdata₆ := hdata₅.trans hpass₆.data
  refine Wp.bind ((wp_applyJob job outs w₆).mono ?_ fun _ _ h => h.elim)
  rintro _ w₇ ⟨happlied₇, hdisk₇, hframe₇⟩
  have hemptied₇ : EmptiedFiles job outs w w₇.files :=
    World.files_of_disk hdisk₇ ▸ hemptied₆
  have hframe₇ := hframe₆.trans hframe₇
  have happlied₇ : Applied job outs w.inner w₇.inner :=
    ⟨happlied₇.memtable.trans hdata₆.memtable,
      happlied₇.levels.trans (applyJob_levels_congr job outs hdata₆.levels)⟩
  have hpassed : ∀ w', w₇.Passed w' → Applied job outs w.inner w'.inner ∧
      EmptiedFiles job outs w w'.files ∧ w₂.Frame w' := fun w' hpass =>
    ⟨⟨hpass.data.memtable.trans happlied₇.memtable, hpass.data.levels.trans happlied₇.levels⟩,
      hpass.files ▸ hemptied₇, hframe₇.trans hpass.frame⟩
  refine Wp.bind ((wp_passed _ w₇).mono (fun _ w₈ hpass₈ => ?_) fun _ w' hpass => ?_)
  case refine_2 =>
    obtain ⟨happlied, hemptied, hframe⟩ := hpassed w' hpass
    exact .applied outs happlied (houts₂.complete hlen hframe) (Or.inl hemptied)
  obtain ⟨happlied₈, hemptied₈, hframe₈⟩ := hpassed w₈ hpass₈
  refine Wp.onPart (((wp_clearPendingMerge w₈.disk).and (along_clearPendingMerge w₈.disk)).mono
    ?_ ?_)
  · rintro _ disk ⟨hfiles, hframe⟩
    exact ⟨outs, happlied₈,
      houts₂.complete hlen (hframe₈.trans ⟨hframe, rfl, rfl, le_rfl, le_rfl⟩),
      w₈.files, hemptied₈, hfiles⟩
  · rintro _ disk ⟨hfiles, hframe⟩
    refine .applied outs happlied₈
      (houts₂.complete hlen (hframe₈.trans ⟨hframe, rfl, rfl, le_rfl, le_rfl⟩)) ?_
    rcases hfiles with hfiles | hfiles
    · left
      show EmptiedFiles job outs w (settled disk.dir)
      rw [hfiles]
      exact hemptied₈
    · exact Or.inr ⟨w₈.files, hemptied₈, hfiles⟩

end PebbleDB
