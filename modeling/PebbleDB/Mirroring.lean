import PebbleDB.Handles
import PebbleDB.Restoring

/-!
# The files of a handle

Between the calls the table files of the directory are the tables of the handle, and others that
it does not know (`Mirrored`). A finished job and a finished flush keep it so; where they are cut
off, `Merging` and `FileWritten` say which files there are.
-/

namespace PebbleDB

open EarlyExit Leveled

/-- The tables of the handle are in the files of the directory. The files of `extra` are there as
well, without being tables of the handle. -/
structure Mirrored (w : World) (extra : Set Placed) : Prop where
  ready : Ready w.inner
  tables : TableFiles w.files ({t | t ∈ w.inner.tables} ∪ extra)
  unknown : ∀ t ∈ extra, t ∉ w.inner.tables
  below : ∀ t ∈ extra, t.2.id < w.inner.nextSstId
  marker : w.files mergePendingFile = none
  fails : ∀ name, w.disk.unlinkFails name = false

namespace Mirrored

variable {w w' : World} {extra : Set Placed}

theorem id_lt (h : Mirrored w extra) :
    ∀ t ∈ {t | t ∈ w.inner.tables} ∪ extra, t.2.id < w.inner.nextSstId := by
  rintro t (ht | ht)
  · exact h.ready.numbered.below t ht
  · exact h.below t ht

theorem id_ne (h : Mirrored w extra) {next : Nat} {outs : List SSTable}
    (hids : NewIds w.inner.nextSstId next outs) :
    ∀ t ∈ {t | t ∈ w.inner.tables} ∪ extra, ∀ o ∈ outs, t.2.id ≠ o.id := fun t ht o ho =>
  ((h.id_lt t ht).trans_le (hids.fresh o ho)).ne

theorem path_ne (h : Mirrored w extra) {name : String} (hname : parseSstableFileName name = none) :
    ∀ t ∈ w.inner.tables, t.2.path ≠ name := by
  intro t ht heq
  have hparse := h.tables.parse_path (Or.inl ht)
  rw [heq, hname] at hparse
  cases hparse

/-- Files with other names than those of tables stay where outputs are added. -/
theorem others_eq {level : Nat} {outs : List SSTable} {files files' : String → Option Bytes}
    {tables : Set Placed} (hadded : Added level outs files files')
    (htables : TableFiles files' (tables ∪ placed level outs)) {name : String}
    (hname : parseSstableFileName name = none) : files' name = files name := by
  refine hadded.others name fun o ho heq => ?_
  have hparse := htables.parse_path (Or.inr ⟨rfl, ho⟩ : (level, o) ∈ _)
  rw [heq, hname] at hparse
  cases hparse

end Mirrored

/-! ## Compaction -/

section Job

variable {w w' : World} {job : CompactionJob} {outs : List SSTable} {extra : Set Placed}

/-- The outputs of a job are there, some of its inputs are gone, the log is as before. -/
structure Merging (w : World) (extra : Set Placed) (job : CompactionJob) (outs : List SSTable)
    (files : String → Option Bytes) : Prop where
  tables : TableFiles files {t | t ∈ {t | t ∈ w.inner.tables} ∪ extra ∪
    placed job.outputLevel outs ∧ files t.2.path ≠ none}
  stay : ∀ t ∈ ({t | t ∈ w.inner.tables} ∪ extra) \ {t | t ∈ job.inputs} ∪
    placed job.outputLevel outs, files t.2.path ≠ none
  wal : files walFile = w.files walFile

/-- What the next opening reads with a marker there. -/
theorem MarkedFiles.left {files files' : String → Option Bytes}
    (h : MarkedFiles job outs files files')
    (hinputs : ∀ i ∈ job.inputs, i.2.path ≠ mergePendingFile) :
    files' mergePendingFile = some (markerBytes job outs) ∧
      ∃ added, Added job.outputLevel outs files added ∧ ∀ name, name ≠ mergePendingFile →
        files' name = added name ∨ (files' name = none ∧ ∃ i ∈ job.inputs, i.2.path = name) := by
  obtain ⟨added, hadded, hremoved⟩ := h
  refine ⟨?_, added, hadded, fun name hne => ?_⟩
  · rcases hremoved mergePendingFile with heq | ⟨hmem, -⟩
    · rw [heq, Function.update_self]
    · obtain ⟨i, hi, hpath⟩ := List.mem_map.mp hmem
      exact absurd hpath (hinputs i hi)
  · rcases hremoved name with heq | ⟨hmem, hnone⟩
    · rw [heq, Function.update_of_ne hne]
      exact Or.inl rfl
    · exact Or.inr ⟨hnone, List.mem_map.mp hmem⟩

namespace Mirrored

/-- The first outputs of a job are there. -/
theorem added (h : Mirrored w extra) (hfit : Fitting w.inner job)
    (houts : Outputs job.outputLevel job.chunks w w' outs) :
    TableFiles w'.files ({t | t ∈ w.inner.tables} ∪ extra ∪ placed job.outputLevel outs) ∧
      ∀ name, parseSstableFileName name = none → w'.files name = w.files name := by
  have htables := h.tables.added hfit.target_lt houts.added houts.ids.fits
    (fun a ha b hb => houts.ids.injective ha hb) (h.id_ne houts.ids)
  exact ⟨htables, fun name hname => others_eq houts.added htables hname⟩

theorem merging (h : Mirrored w extra) (hfit : Fitting w.inner job) {next : Nat}
    (hids : NewIds w.inner.nextSstId next outs) {added files : String → Option Bytes}
    (hadded : Added job.outputLevel outs w.files added)
    (hleft : ∀ name, name ≠ mergePendingFile → files name = added name ∨
      (files name = none ∧ ∃ i ∈ job.inputs, i.2.path = name)) : Merging w extra job outs files := by
  have hinputs : ∀ i ∈ job.inputs, i ∈ {t | t ∈ w.inner.tables} ∪ extra := fun i hi =>
    Or.inl (hfit.mem_tables hi)
  have hinjective : ∀ a ∈ outs, ∀ b ∈ outs, a.id = b.id → a = b := fun a ha b hb =>
    hids.injective ha hb
  obtain ⟨htables, hstay⟩ := h.tables.left hinputs hfit.target_lt hadded hids.fits hinjective
    (h.id_ne hids) fun name hparse => hleft name (by rintro rfl; exact hparse fixed_names.2.1)
  refine ⟨htables, hstay, ?_⟩
  rcases hleft walFile fixed_names.2.2.2.2 with heq | ⟨-, i, hi, hpath⟩
  · rw [heq]
    exact others_eq hadded (h.tables.added hfit.target_lt hadded hids.fits hinjective
      (h.id_ne hids)) fixed_names.1
  · exact absurd hpath (h.path_ne fixed_names.1 i (hfit.mem_tables hi))

/-- A finished job. -/
theorem jobDone (h : Mirrored w extra) (hfit : Fitting w.inner job)
    (hdone : JobDone job outs w w') (hframe : w.Frame w') (hfits : w'.disk.Fits) :
    Mirrored w' extra ∧ w'.files walFile = w.files walFile := by
  have hpreserved := h.ready.applied hfit hdone.data hdone.complete hframe hfits
  obtain ⟨emptied, ⟨hmarked, hgone⟩, hfiles⟩ := hdone.files
  have hinputs : ∀ i ∈ job.inputs, i.2.path ≠ mergePendingFile := fun i hi =>
    h.path_ne fixed_names.2.1 i (hfit.mem_tables hi)
  obtain ⟨-, added, hadded, hleft⟩ := hmarked.left hinputs
  have hmerging : Merging w extra job outs w'.files := h.merging hfit hdone.complete.ids hadded
    fun name hne => by
      rw [hfiles, Function.update_of_ne hne]
      exact hleft name hne
  have hset : {t | t ∈ w'.inner.tables} =
      {t | t ∈ w.inner.tables} \ {t | t ∈ job.inputs} ∪ placed job.outputLevel outs := by
    rw [DbInner.mem_tables_congr hdone.data.levels,
      setOf_mem_tables_applyJob h.ready.numbered hfit]
  refine ⟨⟨hpreserved.ready, ?_, ?_, ?_, ?_, ?_⟩, hmerging.wal⟩
  · convert hmerging.tables using 1
    rw [hset]
    ext t
    constructor
    · rintro ((⟨ht, hnot⟩ | hout) | hextra)
      · exact ⟨Or.inl (Or.inl ht), hmerging.stay t (Or.inl ⟨Or.inl ht, hnot⟩)⟩
      · exact ⟨Or.inr hout, hmerging.stay t (Or.inr hout)⟩
      · exact ⟨Or.inl (Or.inr hextra), hmerging.stay t (Or.inl ⟨Or.inr hextra, fun hin =>
          h.unknown t hextra (hfit.mem_tables hin)⟩)⟩
    · rintro ⟨(ht | hextra) | hout, hne⟩
      · refine Or.inl (Or.inl ⟨ht, fun hin => hne ?_⟩)
        rw [hfiles, Function.update_of_ne (hinputs t hin)]
        exact hgone t hin (h.fails _)
      · exact Or.inr hextra
      · exact Or.inl (Or.inr hout)
  · intro t hextra ht
    have ht : t ∈ {t | t ∈ w'.inner.tables} := ht
    rw [hset] at ht
    rcases ht with ⟨ht, -⟩ | ⟨-, ho⟩
    · exact h.unknown t hextra ht
    · exact h.id_ne hdone.complete.ids t (Or.inr hextra) t.2 ho rfl
  · exact fun t hextra => (h.below t hextra).trans_le hframe.nextSstId
  · rw [hfiles, Function.update_self]
  · intro name
    rw [hframe.disk.unlinkFails]
    exact h.fails name

end Mirrored

end Job

/-! ## Flushing -/

section Flush

variable {w w₁ w' : World} {sst : SSTable} {extra : Set Placed}

theorem placed_singleton (level : Nat) (sst : SSTable) : placed level [sst] = {(level, sst)} := by
  ext t
  rw [placed, Set.mem_ofPred_eq, Set.mem_singleton_iff, List.mem_singleton, Prod.ext_iff]

/-- The memtable has been written to a file. -/
structure FileWritten (w : World) (extra : Set Placed) (sst : SSTable)
    (files : String → Option Bytes) : Prop where
  tables : TableFiles files ({t | t ∈ w.inner.tables} ∪ extra ∪ {(0, sst)})
  marker : files mergePendingFile = none
  wal : files walFile = w.files walFile
  fresh : w.inner.nextSstId ≤ sst.id
  holds : sst.Holds (w.inner.memtable.map toSstEntry)

theorem Mirrored.fileWritten [BloomSizing] (h : Mirrored w extra)
    (hwrote : Wrote 0 (w.inner.memtable.map toSstEntry) w w₁ sst) (hfits : w₁.disk.Fits) :
    FileWritten w extra sst w₁.files := by
  have houts := hwrote.outputs []
  have htables := h.tables.added (Nat.two_pow_pos 32) houts.added houts.ids.fits
    (fun a ha b hb => houts.ids.injective ha hb) (h.id_ne houts.ids)
  have hothers : ∀ name, parseSstableFileName name = none → w₁.files name = w.files name :=
    fun name hname => others_eq houts.added htables hname
  rw [placed_singleton] at htables
  exact ⟨htables, (hothers _ fixed_names.2.1).trans h.marker, hothers _ fixed_names.1,
    hwrote.id.ge, hwrote.holds hfits⟩

/-- The handle that has the file in the place of the memtable. -/
theorem FileWritten.exists_flushed {files : String → Option Bytes}
    (hwritten : FileWritten w extra sst files) :
    ∃ db, Flushed w.inner db sst :=
  ⟨{ w.inner with
      memtable := ∅, levels := w.inner.levels.modify 0 fun files => files ++ [sst],
      nextSstId := sst.id + 1 }, rfl, rfl, hwritten.holds, hwritten.fresh, Nat.lt_succ_self _⟩

/-- Emptying the log changes no other file. -/
theorem FileWritten.truncated {files : String → Option Bytes}
    (hwritten : FileWritten w extra sst files) :
    TableFiles (Function.update files walFile (some []))
        ({t | t ∈ w.inner.tables} ∪ extra ∪ {(0, sst)}) ∧
      Function.update files walFile (some []) mergePendingFile = none := by
  obtain ⟨hparse, -, -, -, hne⟩ := fixed_names
  refine ⟨hwritten.tables.congr fun name hname => ?_, ?_⟩
  · rw [Function.update_of_ne]
    rintro rfl
    exact hname hparse
  · rw [Function.update_of_ne hne.symm]
    exact hwritten.marker

theorem Mirrored.flushDone [BloomSizing] (h : Mirrored w extra) (hdone : FlushDone w w' sst)
    (hframe : w.Frame w') (hfits : w'.disk.Fits) :
    Mirrored w' extra ∧ w'.files walFile = some [] := by
  have hflushed := hdone.flushed hfits
  have hset : {t | t ∈ w'.inner.tables} = {t | t ∈ w.inner.tables} ∪ {(0, sst)} :=
    Set.ext fun t => hflushed.mem_tables h.ready.zero
  obtain ⟨w₁, hwrote, hframe₁, hfiles⟩ := hdone.wrote
  obtain ⟨htables, hmarker⟩ := (h.fileWritten hwrote (hframe₁.disk.fits hfits)).truncated
  refine ⟨⟨(h.ready.flushDone hdone hfits).ready, ?_, ?_, ?_, ?_, ?_⟩, ?_⟩
  · rw [hset, hfiles, Set.union_right_comm]
    exact htables
  · intro t hextra ht
    rcases (hflushed.mem_tables h.ready.zero).mp ht with ht | rfl
    · exact h.unknown t hextra ht
    · exact absurd (h.below _ hextra) (not_lt.mpr hflushed.fresh)
  · exact fun t hextra => (h.below t hextra).trans_le hframe.nextSstId
  · rw [hfiles]
    exact hmarker
  · intro name
    rw [hframe.disk.unlinkFails]
    exact h.fails name
  · rw [hfiles, Function.update_self]

end Flush

/-! ## Writing a record -/

section Records

variable {w w' : World} {record : WalRecord} {key : String} {entry : MemtableEntry}
  {extra : Set Placed}

theorem getD_appended (files : String → Option Bytes) (data : Bytes) :
    (appended files data walFile).getD [] = (files walFile).getD [] ++ data := by
  rw [appended, Function.update_self, Option.getD_some]

theorem appended_of_ne {files : String → Option Bytes} {name : String} (hne : name ≠ walFile)
    (data : Bytes) : appended files data name = files name := Function.update_of_ne hne _ _

theorem TableFiles.appended {files : String → Option Bytes} {tables : Set Placed}
    (h : TableFiles files tables) (data : Bytes) :
    TableFiles (PebbleDB.appended files data) tables := by
  refine h.congr fun name hname => appended_of_ne ?_ data
  rintro rfl
  exact hname fixed_names.1

theorem Mirrored.logged (h : Mirrored w extra) (hlogged : Logged record key entry w w')
    (hframe : w.Frame w') : Mirrored w' extra := by
  refine ⟨hlogged.ready h.ready, ?_, ?_, ?_, ?_, fun name => ?_⟩
  · rw [hlogged.files, hlogged.sameTables]
    exact h.tables.appended _
  · rw [hlogged.sameTables]
    exact h.unknown
  · exact fun t hextra => (h.below t hextra).trans_le hframe.nextSstId
  · rw [hlogged.files, appended_of_ne fixed_names.2.2.2.2.symm]
    exact h.marker
  · rw [hframe.disk.unlinkFails]
    exact h.fails name

end Records

end PebbleDB
