import PebbleDB.Accounting
import PebbleDB.TableLimits

/-!
# What a full compaction makes of the tables

`compact_full` has no target size, so what it keeps goes into one file, and with the tables below
it merged away it keeps no tombstone. It leaves one table of level one with the live records, or none
if there are none (`compactFull_merges`), and the bytes of its file depend on nothing but these
records (`compactFull_canonical`).
-/

namespace PebbleDB

open EarlyExit Leveled

/-! ## The files of a job -/

/-- The table stands for a file that was written with these entries. -/
structure Written [BloomSizing] (disk : Disk) (sst : SSTable)
    (entries : SortedMap String SSTableEntry) : Prop where
  data : SSTable.writeSstable entries = .ok sst.data
  logged : ∃ level id, FileOp.write (tmpName (sstableFileName level id)) sst.data ∈ disk.log

section Files

variable [BloomSizing] {level : Nat} {w w' : World} {entries : SortedMap String SSTableEntry}
  {sst : SSTable} {outs : List SSTable} {job : CompactionJob}

theorem Written.mono {disk disk' : Disk} (h : Written disk sst entries)
    (hframe : disk.Frame disk') : Written disk' sst entries := by
  obtain ⟨level, id, hlogged⟩ := h.logged
  exact ⟨h.data, level, id, hframe.log.subset hlogged⟩

theorem Wrote.written (h : Wrote level entries w w' sst) : Written w'.disk sst entries := by
  obtain ⟨file, hfile, hlog, hfiles⟩ := h.files
  obtain ⟨data, hdata, hload⟩ := h.stored
  rw [h.path, hfiles, Function.update_self, Option.some.injEq] at hdata
  rw [← hdata] at hload
  obtain ⟨-, -, hsame⟩ := SSTable.load_eq_ok hload
  rw [← hsame] at hfile hlog
  exact ⟨hfile, _, _, hlog⟩

theorem wp_writeAll_written (hlevel : level < 2 ^ 32)
    (chunks : List (SortedMap String SSTableEntry)) (w : World) :
    Wp (writeAll level chunks) (fun outs w' => List.Forall₂ (Written w'.disk) outs chunks)
      (fun _ _ => True) w := by
  induction chunks generalizing w with
  | nil => exact Wp.pure .nil
  | cons chunk chunks ih =>
    rw [writeAll]
    refine Wp.bind ((wp_writeLevelFile hlevel w).mono (fun sst w₁ hwrote => ?_) fun _ _ _ => trivial)
    refine Wp.bind (((ih w₁).and (along_writeAll chunks w₁)).mono ?_ fun _ _ _ => trivial)
    rintro outs w' ⟨hrest, hframe⟩
    exact Wp.pure (.cons (hwrote.written.mono hframe.disk) hrest)

/-- What a returned job has written, and where it puts it. -/
structure Merged (job : CompactionJob) (outs : List SSTable) (w w' : World) : Prop where
  written : List.Forall₂ (Written w'.disk) outs job.chunks
  entries : w'.disk.Fits → outs.map SSTable.entries = job.chunks
  applied : Applied job outs w.inner w'.inner

/-- The data of the handle is as before, and the log has grown. -/
def World.Carried (w w' : World) : Prop := w.inner.SameData w'.inner ∧ w.Frame w'

omit [BloomSizing] in
theorem World.Carried.trans {a b c : World} (h : a.Carried b) (h' : b.Carried c) : a.Carried c :=
  ⟨h.1.trans h'.1, h.2.trans h'.2⟩

omit [BloomSizing] in
theorem carried_hit (point : FaultPoint) : Along World.Carried (hit point) := fun w =>
  (wp_passed point w).mono (fun _ _ hpass => ⟨hpass.data, hpass.frame⟩)
    fun _ _ hpass => ⟨hpass.data, hpass.frame⟩

omit [BloomSizing] in
theorem carried_onDisk {α : Type} {x : DiskM α} (h : Along Disk.Frame x) :
    Along World.Carried (onDisk x) :=
  Along.onPart h fun w _ hframe => ⟨.refl _, .of_disk hframe w.inner⟩

theorem carried_deleteInputs (inputs : List Placed) :
    Along World.Carried (deleteInputs inputs) := fun w =>
  ((wp_deleteInputs inputs w).and (along_deleteInputs inputs w)).mono
    (fun _ _ h => ⟨h.1.1, h.2⟩) fun _ _ h => ⟨h.1.1, h.2⟩

theorem wp_executeJob_merged (hlevel : job.outputLevel < 2 ^ 32)
    (hsound : ∀ input ∈ job.inputs, input.2.Sound) (w : World) :
    Wp (executeJob job) (fun _ w' => ∃ outs, Merged job outs w w') (fun _ _ => True) w := by
  rw [executeJob, writeOutputs_eq job hsound]
  have hwrites := (wp_writeAll hlevel job.chunks w).and (wp_writeAll_written hlevel job.chunks w)
  refine Wp.bind (hwrites.mono ?_ fun _ _ _ => trivial)
  rintro outs w₁ ⟨⟨hdata₁, hlen, houts⟩, hwritten⟩
  have hpass : ∀ {α : Type} {x : OpM α} {f : α → OpM Unit} {w₂ : World}, w₁.Carried w₂ →
      Along World.Carried x →
      (∀ a w₃, w₁.Carried w₃ → Wp (f a) (fun _ w' => ∃ outs, Merged job outs w w')
        (fun _ _ => True) w₃) →
      Wp (x >>= f) (fun _ w' => ∃ outs, Merged job outs w w') (fun _ _ => True) w₂ :=
    fun hw₂ hx hf => Wp.bind ((hx _).mono (fun a w₃ hw₃ => hf a w₃ (hw₂.trans hw₃))
      fun _ _ _ => trivial)
  have hstart : w₁.Carried w₁ := ⟨.refl _, .refl _⟩
  refine hpass hstart (carried_hit _) fun _ w₂ hw₂ => ?_
  refine hpass hw₂ (carried_onDisk (along_writePendingMerge _ _)) fun _ w₃ hw₃ => ?_
  refine hpass hw₃ (carried_deleteInputs _) fun _ w₄ hw₄ => ?_
  refine hpass hw₄ (carried_hit _) fun _ w₅ hw₅ => hpass hw₅ (carried_hit _) fun _ w₆ hw₆ => ?_
  refine Wp.bind ((wp_applyJob job outs w₆).mono ?_ fun _ _ _ => trivial)
  rintro _ w₇ ⟨happlied, -, hframe₇⟩
  have hend : ∀ w', w₇.Carried w' → Merged job outs w w' := by
    rintro w' ⟨hdata, hframe⟩
    have hall := (hw₆.2.trans hframe₇).trans hframe
    refine ⟨hwritten.imp fun _ _ h => h.mono hall.disk, fun hfits => ?_, ?_, ?_⟩
    · have hholds := houts.holds (hall.disk.fits hfits)
      rw [hlen, List.take_length] at hholds
      rw [← List.forall₂_eq_eq_eq, List.forall₂_map_left_iff]
      exact hholds.imp fun _ _ h => h.entries_eq
    · rw [hdata.memtable, happlied.memtable, hw₆.1.memtable, hdata₁.memtable]
    · rw [hdata.levels, happlied.levels]
      exact applyJob_levels_congr job outs (hw₆.1.levels.trans hdata₁.levels)
  have htail : Along World.Carried (hit .afterMetadataUpdate >>= fun _ => onDisk clearPendingMerge) :=
    .bind .trans (carried_hit _) fun _ => carried_onDisk along_clearPendingMerge
  exact (htail w₇).mono (fun _ w' hw' => ⟨outs, hend w' hw'⟩) fun _ _ _ => trivial

/-! ## One file -/

omit [BloomSizing] in
theorem exists_of_mem_right {α β : Type} {R : α → β → Prop} {l : List α} {u : List β}
    (h : List.Forall₂ R l u) {b : β} (hb : b ∈ u) : ∃ a, R a b := by
  induction h with
  | nil => cases hb
  | cons hfirst _ ih =>
    rcases List.mem_cons.mp hb with rfl | hb
    · exact ⟨_, hfirst⟩
    · exact ih hb

theorem SSTable.totalSize_lt {file : Bytes} (hfile : SSTable.writeSstable entries = .ok file)
    (hfits : SSTable.OffsetsFit file) : totalSize entries.entries < 2 ^ 32 := by
  have hfront := (SSTable.offsetsFit_iff_frontSize hfile).mp hfits
  unfold SSTable.frontSize at hfront
  omega

omit [BloomSizing] in
/-- A job whose pieces all stay below the target size has one piece. -/
theorem CompactionJob.chunks_of_lt
    (hlt : ∀ chunk ∈ job.chunks, totalSize chunk.entries < job.targetFileSize) :
    job.chunks = if job.kept = ∅ then [] else [job.kept] := by
  have hflat := job.flatten_chunks
  have hne := job.chunks_ne_empty
  have hcut := job.cutAt_chunks
  cases hchunks : job.chunks with
  | nil =>
    rw [hchunks] at hflat
    rw [if_pos (SortedMap.ext hflat.symm)]
  | cons chunk chunks =>
    rw [hchunks] at hflat hne hcut hlt
    cases chunks with
    | nil =>
      have hkept : chunk = job.kept := SortedMap.ext (by simpa using hflat)
      rw [hkept] at hne
      rw [hkept, if_neg (hne job.kept List.mem_cons_self)]
    | cons next chunks =>
      have hreached := (hcut chunk (by simp)).1
      exact absurd (hlt chunk List.mem_cons_self) (not_lt.mpr hreached)

/-- Files within the reach of the offsets stay below a target of `usize::MAX`. -/
theorem Merged.chunks_eq (h : Merged job outs w w') (hfits : w'.disk.Fits)
    (htarget : job.targetFileSize = 2 ^ 64 - 1) :
    job.chunks = if job.kept = ∅ then [] else [job.kept] := by
  apply CompactionJob.chunks_of_lt
  intro chunk hchunk
  obtain ⟨sst, hwritten⟩ := exists_of_mem_right h.written hchunk
  obtain ⟨level, id, hlogged⟩ := hwritten.logged
  have hsize := SSTable.totalSize_lt hwritten.data (hfits.offsetsFit hlogged)
  omega

end Files

/-! ## The records that are left -/

/-- What the tables of the handle have for a key, below the memtable. -/
def DbInner.tableValue (db : DbInner) (key : String) : Option String :=
  (lookup db.levels key).bind SSTableEntry.value?

/-- The job of `compact_full`. -/
def DbInner.fullJob (db : DbInner) : CompactionJob := ⟨db.tables, 1, true, 2 ^ 64 - 1⟩

/-- A full compaction keeps the values of the tables, and no tombstone. -/
theorem get?_kept_fullJob {db : DbInner} (hdb : db.Numbered) (key : String) :
    db.fullJob.kept.get? key = (db.tableValue key).map SSTableEntry.value := by
  have hreads : Reads (copies {t | t ∈ db.tables} key) (db.fullJob.records.get? key) :=
    db.fullJob.reads_records hdb.pairwise key
  have hlookup := hreads.unique (reads_lookup hdb.ascending key)
  apply Option.ext
  intro entry
  rw [CompactionJob.get?_kept, hlookup, DbInner.tableValue]
  cases lookup db.levels key with
  | none => simp
  | some record =>
    cases record with
    | value v =>
      simp only [Option.bind_some, SSTableEntry.value?, Option.map_some, Option.some.injEq,
        CompactionJob.Keeps, DbInner.fullJob, and_iff_left_iff_imp]
      rintro rfl ⟨-, htomb⟩
      cases htomb
    | tombstone =>
      simp only [Option.bind_some, SSTableEntry.value?, Option.map_none, Option.some.injEq,
        CompactionJob.Keeps, DbInner.fullJob, reduceCtorEq, iff_false, not_and]
      intro hentry hkeeps
      exact hkeeps trivial hentry.symm

/-- The tables of `db` are merged into one, in level one, which has the live records. -/
structure FullyMerged (db db' : DbInner) : Prop where
  memtable : db'.memtable = db.memtable
  alone : (db'.tables = [] ∧ ∀ key, db.tableValue key = none) ∨ ∃ sst, db'.tables = [(1, sst)] ∧
    sst.entries ≠ ∅ ∧ ∀ key, sst.entries.get? key = (db.tableValue key).map .value

section Full

variable [BloomSizing] {w w' : World}

theorem compactFull_eq_of_le (h : w.inner.sstCount ≤ 1) : compactFull w = .ok () w := by
  show (if w.inner.sstCount ≤ 1 then pure () else executeJob w.inner.fullJob : OpM Unit) w = _
  rw [if_pos h]
  rfl

/-- The tables of the handle behind a full compaction, with the bytes of their files. -/
theorem exists_merged (hready : Ready w.inner) (hmany : 1 < w.inner.sstCount)
    (hok : compactFull w = .ok () w') (hfits : w'.disk.Fits) :
    w'.inner.memtable = w.inner.memtable ∧
      ((w.inner.fullJob.kept = ∅ ∧ w'.inner.tables = []) ∨
        ∃ sst, w.inner.fullJob.kept ≠ ∅ ∧ w'.inner.tables = [(1, sst)] ∧
          sst.entries = w.inner.fullJob.kept ∧
          SSTable.writeSstable w.inner.fullJob.kept = .ok sst.data) := by
  have hrun : (if w.inner.sstCount ≤ 1 then pure () else executeJob w.inner.fullJob : OpM Unit) w =
      .ok () w' := hok
  rw [if_neg (by omega)] at hrun
  have hsound : ∀ input ∈ w.inner.fullJob.inputs, input.2.Sound := hready.sound
  have hlevel : w.inner.fullJob.outputLevel < 2 ^ 32 := show 1 < 2 ^ 32 by decide
  obtain ⟨outs, hmerged⟩ := (wp_executeJob_merged hlevel hsound w).ok_of_eq hrun
  have hchunks := hmerged.chunks_eq hfits rfl
  have hentries := hmerged.entries hfits
  have hwritten := hmerged.written
  have htables : ∀ t, t ∈ w'.inner.tables ↔ t.1 = 1 ∧ t.2 ∈ outs := by
    intro t
    rw [DbInner.tables, hmerged.applied.levels, ← DbInner.tables, mem_tables_applyJob]
    constructor
    · rintro (⟨ht, hnot⟩ | hout)
      · exact absurd rfl (hnot t ht)
      · exact hout
    · exact Or.inr
  have hcount : w'.inner.tables.length = outs.length := by
    have hperm := (@perm_applyJob w.inner w.inner.fullJob hready.numbered
      (List.Sublist.refl w.inner.tables) outs).length_eq
    have hinputs : w.inner.fullJob.inputs.map Prod.snd = w.inner.levels.flatten :=
      map_snd_tablesFrom 0 w.inner.levels
    rw [hinputs, ← hmerged.applied.levels, List.length_append, List.length_append] at hperm
    rw [DbInner.tables, ← List.length_map Prod.snd, map_snd_tablesFrom]
    omega
  refine ⟨hmerged.applied.memtable, ?_⟩
  rw [hchunks] at hentries hwritten
  by_cases hempty : w.inner.fullJob.kept = ∅
  · rw [if_pos hempty, List.map_eq_nil_iff] at hentries
    rw [hentries] at hcount
    exact Or.inl ⟨hempty, List.length_eq_zero_iff.mp hcount⟩
  · rw [if_neg hempty] at hentries hwritten
    obtain ⟨sst, hsst⟩ : ∃ sst, outs = [sst] := List.length_eq_one_iff.mp hwritten.length_eq
    rw [hsst] at hentries hwritten hcount htables
    obtain ⟨t, ht⟩ := List.length_eq_one_iff.mp hcount
    obtain ⟨hlevel, hmem⟩ := (htables t).mp (by simp [ht])
    have htable : t = (1, sst) := Prod.ext hlevel (List.mem_singleton.mp hmem)
    cases hwritten with
    | cons hwritten _ =>
      exact Or.inr ⟨sst, hempty, by rw [ht, htable], by simpa using hentries, hwritten.data⟩

/-- A full compaction that returns leaves at most one table, with the live records and no tombstone,
and a second one has nothing to do. -/
theorem compactFull_merges (hready : Ready w.inner) (hmany : 1 < w.inner.sstCount)
    (hok : compactFull w = .ok () w') (hfits : w'.disk.Fits) :
    FullyMerged w.inner w'.inner ∧ compactFull w' = .ok () w' := by
  have hkept := get?_kept_fullJob hready.numbered
  obtain ⟨hmemtable, hmerged⟩ := exists_merged hready hmany hok hfits
  have hcount : w'.inner.sstCount = w'.inner.tables.length := by
    rw [DbInner.sstCount, ← List.length_flatten, ← map_snd_tablesFrom 0, List.length_map]
  constructor
  · refine ⟨hmemtable, ?_⟩
    rcases hmerged with ⟨hempty, hnone⟩ | ⟨sst, hne, hone, hentries, -⟩
    · refine Or.inl ⟨hnone, fun key => ?_⟩
      have hlive := hkept key
      rw [hempty] at hlive
      simpa using hlive.symm
    · exact Or.inr ⟨sst, hone, by rwa [hentries], fun key => by rw [hentries, hkept]⟩
  · apply compactFull_eq_of_le
    rcases hmerged with ⟨-, hnone⟩ | ⟨sst, -, hone, -⟩
    · rw [hcount, hnone]
      exact Nat.zero_le 1
    · rw [hcount, hone]
      rfl

end Full

theorem ready_twoFiles : Ready twoFiles.inner := ⟨coherent_twoFiles.1, List.cons_ne_nil _ _⟩

/-- The newer table has a tombstone for `a`. -/
theorem compactFull_merges_twoFiles : ∃ w',
    @compactFull .ofSmall twoFiles = .ok () w' ∧ FullyMerged twoFiles.inner w'.inner ∧
      (w'.inner.tables.map fun t => (t.1, t.2.entries.entries)) =
        [(1, [("b", .value "2"), ("c", .value "3")])] ∧
      @compactFull .ofSmall w' = .ok () w' := by
  have hrun : check (@compactFull .ofSmall) twoFiles (fun _ w' => decide (w'.disk.Fits ∧
      (w'.inner.tables.map fun t => (t.1, t.2.entries.entries)) =
        [(1, [("b", .value "2"), ("c", .value "3")])])) = true := by decide +kernel
  obtain ⟨_, w', hok, htest⟩ := exists_of_check hrun
  obtain ⟨hfits, htables⟩ := of_decide_eq_true htest
  obtain ⟨hmerged, hagain⟩ :=
    @compactFull_merges .ofSmall twoFiles w' ready_twoFiles (by decide +kernel) hok hfits
  exact ⟨w', hok, hmerged, htables, hagain⟩

/-- The bytes of the file depend only on what the tables read as: full compactions of handles with
different histories write the same. -/
theorem compactFull_canonical [BloomSizing] {w₁ w₂ w₁' w₂' : World}
    (hready₁ : Ready w₁.inner) (hready₂ : Ready w₂.inner)
    (hmany₁ : 1 < w₁.inner.sstCount) (hmany₂ : 1 < w₂.inner.sstCount)
    (hsame : ∀ key, w₁.inner.tableValue key = w₂.inner.tableValue key)
    (hok₁ : compactFull w₁ = .ok () w₁') (hok₂ : compactFull w₂ = .ok () w₂')
    (hfits₁ : w₁'.disk.Fits) (hfits₂ : w₂'.disk.Fits) :
    (w₁'.inner.tables.map fun t => (t.1, t.2.data)) =
      w₂'.inner.tables.map fun t => (t.1, t.2.data) := by
  have hkept : w₁.inner.fullJob.kept = w₂.inner.fullJob.kept := by
    apply SortedMap.ext_get?
    intro key
    rw [get?_kept_fullJob hready₁.numbered, get?_kept_fullJob hready₂.numbered, hsame]
  obtain ⟨-, hmerged₁⟩ := exists_merged hready₁ hmany₁ hok₁ hfits₁
  obtain ⟨-, hmerged₂⟩ := exists_merged hready₂ hmany₂ hok₂ hfits₂
  rw [hkept] at hmerged₁
  rcases hmerged₁ with ⟨hempty₁, hnone₁⟩ | ⟨sst₁, hne₁, hone₁, -, hdata₁⟩
  · rcases hmerged₂ with ⟨-, hnone₂⟩ | ⟨sst₂, hne₂, -⟩
    · rw [hnone₁, hnone₂]
    · exact absurd hempty₁ hne₂
  · rcases hmerged₂ with ⟨hempty₂, -⟩ | ⟨sst₂, -, hone₂, -, hdata₂⟩
    · exact absurd hempty₂ hne₁
    · rw [hone₁, hone₂, List.map_singleton, List.map_singleton,
        Except.ok.inj (hdata₁.symm.trans hdata₂)]

/-- A handle that never had the key `a` writes the same file as one in which it was deleted. -/
theorem compactFull_canonical_twoFiles : ∃ w₁ m₂ w₂,
    @compactFull .ofSmall twoFiles = .ok () w₁ ∧
    @MeteredRun .ofSmall ⟨⟨⟨∅, [[]], 0, .default, .new none⟩, emptyDisk⟩, {}, {}⟩
      [.set "c" "3", .flush, .set "b" "2", .flush] m₂ ∧
    @compactFull .ofSmall m₂.world = .ok () w₂ ∧ w₂.inner.tables.length = 1 ∧
    (w₁.inner.tables.map fun t => (t.1, t.2.data)) =
      w₂.inner.tables.map fun t => (t.1, t.2.data) := by
  let _ : BloomSizing := .ofSmall
  have hrun₁ : check compactFull twoFiles (fun _ w₁ => decide w₁.disk.Fits) = true := by
    decide +kernel
  have hrun₂ : check (Metered.runCalls 1 [.set "c" "3", .flush, .set "b" "2", .flush])
      ⟨⟨⟨∅, [[]], 0, .default, .new none⟩, emptyDisk⟩, {}, {}⟩ (fun _ m₂ =>
        decide (m₂.world.disk.Fits ∧ 1 < m₂.world.inner.sstCount ∧
          twoFiles.inner.fullJob.kept.entries = m₂.world.inner.fullJob.kept.entries) &&
        check compactFull m₂.world (fun _ w₂ => decide (w₂.disk.Fits ∧
          w₂.inner.tables.length = 1))) = true := by decide +kernel
  obtain ⟨_, w₁, hok₁, hfits₁⟩ := exists_of_check hrun₁
  obtain ⟨_, m₂, hcalls, htest⟩ := exists_of_check hrun₂
  obtain ⟨htest, hfull⟩ := Bool.and_eq_true_iff.mp htest
  obtain ⟨hfits, hmany, hkept⟩ := of_decide_eq_true htest
  obtain ⟨_, w₂, hok₂, htest₂⟩ := exists_of_check hfull
  obtain ⟨hfits₂, hone⟩ := of_decide_eq_true htest₂
  have hmetered := Metered.run_of_runCalls hcalls
  have hstart := ready_empty .default (.new none)
  obtain ⟨c, hanswers⟩ := hstart.exists_answers
  have hready : Ready m₂.world.inner :=
    (Metered.kept_of_run hmetered ⟨hstart, hanswers⟩ hfits).1.1
  have hsame : ∀ key, twoFiles.inner.tableValue key = m₂.world.inner.tableValue key := by
    intro key
    apply Option.map_injective (fun _ _ h => SSTableEntry.value.inj h)
    rw [← get?_kept_fullJob ready_twoFiles.numbered, ← get?_kept_fullJob hready.numbered,
      SortedMap.ext hkept]
  exact ⟨w₁, m₂, w₂, hok₁, hmetered, hok₂, hone,
    compactFull_canonical ready_twoFiles hready (by decide +kernel) hmany hsame hok₁ hok₂
      (of_decide_eq_true hfits₁) hfits₂⟩

end PebbleDB
