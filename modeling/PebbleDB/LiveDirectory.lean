import PebbleDB.LiveRun
import PebbleDB.Mirroring

/-!
# A handle and its directory

As long as the calls of a handle return, the directory holds what the handle knows (`Live`). Where
a call is cut off, the directory restores a handle that answers as before the call, or as after it
(`Durable`).
-/

namespace PebbleDB

open EarlyExit Leveled

/-! ## What is read -/

/-- The memtable on the tables reads as this map. -/
structure Reading (tables : Set Placed) (memtable : SortedMap String MemtableEntry) (m : Contents) :
    Prop where
  sound : ∀ t ∈ tables, t.2.Sound
  shadowed : ∀ key, Shadowed (copies tables key)
  reads : ∀ key r, Reads (copies tables key) r → DbInner.answer (memtable.get? key) r = m key

theorem Reading.of_answers {db : DbInner} {m : Contents} (h : Ready db) (hanswers : Answers db m) :
    Reading {t | t ∈ db.tables} db.memtable m where
  sound := h.sound
  shadowed := h.shadowed
  reads key r hr := by
    have hget := hanswers key
    rw [DbInner.get_eq_answer h.sound, Except.ok.injEq] at hget
    rw [hr.unique (reads_lookup h.numbered.ascending key)]
    exact hget

/-- A handle with these tables and this memtable answers like the map. -/
theorem Reading.answers {db : DbInner} {m : Contents}
    (h : Reading {t | t ∈ db.tables} db.memtable m) (hascending : Ascending db.levels) :
    Answers db m := fun key => by
  rw [DbInner.get_eq_answer h.sound, h.reads key _ (reads_lookup hascending key)]

/-- What is read is the same with other tables that have the same first copies. -/
theorem Reading.congr {tables tables' : Set Placed} {memtable : SortedMap String MemtableEntry}
    {m : Contents} (h : Reading tables memtable m) (hsound : ∀ t ∈ tables', t.2.Sound)
    (hshadowed : ∀ key, Shadowed (copies tables' key)) {lookups : String → Option SSTableEntry}
    (hlookups : ∀ key, Reads (copies tables key) (lookups key))
    (hsame : ∀ key r, Reads (copies tables' key) r →
      r.bind SSTableEntry.value? = (lookups key).bind SSTableEntry.value?) :
    Reading tables' memtable m where
  sound := hsound
  shadowed := hshadowed
  reads key r hr := by
    rw [← h.reads key _ (hlookups key)]
    cases memtable.get? key with
    | some entry => rfl
    | none => exact hsame key r hr

/-- The next opening of the directory gives a handle that answers like the map. -/
def Durable (dir : Dir) (m : Contents) : Prop :=
  ∃ tables memtable, Restores dir tables memtable ∧ Reading tables memtable m

theorem Durable.congr {dir dir' : Dir} {m : Contents} (h : Durable dir m)
    (hsettled : settled dir' = settled dir) : Durable dir' m := by
  obtain ⟨tables, memtable, hrestores, hreading⟩ := h
  exact ⟨tables, memtable, hrestores.congr hsettled, hreading⟩

/-- The handle answers like the map, and its directory holds what it knows. -/
structure Live (m : Contents) (w : World) : Prop where
  ready : Ready w.inner
  answers : Answers w.inner m
  stands : Stands w.files {t | t ∈ w.inner.tables} w.inner.memtable
  fails : ∀ name, w.disk.unlinkFails name = false

theorem Live.reading {m : Contents} {w : World} (h : Live m w) :
    Reading {t | t ∈ w.inner.tables} w.inner.memtable m := .of_answers h.ready h.answers

theorem Live.durable {m : Contents} {w : World} (h : Live m w) : Durable w.disk.dir m :=
  ⟨_, _, h.stands.restores, h.reading⟩

/-- The directory has not changed for the next opening. -/
theorem Live.durable_of_files {m : Contents} {w w' : World} (h : Live m w)
    (hfiles : w'.files = w.files) : Durable w'.disk.dir m := h.durable.congr hfiles

theorem Live.mirrored {m : Contents} {w : World} (h : Live m w) : Mirrored w ∅ := by
  refine ⟨h.ready, ?_, fun t ht => ?_, fun t ht => ?_, h.stands.marker, h.fails⟩
  · rw [Set.union_empty]
    exact h.stands.tables
  · exact absurd ht (Set.notMem_empty t)
  · exact absurd ht (Set.notMem_empty t)

theorem Live.of_mirrored {m : Contents} {w : World} (h : Mirrored w ∅) (hanswers : Answers w.inner m)
    (hlog : ∃ rs, LogHolds w.files rs [] ∧ replay rs = w.inner.memtable) : Live m w := by
  have htables := h.tables
  rw [Set.union_empty] at htables
  exact ⟨h.ready, hanswers, ⟨htables, h.marker, hlog⟩, h.fails⟩

/-! ## Compaction -/

section Job

variable {m : Contents} {w w' : World} {job : CompactionJob} {outs : List SSTable}

namespace Live

/-- The first outputs of a job are there, and the next opening takes them for tables. -/
theorem durable_outputs [BloomSizing] (h : Live m w) (hfit : Fitting w.inner job)
    (houts : Outputs job.outputLevel job.chunks w w' outs) (hfits : w'.disk.Fits) :
    Durable w'.disk.dir m := by
  have hholds := houts.holds hfits
  have hkept : ∀ key, ∀ o ∈ outs, ∀ r, o.entries.get? key = some r → job.kept.get? key = some r :=
    fun key o ho r hr => get?_kept_of_take hholds ho hr
  have hunion := fun key => hfit.union h.ready.numbered (hkept key) (h.ready.shadowed key)
  obtain ⟨rs, hlog, hreplay⟩ := h.stands.log
  obtain ⟨htables, hothers⟩ := h.mirrored.added hfit houts
  rw [Set.union_empty] at htables
  refine ⟨_, w.inner.memtable, .of_tables htables ?_ (hlog.congr (hothers _ fixed_names.1)) hreplay,
    h.reading.congr ?_ (fun key => (hunion key).1)
      (fun key => reads_lookup h.ready.numbered.ascending key) fun key r hr => ?_⟩
  · exact (hothers _ fixed_names.2.1).trans h.stands.marker
  · rintro t (ht | ⟨-, ho⟩)
    · exact h.ready.sound t ht
    · exact sound_of_holds hholds t.2 ho
  · rw [(hunion key).2 (reads_lookup h.ready.numbered.ascending key) hr]

/-- The outputs in the place of the inputs read the same. -/
theorem reading_merged [BloomSizing] (h : Live m w) (hfit : Fitting w.inner job)
    (hholds : List.Forall₂ SSTable.Holds outs job.chunks) :
    Reading ({t | t ∈ w.inner.tables} \ {t | t ∈ job.inputs} ∪ placed job.outputLevel outs)
      w.inner.memtable m := by
  have hdone := fun key => hfit.done h.ready.numbered (fun r => exists_output_iff hholds)
    (h.ready.shadowed key)
  refine h.reading.congr ?_ (fun key => (hdone key).1)
    (fun key => reads_lookup h.ready.numbered.ascending key) fun key r hr =>
      (hdone key).2 (reads_lookup h.ready.numbered.ascending key) hr
  rintro t (⟨ht, -⟩ | ⟨-, ho⟩)
  · exact h.ready.sound t ht
  · exact sound_of_holds hholds t.2 ho

/-- With the marker there, the next opening ends the merge. -/
theorem durable_marked [BloomSizing] (h : Live m w) (hfit : Fitting w.inner job)
    (hcomplete : Complete job w w' outs) (hmarked : MarkedFiles job outs w.files w'.files)
    (hfits : w'.disk.Fits) : Durable w'.disk.dir m := by
  obtain ⟨hmarker, added, hadded, hleft⟩ := hmarked.left fun i hi =>
    h.mirrored.path_ne fixed_names.2.1 i (hfit.mem_tables hi)
  have hmerging := h.mirrored.merging hfit hcomplete.ids hadded hleft
  have hne : ∀ t ∈ w.inner.tables, ∀ o ∈ outs, t.2.id ≠ o.id := fun t ht =>
    h.mirrored.id_ne hcomplete.ids t (Or.inl ht)
  obtain ⟨rs, hlog, hreplay⟩ := h.stands.log
  have hrestores := Restores.of_marker hmerging.tables hmarker (fun id hid => ?_) (fun id hid => ?_)
    (fun id hid hin => ?_) (hlog.congr hmerging.wal) hreplay
  · refine ⟨_, _, hrestores, ?_⟩
    convert h.reading_merged hfit (hcomplete.holds hfits) using 1
    ext t
    constructor
    · rintro ⟨⟨(ht | ht) | hout, -⟩, hnot⟩
      · exact Or.inl ⟨ht, fun hin => hnot (List.mem_map_of_mem (f := fun i => i.2.id) hin)⟩
      · exact absurd ht (Set.notMem_empty t)
      · exact Or.inr hout
    · intro ht
      have hstay := hmerging.stay t (ht.imp (And.imp_left Or.inl) id)
      refine ⟨⟨ht.imp (fun ht => Or.inl ht.1) id, hstay⟩, fun hin => ?_⟩
      obtain ⟨i, hi, hid⟩ := List.mem_map.mp hin
      have hiT := hfit.mem_tables hi
      rcases ht with ⟨ht, hnot⟩ | ⟨-, ho⟩
      · exact hnot (h.ready.numbered.distinct i hiT t ht hid ▸ hi)
      · exact hne i hiT t.2 ho hid
  · obtain ⟨o, ho, rfl⟩ := List.mem_map.mp hid
    exact ⟨(job.outputLevel, o), ⟨Or.inr ⟨rfl, ho⟩, hmerging.stay _ (Or.inr ⟨rfl, ho⟩)⟩, rfl⟩
  · obtain ⟨i, hi, rfl⟩ := List.mem_map.mp hid
    have := h.stands.tables.fits i (hfit.mem_tables hi)
    omega
  · obtain ⟨o, ho, rfl⟩ := List.mem_map.mp hid
    obtain ⟨i, hi, heq⟩ := List.mem_map.mp hin
    exact hne i (hfit.mem_tables hi) o ho heq

/-- A finished job. -/
theorem jobDone (h : Live m w) (hfit : Fitting w.inner job)
    (hdone : JobDone job outs w w') (hframe : w.Frame w') (hfits : w'.disk.Fits) : Live m w' := by
  have hpreserved := h.ready.applied hfit hdone.data hdone.complete hframe hfits
  obtain ⟨hmirrored, hwal⟩ := h.mirrored.jobDone hfit hdone hframe hfits
  obtain ⟨rs, hlog, hreplay⟩ := h.stands.log
  refine .of_mirrored hmirrored (h.answers.of_preserved hpreserved) ⟨rs, hlog.congr hwal, ?_⟩
  rw [hreplay, hdone.data.memtable]

theorem durable_of_jobExit [BloomSizing] (h : Live m w) (hfit : Fitting w.inner job)
    (hexit : JobExit job w w') (hframe : w.Frame w') (hfits : w'.disk.Fits) :
    Durable w'.disk.dir m := by
  cases hexit with
  | writing _ hwritten =>
    obtain ⟨outs, houts⟩ := hwritten hfits
    exact h.durable_outputs hfit houts hfits
  | marked outs _ hcomplete hfiles => exact h.durable_marked hfit hcomplete hfiles hfits
  | applied outs hdata hcomplete hfiles =>
    rcases hfiles with ⟨hmarked, -⟩ | hfiles
    · exact h.durable_marked hfit hcomplete hmarked hfits
    · exact (h.jobDone hfit ⟨hdata, hcomplete, hfiles⟩ hframe hfits).durable

end Live

end Job

/-! ## Flushing -/

section Flush

variable {m : Contents} {w w₁ w' : World} {sst : SSTable}

namespace FileWritten

variable {files : String → Option Bytes}

/-- The handle that has the file in the place of the memtable. -/
theorem reading (hwritten : FileWritten w ∅ sst files) (h : Live m w) :
    Reading ({t | t ∈ w.inner.tables} ∪ {(0, sst)}) ∅ m := by
  obtain ⟨db, hflushed⟩ := hwritten.exists_flushed
  have hanswers : Answers db m := fun key =>
    (hflushed.get_eq h.ready key).trans (h.answers key)
  have hreading := Reading.of_answers (hflushed.ready h.ready) hanswers
  have hset : {t | t ∈ db.tables} = {t | t ∈ w.inner.tables} ∪ {(0, sst)} :=
    Set.ext fun t => hflushed.mem_tables h.ready.zero
  rwa [hset, hflushed.memtable] at hreading

/-- The log still has the records of the file: they are read out of the log. -/
theorem reading_log (hwritten : FileWritten w ∅ sst files) (h : Live m w) :
    Reading ({t | t ∈ w.inner.tables} ∪ {(0, sst)}) w.inner.memtable m := by
  have hfull := hwritten.reading h
  refine ⟨hfull.sound, hfull.shadowed, fun key r hr => ?_⟩
  have hreads := h.reading.reads key
  have hlookup := reads_lookup h.ready.numbered.ascending key
  cases hmem : w.inner.memtable.get? key with
  | some entry =>
    have hanswer := hreads _ hlookup
    rw [hmem] at hanswer
    exact hanswer
  | none =>
    have hentry : sst.entries.get? key = none := by
      rw [hwritten.holds.entries_eq, SortedMap.get?_map, hmem]
      rfl
    have hempty : copies {(0, sst)} key = ∅ := copiesIn_singleton_none hentry
    rw [copies_union, hempty, Set.union_empty] at hr
    have hanswer := hreads r hr
    rwa [hmem] at hanswer

theorem durable (hwritten : FileWritten w ∅ sst w'.files) (h : Live m w) :
    Durable w'.disk.dir m := by
  obtain ⟨rs, hlog, hreplay⟩ := h.stands.log
  have htables := hwritten.tables
  rw [Set.union_empty] at htables
  exact ⟨_, _, .of_tables htables hwritten.marker (hlog.congr hwritten.wal) hreplay,
    hwritten.reading_log h⟩

/-- Then the log is emptied. -/
theorem stands_truncated (hwritten : FileWritten w ∅ sst files) :
    Stands (Function.update files walFile (some [])) ({t | t ∈ w.inner.tables} ∪ {(0, sst)}) ∅ := by
  obtain ⟨htables, hmarker⟩ := hwritten.truncated
  rw [Set.union_empty] at htables
  refine ⟨htables, hmarker, [], ⟨by simp, tornTail_nil, ?_⟩, rfl⟩
  rw [Function.update_self]
  rfl

end FileWritten

theorem Live.flushDone [BloomSizing] (h : Live m w) (hdone : FlushDone w w' sst) (hframe : w.Frame w')
    (hfits : w'.disk.Fits) : Live m w' := by
  obtain ⟨hmirrored, hwal⟩ := h.mirrored.flushDone hdone hframe hfits
  refine .of_mirrored hmirrored (h.answers.of_preserved (h.ready.flushDone hdone hfits))
    ⟨[], ⟨by simp, tornTail_nil, ?_⟩, ?_⟩
  · rw [hwal]
    rfl
  · rw [hdone.memtable]
    rfl

theorem Live.durable_of_flushExit [BloomSizing] (h : Live m w) (hexit : FlushExit w w')
    (hframe : w.Frame w') (hfits : w'.disk.Fits) : Durable w'.disk.dir m := by
  cases hexit with
  | writing _ hfiles =>
    rcases hfiles with hfiles | hadded
    · exact h.durable_of_files hfiles
    · obtain ⟨sst, hwrote⟩ := hadded.exists_wrote hfits
      exact (h.mirrored.fileWritten hwrote hfits).durable h
  | written sst w₁ hwrote _ hframe₁ hfiles =>
    have hwritten := h.mirrored.fileWritten hwrote (hframe₁.disk.fits hfits)
    rcases hfiles with hfiles | hfiles
    · exact (hfiles ▸ hwritten : FileWritten w ∅ sst w'.files).durable h
    · have hstands : Stands w'.files _ ∅ := hfiles ▸ hwritten.stands_truncated
      exact ⟨_, _, hstands.restores, hwritten.reading h⟩
  | flushed sst hdone => exact (h.flushDone hdone hframe hfits).durable

end Flush

/-! ## Writing a record -/

section Records

variable {m : Contents} {w w' : World} {record : WalRecord} {key : String} {entry : MemtableEntry}

theorem replay_concat (rs : List WalRecord) (record : WalRecord) :
    replay (rs ++ [record]) = replayRecord (replay rs) record := List.foldl_concat ..

theorem LogHolds.concat {files : String → Option Bytes} {rs : List WalRecord}
    (h : LogHolds files rs []) (hfits : record.Fits) :
    LogHolds (appended files record.encode) (rs ++ [record]) [] := by
  refine ⟨fun r hr => ?_, tornTail_nil, ?_⟩
  · rcases List.mem_append.mp hr with hr | hr
    · exact h.fits r hr
    · rw [List.mem_singleton.mp hr]
      exact hfits
  · rw [getD_appended, h.eq]
    simp [encodeAll]

theorem Live.logged (h : Live m w) (hfits : record.Fits)
    (hreplay : ∀ memtable, replayRecord memtable record = memtable.insert key entry)
    (hlogged : Logged record key entry w w') (hfails : ∀ name, w'.disk.unlinkFails name = false) :
    Live (Function.update m key (MemtableIterator.valueOf entry)) w' := by
  obtain ⟨hready, hanswers⟩ := Holding.logged ⟨h.ready, h.answers⟩ hlogged
  obtain ⟨rs, hlog, hmemtable⟩ := h.stands.log
  refine ⟨hready, hanswers, ⟨?_, ?_, rs ++ [record], ?_, ?_⟩, hfails⟩
  · rw [hlogged.files, hlogged.sameTables]
    exact h.stands.tables.appended _
  · rw [hlogged.files, appended_of_ne fixed_names.2.2.2.2.symm]
    exact h.stands.marker
  · rw [hlogged.files]
    exact hlog.concat hfits
  · rw [replay_concat, hreplay, hmemtable, hlogged.memtable]

/-- A record that was cut off is dropped by the next opening, and one that is there as a whole is
replayed. -/
theorem Live.durable_of_logExit (h : Live m w) (hfits : record.Fits)
    (hreplay : ∀ memtable, replayRecord memtable record = memtable.insert key entry)
    (hexit : LogExit record key entry w w') (hfails : ∀ name, w'.disk.unlinkFails name = false) :
    Durable w'.disk.dir m ∨
      Durable w'.disk.dir (Function.update m key (MemtableIterator.valueOf entry)) := by
  cases hexit with
  | logged hdone => exact Or.inr (h.logged hfits hreplay hdone hfails).durable
  | cut hdata hnext hfiles =>
    rcases hfiles with hfiles | ⟨n, hfiles⟩
    · exact Or.inl (h.durable_of_files hfiles)
    rcases Nat.lt_or_ge n record.encode.length with hlt | hge
    · obtain ⟨rs, hlog, hmemtable⟩ := h.stands.log
      have hmarker : w'.files mergePendingFile = none := by
        rw [hfiles, appended_of_ne fixed_names.2.2.2.2.symm]
        exact h.stands.marker
      have htorn : LogHolds w'.files rs (record.encode.take n) := by
        refine ⟨hlog.fits, .of_take hfits hlt, ?_⟩
        rw [hfiles, getD_appended, hlog.eq, List.append_nil]
      have htables : TableFiles w'.files {t | t ∈ w.inner.tables} :=
        hfiles ▸ h.stands.tables.appended _
      exact Or.inl ⟨_, _, .of_tables htables hmarker htorn hmemtable, h.reading⟩
    · -- the handle that has put the record into its memtable as well
      have hlogged : Logged record key entry w ⟨{ w.inner with
          memtable := w.inner.memtable.insert key entry }, w'.disk⟩ :=
        ⟨rfl, rfl, rfl, by rw [← List.take_of_length_le hge]; exact hfiles⟩
      exact Or.inr (h.logged hfits hreplay hlogged hfails).durable

end Records

/-- What the parts of a call do to a live handle and its directory. -/
theorem live_rules [BloomSizing] :
    CallRules WalRecord.Fits Live fun m w => Durable w.disk.dir m where
  ready h := h.ready
  answers h := h.answers
  exit h := h.durable
  job := by
    intro m w job h hissued
    have hfit := hissued.fitting h.ready.numbered h.ready.sound
    refine ((wp_executeJob hfit.target_lt (fun i hi => h.ready.sound i (hfit.mem_tables hi)) w).and
      (along_executeJob job w)).mono ?_ ?_
    · rintro _ w' ⟨⟨outs, hdone⟩, hframe⟩ hfits
      exact h.jobDone hfit hdone hframe hfits
    · rintro _ w' ⟨hexit, hframe⟩ hfits
      exact h.durable_of_jobExit hfit hexit hframe hfits
  flush := by
    intro m w h _
    refine ((wp_flushTable w).and (along_flushTable w)).mono ?_ ?_
    · rintro _ w' ⟨⟨sst, hdone⟩, hframe⟩ hfits
      exact h.flushDone hdone hframe hfits
    · rintro _ w' ⟨hexit, hframe⟩ hfits
      exact h.durable_of_flushExit hexit hframe hfits
  log := by
    intro m w record key entry h hrecord hreplay
    have hfails : ∀ w' : World, w.Frame w' → ∀ name, w'.disk.unlinkFails name = false :=
      fun w' hframe name => by
        rw [hframe.disk.unlinkFails]
        exact h.fails name
    refine ((wp_logRecord record key entry w).and (along_logRecord _ _ _ w)).mono ?_ ?_
    · rintro _ w' ⟨hlogged, hframe⟩ -
      exact h.logged hrecord hreplay hlogged (hfails w' hframe)
    · rintro _ w' ⟨hexit, hframe⟩ -
      exact h.durable_of_logExit hrecord hreplay hexit (hfails w' hframe)

/-- Opening a durable directory gives a live handle, unless the process stops in it; then the
directory is durable as before. -/
theorem Durable.wp_openWithOptions {disk : Disk} {m : Contents} (h : Durable disk.dir m)
    (hfails : ∀ name, disk.unlinkFails name = false) (options : DbOptions) :
    Wp (openWithOptions options) (fun db disk' => Live m ⟨db, disk'⟩)
      (fun _ disk' => disk.stop ≠ none ∧ Durable disk'.dir m) disk := by
  obtain ⟨tables, memtable, hrestores, hreading⟩ := h
  refine ((hrestores.wp_openWithOptions hfails options).and
    (along_openWithOptions options disk)).mono ?_ ?_
  · rintro db disk' ⟨⟨hloaded, hset, hmemtable, hstands⟩, hframe⟩
    rw [← hset, ← hmemtable] at hreading hstands
    refine ⟨⟨⟨⟨hloaded.ascending, hstands.tables.distinct, hloaded.below⟩, hreading.sound,
      hreading.shadowed⟩, hloaded.zero⟩, hreading.answers hloaded.ascending, hstands, fun name => ?_⟩
    rw [hframe.unlinkFails]
    exact hfails name
  · rintro _ disk' ⟨⟨hstop, hrestores'⟩, -⟩
    exact ⟨hstop, tables, memtable, hrestores', hreading⟩

end PebbleDB
