import PebbleDB.Coherence
import PebbleDB.Directory
import PebbleDB.Handles

/-!
# Inputs that cannot be removed

A job ignores that the removal of an input fails, and clears the marker all the same. The handle has
forgotten the input, but the next opening finds it again. `reopened_get_iff` says when this is seen:
where the first record of a key among the files left in place comes before all the others of the
key (`Surfaces`), it must mean what the handle reads (`ReadsBack`).
-/

namespace PebbleDB

open EarlyExit Leveled

/-! ## What a job leaves in the directory -/

/-- A file that cannot be removed stays. -/
theorem wp_deleteInputs_kept {name : String} (inputs : List Placed) (w : World)
    (hfails : w.disk.unlinkFails name = true) :
    Wp (deleteInputs inputs) (fun _ w' => w'.files name = w.files name) (fun _ _ => True) w := by
  induction inputs generalizing w with
  | nil => exact Wp.pure rfl
  | cons input inputs ih =>
    rw [deleteInputs]
    have hrest : ∀ w₁ : World, w₁.disk.unlinkFails = w.disk.unlinkFails →
        w₁.files name = w.files name →
        Wp (deleteInputs inputs) (fun _ w' => w'.files name = w.files name) (fun _ _ => True) w₁ :=
      fun w₁ hunlink hfiles => (ih w₁ (hunlink ▸ hfails)).mono
        (fun _ _ hw' => hw'.trans hfiles) fun _ _ _ => trivial
    refine Wp.bind (wp_hit (fun _ => ?_) fun _ _ => trivial)
    refine Wp.bind (Wp.onPart (Disk.wp_tryRemoveFile (fun _ hok stop _ => ?_) (fun _ => ?_)
      fun _ _ => trivial))
    · refine hrest _ rfl ?_
      have hne : name ≠ input.2.path := by
        rintro rfl
        rw [show w.disk.unlinkFails input.2.path = false from hok] at hfails
        cases hfails
      show settled (w.disk.dir.erase input.2.path) name = settled w.disk.dir name
      rw [settled_erase, Function.update_of_ne hne]
    · exact hrest _ rfl rfl

section Job

variable [BloomSizing] {job : CompactionJob} {w w' : World} {tables : Set Placed}
  {log : SortedMap String MemtableEntry} {outs : List SSTable}

theorem wp_executeJob_kept {name : String} (hlevel : job.outputLevel < 2 ^ 32)
    (hsound : ∀ input ∈ job.inputs, input.2.Sound) (hfails : w.disk.unlinkFails name = true)
    (hmarker : name ≠ mergePendingFile)
    (hnew : ∀ id, w.inner.nextSstId ≤ id → id + 1 < 2 ^ 64 →
      sstableFileName job.outputLevel id ≠ name) :
    Wp (executeJob job) (fun _ w' => w'.files name = w.files name) (fun _ _ => True) w := by
  rw [executeJob, writeOutputs_eq job hsound]
  refine Wp.bind (((wp_writeAll hlevel job.chunks w).and (along_writeAll _ w)).mono ?_
    fun _ _ _ => trivial)
  rintro outs w₁ ⟨⟨-, -, houts⟩, hframe₁⟩
  have hfiles₁ : w₁.files name = w.files name := by
    refine houts.added.others name fun o ho => ?_
    rw [houts.added.path o ho]
    exact hnew o.id (houts.ids.fresh o ho) (houts.ids.fits o ho)
  refine Wp.bind ((wp_passed _ w₁).mono (fun _ w₂ hpass₂ => ?_) fun _ _ _ => trivial)
  refine Wp.bind (Wp.onPart (((wp_writePendingMerge _ _ w₂.disk).and
    (along_writePendingMerge _ _ w₂.disk)).mono ?_ fun _ _ _ => trivial))
  rintro _ disk₃ ⟨hfiles₃, hframe₃⟩
  have hfiles₃ : settled disk₃.dir name = w.files name := by
    rw [hfiles₃, Function.update_of_ne hmarker]
    exact (congrFun hpass₂.files name).trans hfiles₁
  have hfails₃ : disk₃.unlinkFails name = true := by
    rw [hframe₃.unlinkFails, hpass₂.disk, hframe₁.disk.unlinkFails]
    exact hfails
  refine Wp.bind ((wp_deleteInputs_kept job.inputs ⟨w₂.inner, disk₃⟩ hfails₃).mono ?_
    fun _ _ _ => trivial)
  intro _ w₄ hfiles₄
  have hfiles₄ : w₄.files name = w.files name := hfiles₄.trans hfiles₃
  refine Wp.bind ((wp_passed _ w₄).mono (fun _ w₅ hpass₅ => ?_) fun _ _ _ => trivial)
  refine Wp.bind ((wp_passed _ w₅).mono (fun _ w₆ hpass₆ => ?_) fun _ _ _ => trivial)
  refine Wp.bind ((wp_applyJob job outs w₆).mono ?_ fun _ _ _ => trivial)
  rintro _ w₇ ⟨-, hdisk₇, -⟩
  refine Wp.bind ((wp_passed _ w₇).mono (fun _ w₈ hpass₈ => ?_) fun _ _ _ => trivial)
  refine Wp.onPart ((wp_clearPendingMerge w₈.disk).mono (fun _ disk hfiles => ?_)
    fun _ _ _ => trivial)
  show settled disk.dir name = w.files name
  rw [hfiles, Function.update_of_ne hmarker]
  show w₈.files name = w.files name
  rw [hpass₈.files, World.files_of_disk hdisk₇, hpass₆.files, hpass₅.files, hfiles₄]

/-- The handle and its directory are in step: its tables are among those in the files. Files that it
does not know may be left from earlier jobs. The log of the directory replays to `log`, which after
a failed call need not be the memtable. -/
structure InStep (w : World) (tables : Set Placed) (log : SortedMap String MemtableEntry) :
    Prop where
  files : TableFiles w.files tables
  known : ∀ t ∈ w.inner.tables, t ∈ tables
  below : ∀ t ∈ tables, t.2.id < w.inner.nextSstId
  sound : ∀ t ∈ tables, t.2.Sound
  log : ∃ recovery, recover ((w.files walFile).getD []) = .ok recovery ∧
    replay recovery.records = log

/-- The inputs whose removal fails. -/
def CompactionJob.stuck (job : CompactionJob) (fails : String → Bool) : Set Placed :=
  {t | t ∈ job.inputs ∧ fails t.2.path = true}

/-- The tables in the files after a job. -/
def filesAfter (job : CompactionJob) (fails : String → Bool) (outs : List SSTable)
    (tables : Set Placed) : Set Placed :=
  (tables \ {t | t ∈ job.inputs}) ∪ job.stuck fails ∪ placed job.outputLevel outs

namespace InStep

omit [BloomSizing]

/-- The id of an output is new. -/
theorem id_lt (h : InStep w tables log) (hdone : JobDone job outs w w') {t : Placed} (ht : t ∈ tables)
    {o : SSTable} (ho : o ∈ outs) : t.2.id < o.id :=
  (h.below t ht).trans_le (hdone.complete.ids.fresh o ho)

/-- The files that are neither of an output nor of an input, and not the marker, are as before. -/
theorem files_eq (hdone : JobDone job outs w w') {name : String} (hmarker : name ≠ mergePendingFile)
    (hinputs : ∀ input ∈ job.inputs, input.2.path ≠ name)
    (houts : ∀ o ∈ outs, o.path ≠ name) : w'.files name = w.files name := by
  obtain ⟨emptied, ⟨⟨added, hadded, hremoved⟩, -⟩, hfiles⟩ := hdone.files
  rw [hfiles, Function.update_of_ne hmarker]
  rcases hremoved name with heq | ⟨hmem, -⟩
  · rw [heq, Function.update_of_ne hmarker]
    exact hadded.others name houts
  · obtain ⟨input, hinput, hpath⟩ := List.mem_map.mp hmem
    exact absurd hpath (hinputs input hinput)

theorem path_outs (hlevel : job.outputLevel < 2 ^ 32) (hdone : JobDone job outs w w') {o : SSTable}
    (ho : o ∈ outs) : o.path = sstableFileName job.outputLevel o.id ∧
      parseSstableFileName o.path = some (o.id, job.outputLevel) := by
  obtain ⟨emptied, ⟨⟨added, hadded, -⟩, -⟩, -⟩ := hdone.files
  have hfits := hdone.complete.ids.fits o ho
  refine ⟨hadded.path o ho, ?_⟩
  rw [hadded.path o ho, parse_sstableFileName hlevel (by omega)]

/-- The table files that a finished job leaves. -/
theorem tableFiles_done (h : InStep w tables log) (hinputs : ∀ t ∈ job.inputs, t ∈ tables)
    (hlevel : job.outputLevel < 2 ^ 32) (hdone : JobDone job outs w w')
    (hkept : ∀ t ∈ job.stuck w.disk.unlinkFails, w'.files t.2.path = w.files t.2.path) :
    TableFiles w'.files (filesAfter job w.disk.unlinkFails outs tables) := by
  obtain ⟨emptied, ⟨⟨added, hadded, hremoved⟩, hgone⟩, hfiles⟩ := hdone.files
  have hname : ∀ name, parseSstableFileName name ≠ none → name ≠ mergePendingFile := by
    rintro name hparse rfl
    exact hparse fixed_names.2.1
  -- apart from the inputs, the files are as the outputs left them
  have hleft : ∀ name, parseSstableFileName name ≠ none → w'.files name = added name ∨
      (w'.files name = none ∧ ∃ input ∈ job.inputs, input.2.path = name) := by
    intro name hparse
    rw [hfiles, Function.update_of_ne (hname name hparse)]
    rcases hremoved name with heq | ⟨hmem, hnone⟩
    · rw [heq, Function.update_of_ne (hname name hparse)]
      exact Or.inl rfl
    · exact Or.inr ⟨hnone, List.mem_map.mp hmem⟩
  obtain ⟨hall, hstay⟩ := h.files.left hinputs hlevel hadded hdone.complete.ids.fits
    (fun a ha b hb => hdone.complete.ids.injective ha hb)
    (fun t ht o ho => (h.id_lt hdone ht ho).ne) hleft
  convert hall using 1
  ext t
  constructor
  · rintro ((ht | hstuck) | hout)
    · exact ⟨Or.inl ht.1, hstay t (Or.inl ht)⟩
    · refine ⟨Or.inl (hinputs t hstuck.1), ?_⟩
      rw [hkept t hstuck]
      exact h.files.file_ne_none (hinputs t hstuck.1)
    · exact ⟨Or.inr hout, hstay t (Or.inr hout)⟩
  · rintro ⟨ht | hout, hne⟩
    · by_cases hin : t ∈ job.inputs
      · refine Or.inl (Or.inr ⟨hin, ?_⟩)
        by_contra hfails
        rw [hfiles, Function.update_of_ne (h.files.ne_mergePendingFile ht)] at hne
        exact hne (hgone t hin (Bool.eq_false_iff.mpr hfails))
      · exact Or.inl (Or.inl ⟨ht, hin⟩)
    · exact Or.inr hout

end InStep

/-! ## What the next handle reads -/

/-- The tables that lie in the directory and that the handle does not know once the job is done. -/
def leftovers (w : World) (tables : Set Placed) (job : CompactionJob) : Set Placed :=
  {t | t ∈ tables ∧ t ∉ w.inner.tables} ∪ job.stuck w.disk.unlinkFails

/-- A record of a table that is left over comes before all others of its key: those of the tables
that stay, and the one that the job writes, unless it drops it. -/
structure Surfaces (w : World) (tables : Set Placed) (job : CompactionJob) (key : String)
    (e : Copy SSTableEntry) : Prop where
  top : Top (copies (leftovers w tables job) key) e
  stay : Hides e (copies ({t | t ∈ w.inner.tables} \ {t | t ∈ job.inputs}) key)
  output : ∀ t, Top (copies {t | t ∈ job.inputs} key) t → job.Keeps t.record →
    e.level < job.outputLevel

/-- The next handle finds for the key what this one reads: in the log, in a table that is left over,
or in the tables of this handle. -/
structure ReadsBack (w : World) (tables : Set Placed) (log : SortedMap String MemtableEntry)
    (job : CompactionJob) (key : String) : Prop where
  logged : ∀ entry, log.get? key = some entry →
    w.inner.get key = .ok (MemtableIterator.valueOf entry)
  surfaced : log.get? key = none → ∀ e, Surfaces w tables job key e →
    w.inner.get key = .ok e.record.value?
  covered : log.get? key = none → (∀ e, ¬ Surfaces w tables job key e) →
    w.inner.get key = .ok ((lookup w.inner.levels key).bind SSTableEntry.value?)

omit [BloomSizing] in
/-- With the memtable in the log, only a record that surfaces can read differently. -/
theorem readsBack_iff (hsound : w.inner.Sound) {key : String}
    (hlog : log.get? key = w.inner.memtable.get? key) :
    ReadsBack w tables log job key ↔ (w.inner.memtable.get? key = none →
      ∀ e, Surfaces w tables job key e → w.inner.get key = .ok e.record.value?) := by
  constructor
  · intro h hnone
    exact h.surfaced (hlog.trans hnone)
  · intro h
    refine ⟨fun entry hentry => ?_, fun hnone => h (hlog.symm.trans hnone), fun hnone _ => ?_⟩
    · rw [DbInner.get_eq_answer hsound, ← hlog, hentry]
      rfl
    · rw [DbInner.get_eq_answer hsound, ← hlog, hnone]
      rfl

namespace InStep

omit [BloomSizing]

/-- What lies in the directory is left over, or known to the handle after the job. -/
theorem filesAfter_eq (h : InStep w tables log) (hdb : w.inner.Numbered)
    (hfit : Fitting w.inner job) (hdata : Applied job outs w.inner w'.inner) :
    filesAfter job w.disk.unlinkFails outs tables =
      leftovers w tables job ∪ {t | t ∈ w'.inner.tables} := by
  rw [DbInner.mem_tables_congr hdata.levels, setOf_mem_tables_applyJob hdb hfit]
  ext t
  have hin := @Fitting.mem_tables _ _ hfit t
  have hknown := h.known t
  simp only [filesAfter, leftovers, CompactionJob.stuck, Set.mem_union, Set.mem_sdiff,
    Set.mem_ofPred_eq]
  tauto

theorem mem_of_leftover (h : InStep w tables log) (hfit : Fitting w.inner job) {t : Placed}
    (ht : t ∈ leftovers w tables job) : t ∈ tables := by
  rcases ht with ⟨ht, -⟩ | ⟨hin, -⟩
  · exact ht
  · exact h.known t (hfit.mem_tables hin)

theorem id_ne (h : InStep w tables log) (hfit : Fitting w.inner job) (hdone : JobDone job outs w w') :
    ∀ t ∈ leftovers w tables job,
      ∀ s ∈ {t | t ∈ w.inner.tables} \ {t | t ∈ job.inputs} ∪ placed job.outputLevel outs,
        t.2.id ≠ s.2.id := by
  rintro t ht s (⟨hs, hnot⟩ | ⟨-, hs⟩)
  · intro heq
    obtain rfl := h.files.distinct t (h.mem_of_leftover hfit ht) s (h.known s hs) heq
    rcases ht with ⟨-, hunknown⟩ | ⟨hin, -⟩
    · exact hunknown hs
    · exact hnot hin
  · exact (h.id_lt hdone (h.mem_of_leftover hfit ht) hs).ne

/-- The copies in the outputs are those of a record that the job keeps, and new. -/
theorem hides_placed_iff (h : InStep w tables log) (hdb : w.inner.Numbered)
    (hfit : Fitting w.inner job) (hdone : JobDone job outs w w')
    (hholds : List.Forall₂ SSTable.Holds outs job.chunks) {key : String} {e : Copy SSTableEntry}
    (he : e ∈ copies (leftovers w tables job) key) :
    Hides e (copies (placed job.outputLevel outs) key) ↔
      ∀ t, Top (copies {t | t ∈ job.inputs} key) t → job.Keeps t.record →
        e.level < job.outputLevel := by
  have hreads := job.reads_records (hfit.pairwise hdb) key
  constructor
  · intro hhides t ht hkeeps
    have hrecord : job.records.get? key = some t.record := hreads.unique ⟨t, ht, rfl⟩
    obtain ⟨o, ho, hor⟩ := (exists_output_iff hholds).mpr (job.get?_kept.mpr ⟨hrecord, hkeeps⟩)
    rcases hhides ⟨job.outputLevel, o.id, t.record⟩ ⟨(job.outputLevel, o), ⟨rfl, ho⟩, rfl, rfl, hor⟩
      with hlt | ⟨-, hlt⟩
    · exact hlt
    · obtain ⟨s, hs, -, hid, -⟩ := he
      have hid : s.2.id = e.id := hid
      have := h.id_lt hdone (h.mem_of_leftover hfit hs) ho
      dsimp only at hlt
      omega
  · rintro hlt c ⟨s, ⟨hslevel, hs⟩, hlevel, -, hr⟩
    obtain ⟨hrecord, hkeeps⟩ := job.get?_kept.mp ((exists_output_iff hholds).mp ⟨s.2, hs, hr⟩)
    rw [hrecord] at hreads
    obtain ⟨t, ht, hrec⟩ := hreads
    refine Or.inl ?_
    rw [← hlevel, hslevel]
    exact hlt t ht (hrec ▸ hkeeps)

/-- What surfaces is what a reader of the directory finds in front of the tables of the handle. -/
theorem surfaces_iff (h : InStep w tables log) (hdb : w.inner.Numbered)
    (hfit : Fitting w.inner job) (hdone : JobDone job outs w w')
    (hholds : List.Forall₂ SSTable.Holds outs job.chunks) (key : String)
    (e : Copy SSTableEntry) :
    Surfaces w tables job key e ↔ Top (copies (leftovers w tables job) key) e ∧
      Hides e (copies {t | t ∈ w'.inner.tables} key) := by
  rw [DbInner.mem_tables_congr hdone.data.levels, setOf_mem_tables_applyJob hdb hfit, copies_union,
    hides_union]
  constructor
  · rintro ⟨htop, hstay, hout⟩
    exact ⟨htop, hstay, (h.hides_placed_iff hdb hfit hdone hholds htop.mem).mpr hout⟩
  · rintro ⟨htop, hstay, hout⟩
    exact ⟨htop, hstay, (h.hides_placed_iff hdb hfit hdone hholds htop.mem).mp hout⟩

/-- What the next handle reads for a key. -/
theorem exists_get_reopened (h : InStep w tables log) (hready : Coherent w.inner)
    (hfit : Fitting w.inner job) (hdone : JobDone job outs w w')
    (hholds : List.Forall₂ SSTable.Holds outs job.chunks)
    {db : DbInner} (hdb : db.Sound) (hascending : Ascending db.levels)
    (htables : {t | t ∈ db.tables} = filesAfter job w.disk.unlinkFails outs tables)
    (hmemtable : db.memtable = log) (key : String) :
    ∃ value, db.get key = .ok value ∧
      (ReadsBack w tables log job key ↔ w.inner.get key = .ok value) := by
  refine ⟨_, DbInner.get_eq_answer hdb key, ?_⟩
  rw [hmemtable]
  cases hlog : log.get? key with
  | some entry =>
    refine ⟨fun hback => hback.logged entry hlog, fun hget => ⟨fun entry' hlog' => ?_, ?_, ?_⟩⟩
    · rw [hlog, Option.some.injEq] at hlog'
      exact hlog' ▸ hget
    · intro hnone
      rw [hlog] at hnone
      cases hnone
    · intro hnone
      rw [hlog] at hnone
      cases hnone
  | none =>
    have hvacuous : ∀ entry, log.get? key = some entry →
        w.inner.get key = .ok (MemtableIterator.valueOf entry) := fun entry hentry => by
      rw [hlog] at hentry
      cases hentry
    have hreads := reads_lookup hascending key
    change Reads (copies {t | t ∈ db.tables} key) _ at hreads
    rw [htables, h.filesAfter_eq hready.numbered hfit hdone.data, copies_union] at hreads
    have hdisjoint : ∀ c ∈ copies (leftovers w tables job) key,
        c ∉ copies {t | t ∈ w'.inner.tables} key := by
      rw [DbInner.mem_tables_congr hdone.data.levels,
        setOf_mem_tables_applyJob hready.numbered hfit]
      exact copiesIn_disjoint (h.id_ne hfit hdone)
    have hiff := h.surfaces_iff hready.numbered hfit hdone hholds key
    rcases hreads.of_union hdisjoint with ⟨e, htop, hhides, heq⟩ | ⟨hnone, hreads⟩
    · have hsurfaces := (hiff e).mpr ⟨htop, hhides⟩
      rw [heq]
      refine ⟨fun hback => hback.surfaced hlog e hsurfaces, fun hget => ⟨hvacuous, ?_, ?_⟩⟩
      · intro _ e' he'
        rw [he'.top.unique htop]
        exact hget
      · exact fun _ hnot => absurd hsurfaces (hnot e)
    · have hnot : ∀ e, ¬ Surfaces w tables job key e := fun e he =>
        hnone e ((hiff e).mp he).1 ((hiff e).mp he).2
      -- nothing surfaces, so the reader finds what the handle finds in its own tables
      have hvalue : (lookup db.levels key).bind SSTableEntry.value? =
          (lookup w.inner.levels key).bind SSTableEntry.value? := by
        rw [DbInner.mem_tables_congr hdone.data.levels,
          setOf_mem_tables_applyJob hready.numbered hfit] at hreads
        exact (hfit.done hready.numbered (fun r => exists_output_iff hholds)
          (hready.shadowed key)).2 (reads_lookup hready.numbered.ascending key) hreads
      have hanswer : DbInner.answer none (lookup db.levels key) =
          (lookup w.inner.levels key).bind SSTableEntry.value? := hvalue
      rw [hanswer]
      exact ⟨fun hback => hback.covered hlog hnot, fun hget =>
        ⟨hvacuous, fun _ e he => absurd he (hnot e), fun _ _ => hget⟩⟩

/-- The directory that a job leaves opens as its tables and its log. -/
theorem exists_reopened [BloomSizing] (h : InStep w tables log) (hsound : w.inner.Sound)
    (hfit : Fitting w.inner job)
    (htmp : ∀ name, isTmp name = true → w.disk.unlinkFails name = false)
    (hstop : w.disk.stop = none) (hrun : executeJob job w = .ok () w')
    (hdone : JobDone job outs w w') (hholds : List.Forall₂ SSTable.Holds outs job.chunks)
    (options : DbOptions) :
    ∃ db disk', openWithOptions options w'.disk = .ok db disk' ∧ db.Sound ∧
      Ascending db.levels ∧
      {t | t ∈ db.tables} = filesAfter job w.disk.unlinkFails outs tables ∧ db.memtable = log := by
  have hframe : w.Frame w' := (along_executeJob job w).ok_of_eq hrun
  have hinputs : ∀ t ∈ job.inputs, t ∈ tables := fun t ht => h.known t (hfit.mem_tables ht)
  -- the inputs that could not be removed are still what they were
  have hkept : ∀ t ∈ job.stuck w.disk.unlinkFails, w'.files t.2.path = w.files t.2.path := by
    rintro t ⟨hin, hfails⟩
    have ht := hinputs t hin
    refine (wp_executeJob_kept hfit.target_lt (fun i hi => hsound i (hfit.mem_tables hi))
      hfails (h.files.ne_mergePendingFile ht) (fun id hid hidfits heq => ?_)).ok_of_eq hrun
    have hparse := h.files.parse_path ht
    rw [← heq, parse_sstableFileName hfit.target_lt (by omega), Option.some.injEq,
      Prod.mk.injEq] at hparse
    have := h.below t ht
    omega
  have hfiles : TableFiles (settled w'.disk.dir) (filesAfter job w.disk.unlinkFails outs tables) :=
    h.tableFiles_done hinputs hfit.target_lt hdone hkept
  have hmarker : w'.files mergePendingFile = none := by
    obtain ⟨emptied, -, hmarked⟩ := hdone.files
    rw [hmarked, Function.update_self]
  have hwal : w'.files walFile = w.files walFile := by
    refine files_eq hdone fixed_names.2.2.2.2 (fun input hinput => ?_) fun o ho heq => ?_
    · exact h.files.ne_walFile (hinputs input hinput)
    · have hparse := (path_outs hfit.target_lt hdone ho).2
      rw [heq, fixed_names.1] at hparse
      cases hparse
  have hremovable : Removable w'.disk.unlinkFails isTmp w'.disk.dir := by
    intro name _ hname
    rw [hframe.disk.unlinkFails]
    exact htmp name hname
  obtain ⟨recovery, hrecover, hreplay⟩ := h.log
  rw [← hwal] at hrecover
  obtain ⟨levels, next, hopens, hloaded, hset⟩ := hfiles.opens hremovable hmarker hrecover
  obtain ⟨disk', hopen, -⟩ := hopens.run hfiles.distinctIds (hframe.disk.stop hstop) options
  refine ⟨_, disk', hopen, fun t ht => ?_, hloaded.ascending, hset, hreplay⟩
  have ht : t ∈ filesAfter job w.disk.unlinkFails outs tables := hset ▸ ht
  rcases ht with (⟨ht, -⟩ | ⟨hin, -⟩) | ⟨-, ho⟩
  · exact h.sound t ht
  · exact h.sound t (hinputs t hin)
  · exact sound_of_holds hholds t.2 ho

end InStep

/-- After a job that returns, opening the directory again succeeds, and it gives the reads of the
handle exactly if all keys read back. -/
theorem reopened_get_iff (hready : Ready w.inner) (hstep : InStep w tables log)
    (hissued : Issued w.inner job)
    (htmp : ∀ name, isTmp name = true → w.disk.unlinkFails name = false)
    (hstop : w.disk.stop = none) (hrun : executeJob job w = .ok () w') (hfits : w'.disk.Fits)
    (options : DbOptions) :
    (∃ db disk', openWithOptions options w'.disk = .ok db disk' ∧
      ∀ key, db.get key = w'.inner.get key) ↔ ∀ key, ReadsBack w tables log job key := by
  have hfit := hissued.fitting hready.numbered hready.sound
  obtain ⟨outs, hdone⟩ := exists_jobDone hready.sound hfit hrun
  have hframe : w.Frame w' := (along_executeJob job w).ok_of_eq hrun
  have hholds := hdone.complete.holds hfits
  have hget := (hready.toCoherent.applied hfit hdone.data hdone.complete hframe.nextSstId hfits).2
  obtain ⟨db, disk', hopen, hsound, hascending, hset, hmemtable⟩ :=
    hstep.exists_reopened hready.sound hfit htmp hstop hrun hdone hholds options
  have hreads := fun key =>
    hstep.exists_get_reopened hready.toCoherent hfit hdone hholds hsound hascending hset hmemtable key
  constructor
  · rintro ⟨db', disk'', hopen', hsame⟩ key
    rw [hopen] at hopen'
    cases hopen'
    obtain ⟨value, hvalue, hback⟩ := hreads key
    rw [hback, ← hget, ← hsame, hvalue]
  · intro hall
    refine ⟨db, disk', hopen, fun key => ?_⟩
    obtain ⟨value, hvalue, hback⟩ := hreads key
    rw [hvalue, hget, hback.mp (hall key)]

end Job

/-! ## The newer or the older of two files -/

/-- Two files with their directory, where some files cannot be removed. -/
def stuckFiles (fails : String → Bool) : World where
  inner := twoFiles.inner
  disk := ⟨.ofList (twoTables.map fun sst => (sst.path, sst.data)), [],
    ⟨fun _ names => names, fun _ _ => .refl _⟩, fails, none⟩

theorem inStep_stuckFiles (fails : String → Bool) :
    InStep (stuckFiles fails) (placed 0 twoTables) ∅ := by
  have hfiles : ∀ sst ∈ twoTables, sst.id < 2 ∧ sst.path = sstableFileName 0 sst.id ∧
      (stuckFiles fun _ => false).files sst.path = some sst.data := by decide +kernel
  have hids : ∀ s ∈ twoTables, ∀ t ∈ twoTables, s.id = t.id → s = t := by decide +kernel
  have hnames : ∀ name ∈ (stuckFiles fun _ => false).disk.dir.keys,
      ∃ sst ∈ twoTables, sst.path = name := by decide +kernel
  have hlog : (stuckFiles fun _ => false).files walFile = none := by decide +kernel
  refine ⟨⟨?_, ?_, ?_, ?_, ?_, ?_⟩, fun t ht => mem_tables_twoFiles ht, ?_, ?_, ⟨[], 0⟩, ?_, rfl⟩
  · rintro t ⟨hlevel, -⟩
    rw [hlevel]
    exact Nat.two_pow_pos 32
  · rintro t ⟨-, ht⟩
    have := (hfiles t.2 ht).1
    omega
  · rintro t ⟨hlevel, ht⟩
    rw [hlevel]
    exact (hfiles t.2 ht).2.1
  · rintro t ⟨-, ht⟩
    obtain ⟨_, _, _, hwritten⟩ := exists_written_of_mem_twoTables ht
    exact ⟨t.2.data, (hfiles t.2 ht).2.2, (@exists_file_of_writtenTable .ofSmall _ _ _ _ hwritten).2⟩
  · rintro s ⟨hslevel, hs⟩ t ⟨htlevel, ht⟩ heq
    exact Prod.ext (hslevel.trans htlevel.symm) (hids s.2 hs t.2 ht heq)
  · intro name hne _
    have hname : name ∈ (stuckFiles fun _ => false).disk.dir.keys := by
      refine SortedMap.mem_keys.mpr fun hnone => hne ?_
      show settled (stuckFiles fun _ => false).disk.dir name = none
      rw [settled, hnone, ite_self]
    obtain ⟨sst, hsst, hpath⟩ := hnames name hname
    exact ⟨(0, sst), ⟨rfl, hsst⟩, hpath⟩
  · rintro t ⟨-, ht⟩
    exact (hfiles t.2 ht).1
  · rintro t ⟨-, ht⟩
    exact sound_of_mem_twoTables ht
  · rw [show (stuckFiles fails).files walFile = none from hlog]
    rfl

/-- The file of table `id` of the two. -/
def isFile (id : Nat) (name : String) : Bool := decide (name = sstableFileName 0 id)

theorem isFile_of_isTmp (id : Fin 2) (name : String) (h : isTmp name = true) :
    isFile id name = false := by
  have htmp : ∀ id : Fin 2, isTmp (sstableFileName 0 id) = false := by decide +kernel
  rw [isFile, decide_eq_false_iff_not]
  rintro rfl
  rw [htmp id] at h
  cases h

/-- The job of `compact_full`. -/
def mergeAll : CompactionJob := ⟨twoFiles.inner.tables, 1, true, 2 ^ 64 - 1⟩

theorem ready_stuckFiles (fails : String → Bool) : Ready (stuckFiles fails).inner :=
  ⟨coherent_twoFiles.1, List.cons_ne_nil _ _⟩

theorem issued_mergeAll (fails : String → Bool) : Issued (stuckFiles fails).inner mergeAll :=
  .full

/-- If it is the newer file that cannot be removed, the next handle reads the same. -/
theorem readsBack_newer (key : String) :
    ReadsBack (stuckFiles (isFile 1)) (placed 0 twoTables) ∅ mergeAll key := by
  have hids : ∀ sst ∈ twoTables, sst.id ≤ 1 ∧ (isFile 1 sst.path = true → sst.id = 1) := by
    decide +kernel
  have hdistinct : ∀ s ∈ twoTables, ∀ t ∈ twoTables, s.id = t.id → s = t := by decide +kernel
  have hready := ready_stuckFiles (isFile 1)
  refine (readsBack_iff hready.sound rfl).mpr fun _ e he => ?_
  obtain ⟨f, hf, -, -, hr⟩ := he.top.mem
  have hf : f ∈ twoFiles.inner.tables ∧ isFile 1 f.2.path = true := by
    rcases hf with ⟨⟨hzero, hmem⟩, hunknown⟩ | hf
    · exact absurd (mem_tablesFrom.mpr ⟨0, twoTables, rfl, hzero, hmem⟩) hunknown
    · exact hf
  obtain ⟨hzero, hmem⟩ := mem_tables_twoFiles hf.1
  -- a reader of the handle meets this file first
  have hfirst : ∀ t ∈ twoFiles.inner.tables,
      t = f ∨ f.1 < t.1 ∨ (f.1 = t.1 ∧ t.2.id < f.2.id) := by
    intro t ht
    obtain ⟨htzero, htmem⟩ := mem_tables_twoFiles ht
    have hlevel : t.1 = f.1 := htzero.trans hzero.symm
    have hfid := (hids f.2 hmem).2 hf.2
    rcases (hids t.2 htmem).1.lt_or_eq with hlt | heq
    · exact Or.inr (Or.inr ⟨hlevel.symm, by omega⟩)
    · exact Or.inl (Prod.ext hlevel (hdistinct t.2 htmem f.2 hmem (heq.trans hfid.symm)))
  have hlookup : lookup twoFiles.inner.levels key = some e.record :=
    lookup_eq_some_of_first coherent_twoFiles.1.numbered.ascending hf.1 hfirst hr
  rw [DbInner.get_eq_answer hready.sound,
    show lookup (stuckFiles (isFile 1)).inner.levels key = some e.record from hlookup]
  rfl

theorem reopened_get_iff_newer : ∃ w' db disk',
    @executeJob .ofSmall mergeAll (stuckFiles (isFile 1)) = .ok () w' ∧ w'.inner.sstCount = 1 ∧
      w'.disk.dir.keys = ["sstable_L0_000001.sst", "sstable_L1_000002.sst"] ∧
      openWithOptions .default w'.disk = .ok db disk' ∧ ∀ key, db.get key = w'.inner.get key := by
  have hrun : check (@executeJob .ofSmall mergeAll)
      (stuckFiles (isFile 1)) (fun _ w' => decide (w'.disk.Fits ∧ w'.inner.sstCount = 1 ∧
        w'.disk.dir.keys = ["sstable_L0_000001.sst", "sstable_L1_000002.sst"])) = true := by
    decide +kernel
  obtain ⟨_, w', hok, htest⟩ := exists_of_check hrun
  obtain ⟨hfits, hcount, hkeys⟩ := of_decide_eq_true htest
  obtain ⟨db, disk', hopen, hget⟩ := (@reopened_get_iff .ofSmall _ _ _ _ _
    (ready_stuckFiles (isFile 1)) (inStep_stuckFiles (isFile 1)) (issued_mergeAll _)
    (isFile_of_isTmp 1) rfl hok hfits .default).mpr readsBack_newer
  exact ⟨w', db, disk', hok, hcount, hkeys, hopen, hget⟩

/-- If it is the older one, the next handle finds the value that the newer one had deleted. -/
theorem not_reopened_get_older : ∃ w' db disk',
    InStep (stuckFiles (isFile 0)) (placed 0 twoTables) ∅ ∧
      @executeJob .ofSmall mergeAll (stuckFiles (isFile 0)) = .ok () w' ∧
      openWithOptions .default w'.disk = .ok db disk' ∧
      w'.inner.get "a" = .ok none ∧ db.get "a" = .ok (some "1") := by
  have hrun : check (@executeJob .ofSmall mergeAll)
      (stuckFiles (isFile 0)) (fun _ w' => decide (w'.inner.get "a" = .ok none) &&
        check (openWithOptions .default) w'.disk fun db _ =>
          decide (db.get "a" = .ok (some "1"))) = true := by
    decide +kernel
  obtain ⟨_, w', hok, htest⟩ := exists_of_check hrun
  obtain ⟨hlive, hopen⟩ := Bool.and_eq_true_iff.mp htest
  obtain ⟨db, disk', hopen, hget⟩ := exists_of_check hopen
  exact ⟨w', db, disk', inStep_stuckFiles _, hok, hopen, of_decide_eq_true hlive,
    of_decide_eq_true hget⟩

end PebbleDB
