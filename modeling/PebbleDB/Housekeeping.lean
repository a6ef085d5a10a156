import PebbleDB.CrashRun

/-!
# What stands in the directory

The engine writes a file under a temporary name, and renames it once it is whole. Of the files that
are not temporary, a call changes the log, the marker, and tables: it adds tables with ids that were
not given out before, and removes some (`Changes`). So between the calls of a handle the directory
holds the log and the tables of the handle, and nothing else, however the handles before it ended
(`run_exact`), and a table file never changes while it is there (`run_tables_fixed`).
-/

namespace PebbleDB

open EarlyExit Leveled

/-! ## How the files change -/

/-- What may have happened to one file, with the ids from `next` on still to be given out. -/
inductive Changed (next : Nat) (files files' : String → Option Bytes) (name : String) : Prop where
  | same (h : files' name = files name)
  | log (hname : name = walFile) (hthere : files' name ≠ none)
  | marker (hname : name = mergePendingFile)
  | gone (hname : parseSstableFileName name ≠ none) (h : files' name = none)
  | added (id level : Nat) (hname : parseSstableFileName name = some (id, level)) (hid : next ≤ id)

/-- Every file has changed as a handle changes it. -/
def Changes (next : Nat) (files files' : String → Option Bytes) : Prop :=
  ∀ name, Changed next files files' name

namespace Changes

variable {next next' : Nat} {f g h : String → Option Bytes}

theorem refl (next : Nat) (f : String → Option Bytes) : Changes next f f := fun _ => .same rfl

theorem of_eq (heq : g = f) : Changes next f g := fun _ => .same (by rw [heq])

theorem trans (hfg : Changes next f g) (hle : next ≤ next') (hgh : Changes next' g h) :
    Changes next f h := by
  intro name
  cases hgh name with
  | same hsame =>
    cases hfg name with
    | same hsame' => exact .same (hsame.trans hsame')
    | log hname hthere => exact .log hname (hsame ▸ hthere)
    | marker hname => exact .marker hname
    | gone hname hnone => exact .gone hname (hsame.trans hnone)
    | added id level hname hid => exact .added id level hname hid
  | log hname hthere => exact .log hname hthere
  | marker hname => exact .marker hname
  | gone hname hnone => exact .gone hname hnone
  | added id level hname hid => exact .added id level hname (hle.trans hid)

theorem update_walFile (next : Nat) (f : String → Option Bytes) (data : Bytes) :
    Changes next f (Function.update f walFile (some data)) := by
  intro name
  by_cases hname : name = walFile
  · subst hname
    exact .log rfl (by simp)
  · exact .same (Function.update_of_ne hname _ _)

theorem update_marker (next : Nat) (f : String → Option Bytes) (content : Option Bytes) :
    Changes next f (Function.update f mergePendingFile content) := by
  intro name
  by_cases hname : name = mergePendingFile
  · exact .marker hname
  · exact .same (Function.update_of_ne hname _ _)

theorem of_added {level : Nat} {outs : List SSTable} (hadded : Added level outs f g)
    (hlevel : level < 2 ^ 32) (hids : NewIds next next' outs) : Changes next f g := by
  intro name
  by_cases hname : ∃ o ∈ outs, o.path = name
  · obtain ⟨o, ho, rfl⟩ := hname
    have hfits := hids.fits o ho
    refine .added o.id level ?_ (hids.fresh o ho)
    rw [hadded.path o ho, parse_sstableFileName hlevel (by omega)]
  · exact .same (hadded.others name fun o ho heq => hname ⟨o, ho, heq⟩)

theorem of_removed {names : List String} (hremoved : Removed names f g)
    (hnames : ∀ name ∈ names, parseSstableFileName name ≠ none) : Changes next f g := by
  intro name
  rcases hremoved name with hsame | ⟨hmem, hnone⟩
  · exact .same hsame
  · exact .gone (hnames name hmem) hnone

/-- A table file that was there before the ids from `next` on were given out is the same or gone. -/
theorem table_eq (hfg : Changes next f g) {name : String} {id level : Nat}
    (hname : parseSstableFileName name = some (id, level)) (hid : id < next)
    (hthere : g name ≠ none) : g name = f name := by
  obtain ⟨hwal, hmarker, -⟩ := fixed_names
  cases hfg name with
  | same hsame => exact hsame
  | log heq _ =>
    rw [heq, hwal] at hname
    cases hname
  | marker heq =>
    rw [heq, hmarker] at hname
    cases hname
  | gone _ hnone => exact absurd hnone hthere
  | added id' level' hname' hid' =>
    rw [hname, Option.some.injEq, Prod.mk.injEq] at hname'
    omega

end Changes

section Parts

variable [BloomSizing] {w w' : World} {job : CompactionJob} {outs : List SSTable}

omit [BloomSizing] in
theorem MarkedFiles.changes {files files' : String → Option Bytes} {next next' : Nat}
    (h : MarkedFiles job outs files files') (hlevel : job.outputLevel < 2 ^ 32)
    (hids : NewIds next next' outs)
    (hinputs : ∀ input ∈ job.inputs, parseSstableFileName input.2.path ≠ none) :
    Changes next files files' := by
  obtain ⟨added, hadded, hremoved⟩ := h
  have hremoves : Changes next (Function.update added mergePendingFile
      (some (markerBytes job outs))) files' := by
    apply Changes.of_removed hremoved
    intro name hname
    obtain ⟨input, hinput, rfl⟩ := List.mem_map.mp hname
    exact hinputs input hinput
  have hmarked := Changes.update_marker next added (some (markerBytes job outs))
  exact ((Changes.of_added hadded hlevel hids).trans le_rfl hmarked).trans le_rfl hremoves

omit [BloomSizing] in
theorem JobDone.changes (h : JobDone job outs w w') (hlevel : job.outputLevel < 2 ^ 32)
    (hinputs : ∀ input ∈ job.inputs, parseSstableFileName input.2.path ≠ none) :
    Changes w.inner.nextSstId w.files w'.files := by
  obtain ⟨emptied, hemptied, hfiles⟩ := h.files
  rw [hfiles]
  exact (hemptied.1.changes hlevel h.complete.ids hinputs).trans le_rfl (.update_marker _ _ _)

omit [BloomSizing] in
theorem JobExit.changes (h : JobExit job w w') (hlevel : job.outputLevel < 2 ^ 32)
    (hinputs : ∀ input ∈ job.inputs, parseSstableFileName input.2.path ≠ none)
    (hfits : w'.disk.Fits) : Changes w.inner.nextSstId w.files w'.files := by
  cases h with
  | writing _ hwritten =>
    obtain ⟨outs, houts⟩ := hwritten hfits
    exact .of_added houts.added hlevel houts.ids
  | marked outs _ hcomplete hfiles => exact hfiles.changes hlevel hcomplete.ids hinputs
  | applied outs _ hcomplete hfiles =>
    rcases hfiles with hfiles | ⟨emptied, hemptied, hfiles⟩
    · exact hfiles.1.changes hlevel hcomplete.ids hinputs
    · rw [hfiles]
      exact (hemptied.1.changes hlevel hcomplete.ids hinputs).trans le_rfl (.update_marker _ _ _)

theorem FileAdded.changes {level : Nat} {entries : SortedMap String SSTableEntry}
    (h : FileAdded level entries w w') (hlevel : level < 2 ^ 32) :
    Changes w.inner.nextSstId w.files w'.files := by
  obtain ⟨file, -, -, hfiles⟩ := h.files
  have hid := h.idFits
  intro name
  rw [hfiles]
  by_cases hname : name = sstableFileName level w.inner.nextSstId
  · refine .added w.inner.nextSstId level ?_ le_rfl
    rw [hname, parse_sstableFileName hlevel (by omega)]
  · exact .same (Function.update_of_ne hname _ _)

theorem FlushDone.changes {sst : SSTable} (h : FlushDone w w' sst) :
    Changes w.inner.nextSstId w.files w'.files := by
  obtain ⟨w₁, hwrote, -, hfiles⟩ := h.wrote
  rw [hfiles]
  exact (hwrote.toFileAdded.changes (by decide)).trans le_rfl (.update_walFile _ _ _)

theorem FlushExit.changes (h : FlushExit w w') : Changes w.inner.nextSstId w.files w'.files := by
  cases h with
  | writing _ hfiles =>
    rcases hfiles with hsame | hadded
    · exact .of_eq hsame
    · exact hadded.changes (by decide)
  | written sst w₁ hwrote _ _ hfiles =>
    have hadded := hwrote.toFileAdded.changes (by decide)
    rcases hfiles with hsame | hcut
    · rw [hsame]
      exact hadded
    · rw [hcut]
      exact hadded.trans le_rfl (.update_walFile _ _ _)
  | flushed sst hdone => exact hdone.changes

end Parts

theorem Logged.changes {record : WalRecord} {key : String} {entry : MemtableEntry} {w w' : World}
    (h : Logged record key entry w w') : Changes w.inner.nextSstId w.files w'.files := by
  rw [h.files]
  exact .update_walFile _ _ _

theorem LogExit.changes {record : WalRecord} {key : String} {entry : MemtableEntry} {w w' : World}
    (h : LogExit record key entry w w') : Changes w.inner.nextSstId w.files w'.files := by
  cases h with
  | cut _ _ hfiles =>
    rcases hfiles with hsame | ⟨n, hcut⟩
    · exact .of_eq hsame
    · rw [hcut]
      exact .update_walFile _ _ _
  | logged hdone => exact hdone.changes

/-! ## Temporary files -/

/-- No temporary file is there. -/
def Swept (dir : Dir) : Prop := ∀ name, isTmp name = true → dir.get? name = none

namespace Swept

variable {dir : Dir}

theorem insert (h : Swept dir) {name : String} (hname : isTmp name = false) (data : Bytes) :
    Swept (dir.insert name data) := by
  intro other htmp
  have hne : other ≠ name := by
    intro heq
    rw [heq, hname] at htmp
    cases htmp
  rw [SortedMap.get?_insert, if_neg hne]
  exact h other htmp

theorem erase (h : Swept dir) (name : String) : Swept (dir.erase name) := by
  intro other htmp
  rw [SortedMap.get?_erase]
  split
  · rfl
  · exact h other htmp

/-- A file that is written under its temporary name and renamed leaves none behind. -/
theorem renamed (h : Swept dir) {name : String} (hname : isTmp name = false) (data data' : Bytes) :
    Swept (((dir.insert (tmpName name) data).insert name data').erase (tmpName name)) := by
  intro other htmp
  rw [SortedMap.get?_erase]
  by_cases hother : other = tmpName name
  · exact if_pos hother
  · have hne : other ≠ name := by
      intro heq
      rw [heq, hname] at htmp
      cases htmp
    rw [if_neg hother, SortedMap.get?_insert, if_neg hne, SortedMap.get?_insert, if_neg hother]
    exact h other htmp

end Swept

/-- After this part of a call there is no temporary file, if there was none before. -/
def Disk.StaysSwept (disk disk' : Disk) : Prop := Swept disk.dir → Swept disk'.dir

/-- The directory of the handle stays without leftovers. -/
def World.StaysSwept (w w' : World) : Prop := w.disk.StaysSwept w'.disk

namespace World.StaysSwept

theorem refl (w : World) : w.StaysSwept w := id

theorem trans {a b c : World} (h : a.StaysSwept b) (h' : b.StaysSwept c) : a.StaysSwept c := h' ∘ h

theorem returns_hit (point : FaultPoint) : Returns World.StaysSwept (hit point) := fun w =>
  (wp_passed point w).mono (fun _ _ hpass hswept => by rw [hpass.disk]; exact hswept)
    fun _ _ _ => trivial

theorem returns_update (f : DbInner → DbInner) : Returns World.StaysSwept (update f) :=
  .of_along (.modify fun _ => id)

theorem returns_onDisk {α : Type} {x : DiskM α} (h : Returns Disk.StaysSwept x) :
    Returns World.StaysSwept (onDisk x) := .onPart h fun _ _ hdisk => hdisk

theorem returns_perform {op : FileOp} (hop : ∀ dir, Swept dir → Swept (op.apply dir)) :
    Returns Disk.StaysSwept (Disk.perform op) := fun disk =>
  Disk.wp_perform (fun _ _ => hop disk.dir) fun _ _ => trivial

theorem returns_tryRemoveFile (name : String) :
    Returns Disk.StaysSwept (Disk.tryRemoveFile name) := fun _ =>
  Disk.wp_tryRemoveFile (fun _ _ _ _ hswept => hswept.erase name) (fun _ => id) fun _ _ => trivial

theorem returns_writePendingMerge (outputs inputs : List Nat) :
    Returns Disk.StaysSwept (writePendingMerge outputs inputs) := by
  intro disk
  rw [writePendingMerge]
  refine Wp.bind (Disk.wp_perform (fun stop _ => ?_) fun _ _ => trivial)
  refine Wp.bind (Disk.wp_fileExists (Wp.ite (fun _ => ?_) fun _ => Wp.throw trivial))
  exact Disk.wp_perform (fun _ _ hswept => hswept.renamed isTmp_mergePendingFile _ _)
    fun _ _ => trivial

theorem returns_clearPendingMerge : Returns Disk.StaysSwept clearPendingMerge := by
  intro disk
  rw [clearPendingMerge]
  refine Wp.bind (Disk.wp_fileExists (Wp.ite (fun _ => ?_) fun _ => Wp.pure id))
  exact Disk.wp_removeFile (fun _ _ _ _ hswept => hswept.erase _) (fun _ => trivial)
    (fun _ => trivial) fun _ _ => trivial

variable [BloomSizing]

theorem returns_writeLevelFile {level : Nat} (hlevel : level < 2 ^ 32)
    (entries : SortedMap String SSTableEntry) :
    Returns World.StaysSwept (writeLevelFile level entries) := by
  intro w
  rw [writeLevelFile]
  refine Wp.bind (Wp.get (Wp.ite (fun _ => Wp.throw trivial) fun hid => ?_))
  have hname : isTmp (sstableFileName level w.inner.nextSstId) = false :=
    isTmp_eq_false_of_parse (parse_sstableFileName hlevel (by omega))
  refine Wp.bind (Wp.modify (Wp.bind (wp_hit (fun _ => ?_) fun _ _ => trivial)))
  refine Wp.bind (Wp.fromExcept (fun file _ => ?_) fun _ _ => trivial)
  refine Wp.bind (Wp.onPart (Disk.wp_perform (fun _ _ => ?_) fun _ _ => trivial))
  refine Wp.bind (wp_hit (fun _ => ?_) fun _ _ => trivial)
  refine Wp.bind (wp_hit (fun _ => ?_) fun _ _ => trivial)
  refine Wp.bind (Wp.onPart (Wp.bind (Disk.wp_fileExists (Wp.ite (fun _ => ?_) fun _ => trivial))))
  refine Disk.wp_perform (fun _ _ => ?_) fun _ _ => trivial
  refine Wp.bind (wp_hit (fun _ => ?_) fun _ _ => trivial)
  refine Wp.bind (Wp.onPart (Disk.wp_readFile (fun _ _ => ?_) fun _ => trivial))
  exact Wp.fromExcept (fun _ _ hswept => hswept.renamed hname _ _) fun _ _ => trivial

theorem returns_writeAll {level : Nat} (hlevel : level < 2 ^ 32)
    (chunks : List (SortedMap String SSTableEntry)) :
    Returns World.StaysSwept (writeAll level chunks) := by
  induction chunks with
  | nil => exact .of_along (.pure .refl _)
  | cons chunk chunks ih =>
    rw [writeAll]
    apply Returns.bind .trans (returns_writeLevelFile hlevel chunk)
    intro sst
    exact .bind .trans ih fun _ => .of_along (.pure .refl _)

omit [BloomSizing] in
theorem returns_deleteInputs (inputs : List Placed) :
    Returns World.StaysSwept (deleteInputs inputs) := by
  induction inputs with
  | nil => exact .of_along (.pure .refl _)
  | cons input inputs ih =>
    apply Returns.bind .trans (returns_hit _)
    intro _
    exact .bind .trans (returns_onDisk (returns_tryRemoveFile _)) fun _ => ih

theorem returns_executeJob {job : CompactionJob} (hlevel : job.outputLevel < 2 ^ 32)
    (hsound : ∀ input ∈ job.inputs, input.2.Sound) :
    Returns World.StaysSwept (executeJob job) := by
  rw [executeJob, writeOutputs_eq job hsound]
  refine .bind .trans (returns_writeAll hlevel _) fun outs => ?_
  refine .bind .trans (returns_hit _) fun _ => ?_
  refine .bind .trans (returns_onDisk (returns_writePendingMerge _ _)) fun _ => ?_
  refine .bind .trans (returns_deleteInputs _) fun _ => ?_
  refine .bind .trans (returns_hit _) fun _ => .bind .trans (returns_hit _) fun _ => ?_
  refine .bind .trans (returns_update _) fun _ => .bind .trans (returns_hit _) fun _ => ?_
  exact returns_onDisk returns_clearPendingMerge

theorem returns_flushTable : Returns World.StaysSwept flushTable := by
  have hwal : isTmp walFile = false := fixed_names.2.2.1
  refine .bind .trans (.of_along (.get .refl)) fun w => ?_
  refine .bind .trans (returns_writeLevelFile (by decide) _) fun sst => ?_
  refine .bind .trans (returns_hit _) fun _ => ?_
  refine .bind .trans (returns_onDisk (returns_perform ?_)) fun _ => ?_
  · intro dir hswept
    exact hswept.insert hwal _
  refine .bind .trans (returns_hit _) fun _ => .bind .trans (returns_hit _) fun _ => ?_
  exact .bind .trans (returns_update _) fun _ => returns_hit _

omit [BloomSizing] in
theorem returns_logRecord (record : WalRecord) (key : String) (entry : MemtableEntry) :
    Returns World.StaysSwept (logRecord record key entry) := by
  have hwal : isTmp walFile = false := fixed_names.2.2.1
  refine .bind .trans (returns_hit _) fun _ => .bind .trans ?_ fun _ => ?_
  · refine .ite (.of_along (.throw .refl _)) (returns_onDisk (returns_perform ?_))
    intro dir hswept
    exact hswept.insert hwal _
  refine .bind .trans (returns_hit _) fun _ => .bind .trans (returns_hit _) fun _ => ?_
  exact .bind .trans (returns_update _) fun _ => returns_hit _

end World.StaysSwept

/-! ## Calls -/

/-- Since `w₀` only the log, the marker and tables have changed. -/
structure World.Since (w₀ w : World) : Prop where
  changes : Changes w₀.inner.nextSstId w₀.files w.files
  nextSstId : w₀.inner.nextSstId ≤ w.inner.nextSstId

theorem World.Since.trans {w₀ w w' : World} (h : w₀.Since w) (h' : w.Since w') : w₀.Since w' :=
  ⟨h.changes.trans h.nextSstId h'.changes, h.nextSstId.trans h'.nextSstId⟩

/-- A live handle with no temporary file in its directory. -/
structure LiveSwept (m : Contents) (w : World) : Prop where
  live : Live m w
  swept : Swept w.disk.dir

theorem LiveSwept.parse_path {m : Contents} {w : World} (h : LiveSwept m w) {job : CompactionJob}
    (hfit : Fitting w.inner job) :
    ∀ input ∈ job.inputs, parseSstableFileName input.2.path ≠ none := by
  intro input hinput
  rw [h.live.stands.tables.parse_path (hfit.mem_tables hinput)]
  exact Option.some_ne_none _

/-- What the parts of a call do to the files. -/
theorem swept_rules [BloomSizing] (w₀ : World) :
    CallRules WalRecord.Fits (fun m w => LiveSwept m w ∧ w₀.Since w)
      fun _ w => Changes w₀.inner.nextSstId w₀.files w.files where
  ready h := h.1.live.ready
  answers h := h.1.live.answers
  exit h := h.2.changes
  job := by
    rintro m w job ⟨h, hsince⟩ hissued
    have hfit := hissued.fitting h.live.ready.numbered h.live.ready.sound
    have hsound : ∀ i ∈ job.inputs, i.2.Sound := fun i hi =>
      h.live.ready.sound i (hfit.mem_tables hi)
    have hchanged := (wp_executeJob hfit.target_lt hsound w).and (along_executeJob job w)
    have hswept := World.StaysSwept.returns_executeJob hfit.target_lt hsound w
    refine (((live_rules.job h.live hissued).and hchanged).and hswept).mono ?_ ?_
    · rintro _ w' ⟨⟨hlive, ⟨outs, hdone⟩, hframe⟩, hswept⟩ hfits
      have hchanges := hdone.changes hfit.target_lt (h.parse_path hfit)
      exact ⟨⟨hlive hfits, hswept h.swept⟩, hsince.trans ⟨hchanges, hframe.nextSstId⟩⟩
    · rintro _ w' ⟨⟨-, hexit, -⟩, -⟩ hfits
      exact hsince.changes.trans hsince.nextSstId
        (hexit.changes hfit.target_lt (h.parse_path hfit) hfits)
  flush := by
    rintro m w ⟨h, hsince⟩ hne
    have hchanged := (wp_flushTable w).and (along_flushTable w)
    have hswept := World.StaysSwept.returns_flushTable w
    refine (((live_rules.flush h.live hne).and hchanged).and hswept).mono ?_ ?_
    · rintro _ w' ⟨⟨hlive, ⟨sst, hdone⟩, hframe⟩, hswept⟩ hfits
      exact ⟨⟨hlive hfits, hswept h.swept⟩, hsince.trans ⟨hdone.changes, hframe.nextSstId⟩⟩
    · rintro _ w' ⟨⟨-, hexit, -⟩, -⟩ hfits
      exact hsince.changes.trans hsince.nextSstId hexit.changes
  log := by
    rintro m w record key entry ⟨h, hsince⟩ hrecord hreplay
    have hchanged := (wp_logRecord record key entry w).and (along_logRecord record key entry w)
    have hswept := World.StaysSwept.returns_logRecord record key entry w
    refine (((live_rules.log h.live hrecord hreplay).and hchanged).and hswept).mono ?_ ?_
    · rintro _ w' ⟨⟨hlive, hlogged, hframe⟩, hswept⟩ hfits
      exact ⟨⟨hlive hfits, hswept h.swept⟩, hsince.trans ⟨hlogged.changes, hframe.nextSstId⟩⟩
    · rintro _ w' ⟨⟨-, hexit, -⟩, -⟩ hfits
      exact Or.inl (hsince.changes.trans hsince.nextSstId hexit.changes)

/-! ## Directories -/

/-- A file that is not temporary is the log, the marker or a table. -/
def OwnNames (files : String → Option Bytes) : Prop := ∀ name, files name ≠ none →
  name = walFile ∨ name = mergePendingFile ∨ parseSstableFileName name ≠ none

/-- A table that is in both directories is the same in both. -/
def TablesFixed (dir dir' : Dir) : Prop := ∀ name, parseSstableFileName name ≠ none →
  dir.get? name ≠ none → dir'.get? name ≠ none → dir'.get? name = dir.get? name

theorem Changes.ownNames {next : Nat} {f g : String → Option Bytes} (h : Changes next f g)
    (hf : OwnNames f) : OwnNames g := by
  intro name hne
  cases h name with
  | same hsame => exact hf name (hsame ▸ hne)
  | log hname _ => exact Or.inl hname
  | marker hname => exact Or.inr (Or.inl hname)
  | gone hname _ => exact Or.inr (Or.inr hname)
  | added id level hname _ =>
    rw [hname]
    exact Or.inr (Or.inr (Option.some_ne_none _))

theorem Changes.walFile_ne_none {next : Nat} {f g : String → Option Bytes} (h : Changes next f g)
    (hf : f walFile ≠ none) : g walFile ≠ none := by
  obtain ⟨hwal, -, -, -, hne⟩ := fixed_names
  cases h walFile with
  | same hsame => exact hsame ▸ hf
  | log _ hthere => exact hthere
  | marker hname => exact absurd hname hne
  | gone hname _ => exact absurd hwal hname
  | added id level hname _ =>
    rw [hwal] at hname
    cases hname

/-- Tables of a live handle are not written again. -/
theorem Live.tablesFixed {m : Contents} {w w' : World} (h : Live m w)
    (hchanges : Changes w.inner.nextSstId w.files w'.files) :
    TablesFixed w.disk.dir w'.disk.dir := by
  intro name hname hthere hthere'
  rw [← TableFiles.settled_of_parse hname] at hthere hthere' ⊢
  rw [← TableFiles.settled_of_parse hname]
  obtain ⟨t, ht, rfl⟩ := h.stands.tables.complete name hthere hname
  exact hchanges.table_eq (h.stands.tables.parse_path ht) (h.ready.numbered.below t ht) hthere'

theorem Between.ownNames {dir dir' : Dir} (h : Between dir dir') (hnames : OwnNames (settled dir)) :
    OwnNames (settled dir') := by
  intro name hne
  by_cases hwal : name = walFile
  · exact Or.inl hwal
  · cases htmp : isTmp name with
    | true =>
      rw [settled, if_pos htmp] at hne
      exact absurd rfl hne
    | false =>
      rw [settled_of_not_tmp htmp] at hne
      apply hnames name
      rw [settled_of_not_tmp htmp, ← h.get?_eq hwal hne]
      exact hne

theorem Between.tablesFixed {dir dir' : Dir} (h : Between dir dir') : TablesFixed dir dir' := by
  intro name hname _ hthere'
  apply h.get?_eq _ hthere'
  intro heq
  rw [heq, fixed_names.1] at hname
  exact hname rfl

/-- Opening a durable directory ends as it says (`Between`), and leaves no temporary file. -/
theorem Durable.wp_sweep {disk : Disk} {m : Contents} (h : Durable disk.dir m)
    (options : DbOptions) :
    Wp (openWithOptions options)
      (fun _ disk' => Between disk.dir disk'.dir ∧ Swept disk'.dir ∧ disk'.dir.get? walFile ≠ none)
      (fun _ disk' => Between disk.dir disk'.dir) disk := by
  obtain ⟨tables, memtable, hrestores, -⟩ := h
  refine (PebbleDB.wp_openWithOptions options disk hrestores.distinct).mono ?_ fun _ _ h => h.1
  rintro db disk' ⟨pending, recovery, hopens, -, -, -, hdir⟩
  have hclean := (Clean.merged hopens.pending_eq).cutLog recovery
  refine ⟨.logged pending recovery hopens.pending_eq hopens.log hdir, ?_, ?_⟩
  · rw [hdir]
    exact hclean.tmp
  · rw [hdir, cutLog, SortedMap.get?_insert, if_pos rfl]
    exact Option.some_ne_none _

/-! ## Runs -/

namespace System

/-- What holds of the files between the steps. -/
def FilesOwned : System → Prop
  | opened w => ∃ m, LiveSwept m w ∧ OwnNames w.files ∧ w.disk.dir.get? walFile ≠ none
  | closed disk => (∃ m, Durable disk.dir m) ∧ OwnNames (settled disk.dir) ∧
      ∀ name, disk.unlinkFails name = false

variable [BloomSizing] {s s' : System} {label : Label}

theorem FilesOwned.step (h : s.FilesOwned) (hstep : Step s label s') (hfits : s'.disk.Fits)
    (hrecords : ∀ call ∈ label.call?, ∀ record ∈ call.record?, record.Fits) :
    s'.FilesOwned ∧ TablesFixed s.disk.dir s'.disk.dir := by
  cases hstep with
  | opens disk listing stop options db disk' hrun =>
    obtain ⟨⟨m, hdurable⟩, hnames, hfails⟩ := h
    have hopen := @Durable.wp_openWithOptions (disk.under listing stop) m hdurable hfails options
    obtain ⟨hbetween, hswept, hwal⟩ :=
      (@Durable.wp_sweep (disk.under listing stop) m hdurable options).ok_of_eq hrun
    exact ⟨⟨m, ⟨hopen.ok_of_eq hrun, hswept⟩, hbetween.ownNames hnames, hwal⟩,
      hbetween.tablesFixed⟩
  | openingCut disk listing stop options e disk' hrun =>
    obtain ⟨⟨m, hdurable⟩, hnames, hfails⟩ := h
    have hopen := @Durable.wp_openWithOptions (disk.under listing stop) m hdurable hfails options
    have hbetween :=
      (@Durable.wp_sweep (disk.under listing stop) m hdurable options).exit_of_eq hrun
    have hframe : (disk.under listing stop).Frame disk' :=
      (along_openWithOptions options _).exit_of_eq hrun
    refine ⟨⟨⟨m, (hopen.exit_of_eq hrun).2⟩, hbetween.ownNames hnames, fun name => ?_⟩,
      hbetween.tablesFixed⟩
    rw [hframe.unlinkFails]
    exact hfails name
  | returns w listing stop fuel call existed w' hrun =>
    obtain ⟨m, hlive, hnames, hwal⟩ := h
    have hunder : LiveSwept m (w.under listing stop) :=
      ⟨⟨hlive.live.ready, hlive.live.answers, hlive.live.stands, hlive.live.fails⟩, hlive.swept⟩
    have hcall := (swept_rules (w.under listing stop)).wp_call fuel call (hrecords call rfl)
      ⟨hunder, .refl _ _, le_rfl⟩
    obtain ⟨hlive', hsince⟩ := (hcall.ok_of_eq hrun hfits).2
    have hwalFile : isTmp walFile = false := fixed_names.2.2.1
    refine ⟨⟨_, hlive', hsince.changes.ownNames hnames, ?_⟩, hlive.live.tablesFixed hsince.changes⟩
    rw [← settled_of_not_tmp hwalFile]
    apply hsince.changes.walFile_ne_none
    rw [World.files, settled_of_not_tmp hwalFile]
    exact hwal
  | callCut w listing stop fuel call e w' hrun =>
    obtain ⟨m, hlive, hnames, hwal⟩ := h
    have hunder : LiveSwept m (w.under listing stop) :=
      ⟨⟨hlive.live.ready, hlive.live.answers, hlive.live.stands, hlive.live.fails⟩, hlive.swept⟩
    have hcall := (swept_rules (w.under listing stop)).wp_call fuel call (hrecords call rfl)
      ⟨hunder, .refl _ _, le_rfl⟩
    have hchanges : Changes w.inner.nextSstId w.files w'.files :=
      or_self_iff.mp (hcall.exit_of_eq hrun hfits)
    have hsafe : (System.opened w).Safe m := hlive.live
    obtain ⟨m', -, hdurable, hfails⟩ :=
      hsafe.step (.callCut w listing stop fuel call e w' hrun) hfits hrecords
    exact ⟨⟨⟨m', hdurable⟩, hchanges.ownNames hnames, hfails⟩, hlive.live.tablesFixed hchanges⟩
  | drops w =>
    obtain ⟨m, hlive, hnames, -⟩ := h
    exact ⟨⟨⟨m, hlive.live.durable⟩, hnames, hlive.live.fails⟩, fun _ _ _ _ => rfl⟩

/-- Any number of steps keep it, and the run goes on from there. -/
theorem FilesOwned.run {before after : List (Label × System)} (h : s.FilesOwned)
    (hrun : Run s (before ++ (label, s') :: after))
    (hfits : ∀ step ∈ before ++ (label, s') :: after, step.2.disk.Fits)
    (hrecords : ∀ step ∈ before ++ (label, s') :: after, ∀ call ∈ step.1.call?,
      ∀ record ∈ call.record?, record.Fits) : s'.FilesOwned ∧ Run s' after := by
  induction before generalizing s with
  | nil =>
    cases hrun with
    | cons hstep hafter =>
      exact ⟨(h.step hstep (hfits _ List.mem_cons_self) (hrecords _ List.mem_cons_self)).1, hafter⟩
  | cons step before ih =>
    cases hrun with
    | cons hstep hrest =>
      exact ih (h.step hstep (hfits _ List.mem_cons_self) (hrecords _ List.mem_cons_self)).1 hrest
        (fun step hmem => hfits step (List.mem_cons_of_mem _ hmem))
        fun step hmem => hrecords step (List.mem_cons_of_mem _ hmem)

/-- A table that is there after each step is the same after each step. -/
theorem FilesOwned.run_tables {steps : List (Label × System)} (h : s.FilesOwned) (hrun : Run s steps)
    (hfits : ∀ step ∈ steps, step.2.disk.Fits)
    (hrecords : ∀ step ∈ steps, ∀ call ∈ step.1.call?, ∀ record ∈ call.record?, record.Fits)
    {name : String} (hname : parseSstableFileName name ≠ none) (hthere : s.disk.dir.get? name ≠ none)
    (hstays : ∀ step ∈ steps, step.2.disk.dir.get? name ≠ none) :
    ∀ step ∈ steps, step.2.disk.dir.get? name = s.disk.dir.get? name := by
  induction hrun with
  | nil => exact fun _ hmem => absurd hmem List.not_mem_nil
  | cons hstep _ ih =>
    obtain ⟨hfits₁, hfits⟩ := List.forall_mem_cons.mp hfits
    obtain ⟨hrecords₁, hrecords⟩ := List.forall_mem_cons.mp hrecords
    obtain ⟨hthere₁, hstays⟩ := List.forall_mem_cons.mp hstays
    obtain ⟨howned, hfixed⟩ := h.step hstep hfits₁ hrecords₁
    have hsame := hfixed name hname hthere hthere₁
    intro step hmem
    rcases List.mem_cons.mp hmem with rfl | hmem
    · exact hsame
    · exact (ih howned hfits hrecords hthere₁ hstays step hmem).trans hsame

end System

theorem filesOwned_empty {disk : Disk} (hempty : disk.dir = ∅)
    (hfails : ∀ name, disk.unlinkFails name = false) : (System.closed disk).FilesOwned := by
  refine ⟨⟨_, durable_empty hempty⟩, fun name hne => ?_, hfails⟩
  rw [hempty, settled] at hne
  exact absurd (ite_self none) hne

/-- The directory of an open handle holds the log and one file for each table of the handle. While
no handle is open there may be temporary files, a marker and more tables. -/
def System.Exact : System → Prop
  | .opened w =>
    (∀ name, w.disk.dir.get? name ≠ none ↔
      name = walFile ∨ ∃ t ∈ w.inner.tables, t.2.path = name) ∧
    ∀ t ∈ w.inner.tables, t.2.path = sstableFileName t.1 t.2.id ∧ t.2.StoredIn w.disk.dir.get?
  | .closed disk => ∀ name, disk.dir.get? name ≠ none →
    isTmp name = true ∨ name = walFile ∨ name = mergePendingFile ∨ parseSstableFileName name ≠ none

theorem System.FilesOwned.exact {s : System} (h : s.FilesOwned) : s.Exact := by
  cases s with
  | closed disk =>
    obtain ⟨-, hnames, -⟩ := h
    intro name hne
    cases htmp : isTmp name with
    | true => exact Or.inl rfl
    | false =>
      rw [← settled_of_not_tmp htmp] at hne
      exact Or.inr (hnames name hne)
  | opened w =>
    obtain ⟨m, ⟨hlive, hswept⟩, hnames, hwal⟩ := h
    have hget : w.files = w.disk.dir.get? := by
      funext name
      rw [World.files, settled]
      split
      · exact (hswept name ‹_›).symm
      · rfl
    have htables := hlive.stands.tables
    have hmarker := hlive.stands.marker
    rw [hget] at hnames htables hmarker
    refine ⟨fun name => ⟨fun hne => ?_, ?_⟩, fun t ht => ⟨htables.path t ht, htables.stored t ht⟩⟩
    · rcases hnames name hne with hname | hname | hname
      · exact Or.inl hname
      · rw [hname] at hne
        exact absurd hmarker hne
      · exact Or.inr (htables.complete name hne hname)
    · rintro (rfl | ⟨t, ht, rfl⟩)
      · exact hwal
      · exact htables.file_ne_none ht

/-- The second write fails in the merge it starts, and the next opening is stopped behind the first
input that it removes. -/
theorem exists_interruptedRun : ∃ w₁ w₂ disk₃ disk₄ w₅,
    @System.Run .ofSmall (.closed emptyDisk) [(.quiet, .opened w₁),
      (.returned (.set "a" "1"), .opened w₂), (.cutOff (.set "a" "2"), .closed disk₃),
      (.quiet, .closed disk₄), (.quiet, .opened w₅)] ∧
    (∀ step ∈ [(Label.quiet, System.opened w₁), (.returned (.set "a" "1"), .opened w₂),
      (.cutOff (.set "a" "2"), .closed disk₃), (.quiet, .closed disk₄), (.quiet, .opened w₅)],
      step.2.disk.Fits ∧ ∀ call ∈ step.1.call?, ∀ record ∈ call.record?, record.Fits) ∧
    disk₃.dir.keys = ["merge.pending", "sstable_L0_000000.sst", "sstable_L0_000001.sst",
      "sstable_L1_000002.sst", "wal.log"] ∧
    disk₄.dir.keys = ["merge.pending", "sstable_L0_000001.sst", "sstable_L1_000002.sst",
      "wal.log"] ∧
    w₅.disk.dir.keys = ["sstable_L1_000002.sst", "wal.log"] := by
  let _ : BloomSizing := .ofSmall
  let listing := emptyDisk.listing
  have hrun : check (openWithOptions failingMerge) (emptyDisk.under listing none)
      (fun db disk₁ => decide disk₁.Fits &&
        check (Call.run 3 (.set "a" "1")) (World.under ⟨db, disk₁⟩ listing none)
          (fun _ w₂ => decide w₂.disk.Fits &&
            checkExit (Call.run 3 (.set "a" "2")) (w₂.under listing none)
              (fun _ w₃ => decide (w₃.disk.Fits ∧ w₃.disk.dir.keys = ["merge.pending",
                  "sstable_L0_000000.sst", "sstable_L0_000001.sst", "sstable_L1_000002.sst",
                  "wal.log"]) &&
                checkExit (openWithOptions .default) (w₃.disk.under listing (some ⟨1, 0⟩))
                  (fun _ disk₄ => decide (disk₄.Fits ∧ disk₄.dir.keys = ["merge.pending",
                      "sstable_L0_000001.sst", "sstable_L1_000002.sst", "wal.log"]) &&
                    check (openWithOptions .default) (disk₄.under listing none) (fun _ disk₅ =>
                      decide (disk₅.Fits ∧
                        disk₅.dir.keys = ["sstable_L1_000002.sst", "wal.log"])))))) = true := by
    decide +kernel
  obtain ⟨db, disk₁, hopen, htest⟩ := exists_of_check hrun
  obtain ⟨hfits₁, htest⟩ := Bool.and_eq_true_iff.mp htest
  obtain ⟨existed, w₂, hset, htest⟩ := exists_of_check htest
  obtain ⟨hfits₂, htest⟩ := Bool.and_eq_true_iff.mp htest
  obtain ⟨e, w₃, hcut, htest⟩ := exists_of_checkExit htest
  obtain ⟨htest₃, htest⟩ := Bool.and_eq_true_iff.mp htest
  obtain ⟨hfits₃, hkeys₃⟩ := of_decide_eq_true htest₃
  obtain ⟨e₄, disk₄, hopeningCut, htest⟩ := exists_of_checkExit htest
  obtain ⟨htest₄, htest⟩ := Bool.and_eq_true_iff.mp htest
  obtain ⟨hfits₄, hkeys₄⟩ := of_decide_eq_true htest₄
  obtain ⟨db₅, disk₅, hopen₅, htest₅⟩ := exists_of_check htest
  obtain ⟨hfits₅, hkeys₅⟩ := of_decide_eq_true htest₅
  refine ⟨⟨db, disk₁⟩, w₂, w₃.disk, disk₄, ⟨db₅, disk₅⟩, ?_, ?_, hkeys₃, hkeys₄, hkeys₅⟩
  · exact .cons (.opens _ _ _ _ _ _ hopen) (.cons (.returns _ _ _ _ _ _ _ hset)
      (.cons (.callCut _ _ _ _ _ _ _ hcut) (.cons (.openingCut _ _ _ _ _ _ hopeningCut)
      (.cons (.opens _ _ _ _ _ _ hopen₅) (.nil _)))))
  · simp only [List.forall_mem_cons]
    refine ⟨⟨of_decide_eq_true hfits₁, by decide⟩, ⟨of_decide_eq_true hfits₂, by decide⟩,
      ⟨hfits₃, by decide⟩, ⟨hfits₄, by decide⟩, ⟨hfits₅, by decide⟩, List.forall_mem_nil _⟩

/-- On a directory that was empty, after any number of handles, failed calls and stops, the directory
of the handle that is open holds its own files and no others. -/
theorem run_exact [BloomSizing] {disk : Disk} (hempty : disk.dir = ∅)
    (hfails : ∀ name, disk.unlinkFails name = false) {steps : List (Label × System)}
    (hrun : System.Run (.closed disk) steps)
    (hfits : ∀ step ∈ steps, step.2.disk.Fits)
    (hrecords : ∀ step ∈ steps, ∀ call ∈ step.1.call?, ∀ record ∈ call.record?, record.Fits) :
    ∀ step ∈ steps, step.2.Exact := by
  intro step hmem
  obtain ⟨before, after, rfl⟩ := List.mem_iff_append.mp hmem
  exact ((filesOwned_empty hempty hfails).run hrun hfits hrecords).1.exact

theorem run_exact_interrupted : ∃ w₁ w₂ disk₃ disk₄ w₅,
    @System.Run .ofSmall (.closed emptyDisk) [(.quiet, .opened w₁),
      (.returned (.set "a" "1"), .opened w₂), (.cutOff (.set "a" "2"), .closed disk₃),
      (.quiet, .closed disk₄), (.quiet, .opened w₅)] ∧
    disk₃.dir.keys.length = 5 ∧ w₅.disk.dir.keys = ["sstable_L1_000002.sst", "wal.log"] ∧
    (System.opened w₅).Exact := by
  obtain ⟨w₁, w₂, disk₃, disk₄, w₅, hrun, hsteps, hkeys₃, -, hkeys₅⟩ := exists_interruptedRun
  have hexact := @run_exact .ofSmall emptyDisk rfl (fun _ => rfl) _ hrun
    (fun step hmem => (hsteps step hmem).1) fun step hmem => (hsteps step hmem).2
  exact ⟨w₁, w₂, disk₃, disk₄, w₅, hrun, by rw [hkeys₃]; rfl, hkeys₅,
    hexact (.quiet, .opened w₅) (by simp)⟩

/-- A table file is written once: as long as it stays, through all later handles and stops, it has
the same content. -/
theorem run_tables_fixed [BloomSizing] {disk : Disk} (hempty : disk.dir = ∅)
    (hfails : ∀ name, disk.unlinkFails name = false)
    {before after : List (Label × System)} {label : Label} {s : System}
    (hrun : System.Run (.closed disk) (before ++ (label, s) :: after))
    (hfits : ∀ step ∈ before ++ (label, s) :: after, step.2.disk.Fits)
    (hrecords : ∀ step ∈ before ++ (label, s) :: after, ∀ call ∈ step.1.call?,
      ∀ record ∈ call.record?, record.Fits)
    {name : String} (hname : parseSstableFileName name ≠ none)
    (hthere : s.disk.dir.get? name ≠ none)
    (hstays : ∀ step ∈ after, step.2.disk.dir.get? name ≠ none) :
    ∀ step ∈ after, step.2.disk.dir.get? name = s.disk.dir.get? name := by
  obtain ⟨howned, hafter⟩ := (filesOwned_empty hempty hfails).run hrun hfits hrecords
  have hlater : ∀ step ∈ after, step ∈ before ++ (label, s) :: after := fun step hmem =>
    List.mem_append_right _ (List.mem_cons_of_mem _ hmem)
  exact howned.run_tables hafter (fun step hmem => hfits step (hlater step hmem))
    (fun step hmem => hrecords step (hlater step hmem)) hname hthere hstays

/-- The output of the merge that failed. -/
theorem run_tables_fixed_interrupted : ∃ disk₃ disk₄ disk₅ : Disk,
    disk₃.dir.get? "sstable_L1_000002.sst" ≠ none ∧
    disk₄.dir.get? "sstable_L1_000002.sst" = disk₃.dir.get? "sstable_L1_000002.sst" ∧
    disk₅.dir.get? "sstable_L1_000002.sst" = disk₃.dir.get? "sstable_L1_000002.sst" := by
  obtain ⟨w₁, w₂, disk₃, disk₄, w₅, hrun, hsteps, hkeys₃, hkeys₄, hkeys₅⟩ := exists_interruptedRun
  have hthere₃ : disk₃.dir.get? "sstable_L1_000002.sst" ≠ none := by
    rw [← SortedMap.mem_keys, hkeys₃]
    simp
  have hthere₄ : disk₄.dir.get? "sstable_L1_000002.sst" ≠ none := by
    rw [← SortedMap.mem_keys, hkeys₄]
    simp
  have hthere₅ : w₅.disk.dir.get? "sstable_L1_000002.sst" ≠ none := by
    rw [← SortedMap.mem_keys, hkeys₅]
    simp
  have hfixed := @run_tables_fixed .ofSmall emptyDisk rfl (fun _ => rfl)
    [(.quiet, .opened w₁), (.returned (.set "a" "1"), .opened w₂)]
    [(.quiet, .closed disk₄), (.quiet, .opened w₅)] (.cutOff (.set "a" "2")) (.closed disk₃) hrun
    (fun step hmem => (hsteps step hmem).1) (fun step hmem => (hsteps step hmem).2)
    "sstable_L1_000002.sst" (by decide +kernel) hthere₃ (by
      simp only [List.forall_mem_cons]
      exact ⟨hthere₄, hthere₅, List.forall_mem_nil _⟩)
  obtain ⟨hsame₄, hsame₅, -⟩ := by simpa only [List.forall_mem_cons] using hfixed
  exact ⟨disk₃, disk₄, w₅.disk, hthere₃, hsame₄, hsame₅⟩

end PebbleDB
