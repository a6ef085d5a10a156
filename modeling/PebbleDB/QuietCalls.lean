import PebbleDB.Handles

/-!
# Calls that nothing disturbs

Without a fault and with a process that runs on, a handle does what its calls say (`World.Quiet`). What
they return is given here in closed form, for values too large to compute with: a write
(`set_eq`), the file of a flush (`exists_write_flush`), and a write that fills the memtable
(`set_flush_eq`).
-/

namespace PebbleDB

open EarlyExit

/-- Neither a fault nor the end of the process disturbs the handle. -/
structure World.Quiet (w : World) : Prop where
  fault : w.inner.fault.fault = none
  stop : w.disk.stop = none

namespace World.Quiet

variable {w : World} (h : w.Quiet)
include h

theorem hit_eq (point : FaultPoint) : hit point w = .ok () w := by
  obtain ⟨⟨memtable, levels, next, options, ⟨fault, hits⟩⟩, disk⟩ := w
  obtain ⟨hfault, -⟩ := h
  obtain rfl : fault = none := hfault
  rfl

theorem perform_eq (op : FileOp) : onDisk (Disk.perform op) w =
    .ok () { w with disk := { w.disk with dir := op.apply w.disk.dir, log := w.disk.log ++ [op] } } := by
  obtain ⟨inner, ⟨dir, log, listing, fails, stop⟩⟩ := w
  obtain ⟨-, hstop⟩ := h
  obtain rfl : stop = none := hstop
  rfl

/-- A record is logged, and the handle is as quiet as before. -/
theorem logRecord_eq {record : WalRecord} (hsum : record.totalLenOverflows = false) (key : String)
    (entry : MemtableEntry) :
    ∃ w', logRecord record key entry w = .ok () w' ∧ w'.Quiet ∧
      w'.inner = { w.inner with memtable := w.inner.memtable.insert key entry } := by
  have happend : appendRecord record w =
      onDisk (Disk.perform (.append walFile record.encode)) w := by
    rw [appendRecord, hsum]
    rfl
  have hquiet : ∀ memtable, World.Quiet
      ⟨{ w.inner with memtable }, { w.disk with
        dir := (FileOp.append walFile record.encode).apply w.disk.dir,
        log := w.disk.log ++ [.append walFile record.encode] }⟩ := fun _ => ⟨h.fault, h.stop⟩
  refine ⟨_, ?_, hquiet (w.inner.memtable.insert key entry), rfl⟩
  rw [logRecord, bind_of_ok (h.hit_eq _), bind_of_ok (happend.trans (h.perform_eq _)),
    bind_of_ok ((hquiet _).hit_eq _), bind_of_ok ((hquiet _).hit_eq _)]
  exact (hquiet _).hit_eq _

/-- A write that does not fill the memtable. -/
theorem set_eq [BloomSizing] (fuel : Nat) {key value : String}
    (hsum : (WalRecord.set key value).totalLenOverflows = false)
    (hsize : (w.inner.memtable.insert key (.value value)).size < w.inner.options.flushThreshold) :
    ∃ w', set fuel key value w = .ok () w' ∧ w'.Quiet ∧
      w'.inner = { w.inner with memtable := w.inner.memtable.insert key (.value value) } := by
  obtain ⟨w', hlog, hquiet, hinner⟩ := h.logRecord_eq hsum key (.value value)
  refine ⟨w', ?_, hquiet, hinner⟩
  have hbelow : ¬ w'.inner.options.flushThreshold ≤ w'.inner.memtable.size := by
    rw [hinner]
    exact not_le.mpr hsize
  rw [set, writeRecord_eq, bind_of_ok hlog]
  show (if w'.inner.options.flushThreshold ≤ w'.inner.memtable.size then flush fuel else pure ()
    : OpM Unit) w' = _
  rw [if_neg hbelow]
  rfl

theorem wp_writeLevelFile [BloomSizing] {level : Nat} {entries : SortedMap String SSTableEntry}
    {file : Bytes} (hfile : SSTable.writeSstable entries = .ok file)
    (hid : w.inner.nextSstId + 1 < 2 ^ 64) :
    Wp (writeLevelFile level entries)
      (fun _ w' => .write (tmpName (sstableFileName level w.inner.nextSstId)) file ∈ w'.disk.log)
      (fun _ w' => .write (tmpName (sstableFileName level w.inner.nextSstId)) file ∈ w'.disk.log)
      w := by
  rw [writeLevelFile]
  refine Wp.bind (Wp.get (Wp.ite (fun hbig => absurd hbig (not_le.mpr hid)) fun _ => ?_))
  have hnext : World.Quiet ⟨{ w.inner with nextSstId := w.inner.nextSstId + 1 }, w.disk⟩ :=
    ⟨h.fault, h.stop⟩
  refine Wp.bind (Wp.modify (Wp.bind (Wp.of_eq_ok (hnext.hit_eq _) ?_)))
  refine Wp.bind (Wp.of_eq_ok (fromExcept_ok hfile _) ?_)
  refine Wp.bind (Wp.of_eq_ok (hnext.perform_eq _) ?_)
  -- what comes behind the write only adds to the log
  have hframe := World.Frame.regular
  refine Along.wp (hframe.bind (hframe.hit _) fun _ => hframe.bind (hframe.hit _) fun _ => ?_)
    fun w' hw' => hw'.disk.log.subset (by simp)
  refine hframe.bind (World.along_onDisk (hframe.disk.along_renameFile (.rename _ _))) fun _ => ?_
  refine hframe.bind (hframe.hit _) fun _ => ?_
  exact hframe.bind (World.along_onDisk (hframe.disk.along_readFile _)) fun _ =>
    .fromExcept hframe.refl _

/-- A flush writes the memtable into a file, however it ends. -/
theorem exists_write_flush [BloomSizing] (fuel : Nat) (hne : w.inner.memtable ≠ ∅)
    (hid : w.inner.nextSstId + 1 < 2 ^ 64) :
    ∃ file, SSTable.writeSstable (w.inner.memtable.map toSstEntry) = .ok file ∧
      .write (tmpName (sstableFileName 0 w.inner.nextSstId)) file ∈
        (after (flush fuel) w).disk.log := by
  obtain ⟨file, hfile⟩ := SSTable.writeSstable_ok (w.inner.memtable.map toSstEntry)
  refine ⟨file, hfile, ?_⟩
  have hwp : Wp (flush fuel)
      (fun _ w' => .write (tmpName (sstableFileName 0 w.inner.nextSstId)) file ∈ w'.disk.log)
      (fun _ w' => .write (tmpName (sstableFileName 0 w.inner.nextSstId)) file ∈ w'.disk.log)
      w := by
    rw [flush]
    refine Wp.bind (Wp.get (Wp.ite (fun hnil => absurd hnil hne) fun _ => ?_))
    refine Wp.bind ((h.wp_writeLevelFile hfile hid).mono (fun sst w₁ hw₁ => ?_) fun _ _ hw' => hw')
    have hframe := World.Frame.regular
    refine Along.wp (hframe.bind (hframe.hit _) fun _ => hframe.bind (World.along_onDisk
      (hframe.disk.perform (.setLen _ _))) fun _ => hframe.bind (hframe.hit _) fun _ => ?_)
      fun w' hw' => hw'.disk.log.subset hw₁
    refine hframe.bind (hframe.hit _) fun _ => hframe.bind (hframe.update ?_ ?_ ?_) fun _ => ?_
    · exact fun _ => rfl
    · exact fun _ => rfl
    · exact fun _ => le_rfl
    exact hframe.bind (hframe.hit _) fun _ => hframe.along_compactPending fuel
  exact hwp.after

theorem exists_perform (op : FileOp) : ∃ disk : Disk,
    onDisk (Disk.perform op) w = .ok () { w with disk := disk } ∧
      disk.dir = op.apply w.disk.dir ∧ disk.stop = none :=
  ⟨_, h.perform_eq op, rfl, h.stop⟩

/-- A file that loads is written. -/
theorem writeLevelFile_eq [BloomSizing] {level : Nat} {entries : SortedMap String SSTableEntry}
    {file : Bytes} {sst : SSTable} (hlevel : level < 2 ^ 32)
    (hfile : SSTable.writeSstable entries = .ok file) (hid : w.inner.nextSstId + 1 < 2 ^ 64)
    (hload : SSTable.load w.inner.nextSstId (sstableFileName level w.inner.nextSstId) file =
      .ok sst) :
    ∃ w', writeLevelFile level entries w = .ok sst w' ∧ w'.Quiet ∧
      w'.inner = { w.inner with nextSstId := w.inner.nextSstId + 1 } := by
  have hname : isTmp (sstableFileName level w.inner.nextSstId) = false :=
    isTmp_eq_false_of_parse (parse_sstableFileName hlevel (by omega))
  generalize hpath : sstableFileName level w.inner.nextSstId = path at hname hload
  obtain ⟨w₁, hw₁⟩ : ∃ w₁ : World,
      w₁ = { w with inner := { w.inner with nextSstId := w.inner.nextSstId + 1 } } := ⟨_, rfl⟩
  have hquiet₁ : w₁.Quiet := by rw [hw₁]; exact ⟨h.fault, h.stop⟩
  have hupdate : update (fun db => { db with nextSstId := db.nextSstId + 1 }) w = .ok () w₁ := by
    rw [hw₁]
    rfl
  obtain ⟨disk₂, hwrite, hdir₂, hstop₂⟩ := hquiet₁.exists_perform (.write (tmpName path) file)
  have hquiet₂ : World.Quiet { w₁ with disk := disk₂ } := ⟨hquiet₁.fault, hstop₂⟩
  have hdata : disk₂.dir.get? (tmpName path) = some file := by
    rw [hdir₂, FileOp.apply, SortedMap.get?_insert, if_pos rfl]
  obtain ⟨disk₃, hperform, hdir₃, hstop₃⟩ := hquiet₂.exists_perform (.rename (tmpName path) path)
  have hquiet₃ : World.Quiet { w₁ with disk := disk₃ } := ⟨hquiet₁.fault, hstop₃⟩
  have hfound : Disk.renameFile (tmpName path) path disk₂ =
      Disk.perform (.rename (tmpName path) path) disk₂ := by
    rw [Disk.renameFile, bind_of_ok (rfl : Disk.fileExists (tmpName path) disk₂ =
      .ok (disk₂.dir.get? (tmpName path)).isSome disk₂), hdata]
    rfl
  have hrename : onDisk (Disk.renameFile (tmpName path) path) { w₁ with disk := disk₂ } =
      .ok () { w₁ with disk := disk₃ } := by
    rw [← hperform]
    simp only [onDisk, onPart, hfound]
  have hget : disk₃.dir.get? path = some file := by
    rw [← settled_of_not_tmp hname, hdir₃, settled_rename hname hdata, Function.update_self]
  have hread : onDisk (Disk.readFile path) { w₁ with disk := disk₃ } =
      .ok file { w₁ with disk := disk₃ } := by
    rw [onDisk, onPart, Disk.readFile, hget]
  refine ⟨{ w₁ with disk := disk₃ }, ?_, hquiet₃, by rw [hw₁]⟩
  rw [writeLevelFile, bind_of_ok (rfl : (get : OpM World) w = .ok w w)]
  dsimp only
  rw [if_neg (not_le.mpr hid), hpath, bind_of_ok hupdate, bind_of_ok (hquiet₁.hit_eq _),
    bind_of_ok (fromExcept_ok hfile _), bind_of_ok hwrite, bind_of_ok (hquiet₂.hit_eq _),
    bind_of_ok (hquiet₂.hit_eq _), bind_of_ok hrename, bind_of_ok (hquiet₃.hit_eq _),
    bind_of_ok hread]
  exact fromExcept_ok hload _

/-- And a flush that needs no compaction returns with it. -/
theorem flush_eq [BloomSizing] (fuel : Nat) {file : Bytes} {sst : SSTable} {db : DbInner}
    (hne : w.inner.memtable ≠ ∅)
    (hfile : SSTable.writeSstable (w.inner.memtable.map toSstEntry) = .ok file)
    (hid : w.inner.nextSstId + 1 < 2 ^ 64)
    (hload : SSTable.load w.inner.nextSstId (sstableFileName 0 w.inner.nextSstId) file = .ok sst)
    (hdb : db = { w.inner with
      levels := w.inner.levels.modify 0 fun files => files ++ [sst]
      memtable := ∅
      nextSstId := w.inner.nextSstId + 1 })
    (hpick : pickCompaction db.fileMetas db.options.levelConfig = .ok none) :
    ∃ w', flush (fuel + 1) w = .ok () w' ∧ w'.inner = db := by
  obtain ⟨w₁, hwrite, hquiet₁, hinner₁⟩ := h.writeLevelFile_eq (by decide) hfile hid hload
  obtain ⟨disk, hcut, -, hstop⟩ := hquiet₁.exists_perform (.setLen walFile 0)
  have hquiet₂ : World.Quiet { w₁ with disk := disk } := ⟨hquiet₁.fault, hstop⟩
  have hupdate : update (fun db => { db with
      levels := db.levels.modify 0 fun files => files ++ [sst]
      memtable := ∅ }) { w₁ with disk := disk } = .ok () ⟨db, disk⟩ := by
    show EStateM.Result.ok () (World.mk _ _) = _
    rw [hinner₁, hdb]
  have hquiet₃ : World.Quiet ⟨db, disk⟩ := ⟨by rw [hdb]; exact h.fault, hstop⟩
  refine ⟨⟨db, disk⟩, ?_, rfl⟩
  rw [flush, bind_of_ok (rfl : (get : OpM World) w = .ok w w)]
  show (if w.inner.memtable = ∅ then _ else _ : OpM Unit) w = _
  rw [if_neg hne, bind_of_ok hwrite, bind_of_ok (hquiet₁.hit_eq _), bind_of_ok hcut,
    bind_of_ok (hquiet₂.hit_eq _), bind_of_ok (hquiet₂.hit_eq _), bind_of_ok hupdate,
    bind_of_ok (hquiet₃.hit_eq _)]
  exact compactPending_of_none fuel hpick

/-- A write that fills the memtable ends with such a flush. -/
theorem set_flush_eq [BloomSizing] (fuel : Nat) {key value : String} {file : Bytes} {sst : SSTable}
    {db : DbInner} (hsum : (WalRecord.set key value).totalLenOverflows = false)
    (hsize : w.inner.options.flushThreshold ≤ (w.inner.memtable.insert key (.value value)).size)
    (hfile : SSTable.writeSstable ((w.inner.memtable.insert key (.value value)).map toSstEntry) =
      .ok file)
    (hid : w.inner.nextSstId + 1 < 2 ^ 64)
    (hload : SSTable.load w.inner.nextSstId (sstableFileName 0 w.inner.nextSstId) file = .ok sst)
    (hdb : db = { w.inner with
      levels := w.inner.levels.modify 0 fun files => files ++ [sst]
      memtable := ∅
      nextSstId := w.inner.nextSstId + 1 })
    (hpick : pickCompaction db.fileMetas db.options.levelConfig = .ok none) :
    ∃ w', set (fuel + 1) key value w = .ok () w' ∧ w'.inner = db := by
  obtain ⟨w₁, hlog, hquiet, hinner⟩ := h.logRecord_eq hsum key (.value value)
  have hne : w₁.inner.memtable ≠ ∅ := by
    rw [hinner]
    exact fun hempty => SortedMap.insert_entries_ne_nil _ _ _ (congrArg SortedMap.entries hempty)
  obtain ⟨w₂, hflush, hdb₂⟩ := hquiet.flush_eq fuel hne (by rw [hinner]; exact hfile)
    (by rw [hinner]; exact hid) (by rw [hinner]; exact hload) (by rw [hdb, hinner]) hpick
  refine ⟨w₂, ?_, hdb₂⟩
  have hfull : w₁.inner.options.flushThreshold ≤ w₁.inner.memtable.size := by
    rw [hinner]
    exact hsize
  rw [set, writeRecord_eq, bind_of_ok hlog]
  show (if w₁.inner.options.flushThreshold ≤ w₁.inner.memtable.size then flush (fuel + 1)
    else pure () : OpM Unit) w₁ = _
  rw [if_pos hfull, hflush]

end World.Quiet

/-- A call without a reply of its own. -/
theorem returns_none {x : OpM Unit} {w w' : World} (h : x w = .ok () w') :
    ((fun _ => none) <$> x : OpM (Option Bool)) w = .ok none w' := by
  show EStateM.map _ x w = _
  rw [EStateM.map, h]

end PebbleDB
