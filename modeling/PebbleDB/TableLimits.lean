import PebbleDB.JobFiles
import PebbleDB.LiveRun
import PebbleDB.QuietCalls
import PebbleDB.WalAppend

/-!
# The numbers of a table file

The writer casts the lengths and offsets of a table file to `u32`. All of them keep their values,
and the file reads back as what was written, exactly if the header, the records and the index
together take less than four gibibytes (`SSTable.faithful_iff`). The files that a handle writes are
all written so (`FileOp.Regular`), but nothing it does bounds their sizes: the memtable is flushed
by the number of its entries, and a full compaction has no target size.
-/

namespace PebbleDB

open EarlyExit LittleEndian

/-! ## The casts of the writer -/

namespace SSTable

/-- The lengths of the key and of the value of a record. -/
def recordNumbers (record : String × SSTableEntry) : List Nat :=
  [(asBytes record.1).length, (valueBytes record.2).length]

/-- The offsets and lengths of consecutive blocks, the first of them at `off`. -/
def blockNumbers : Nat → List Bytes → List Nat
  | _, [] => []
  | off, block :: blocks => off :: block.length :: blockNumbers (off + block.length) blocks

/-- The numbers that `write_sstable_with_block_size` casts to `u32`. -/
def castNumbers [BloomSizing] (entries : SortedMap String SSTableEntry) (blockSize : Nat) :
    Res (List Nat) := do
  let bloom ← BloomFilter.fromEntries entries.keys
  let w ← TableWriter.addRecords blockSize entries.entries
    { fileBuf := List.replicate headerSize 0, blocks := [], indexEntries := [],
      currentBlock := [], currentBlockFirstKey := none }
  let w ← w.finishLast
  let indexData := w.indexEntries.flatMap encodeIndexEntry
  let indexOffset := w.fileBuf.length
  let bloomOffset := indexOffset + indexData.length
  return entries.entries.flatMap recordNumbers ++ blockNumbers headerSize w.blocks ++
    w.indexEntries.map (fun ie => (asBytes ie.firstKey).length) ++
    [indexOffset, indexData.length, bloomOffset, bloom.encode.length, entries.size,
      w.blocks.length, blockSize]

/-- The bytes in front of the filter: the header, the records, and for each block an entry of the
index with the first key of the block. -/
def frontSize (entries : SortedMap String SSTableEntry) (blockSize : Nat) : Nat :=
  headerSize + totalSize entries.entries +
    ((cutBlocks blockSize [] entries.entries).map fun block =>
      12 + (asBytes (headKey block)).length).sum

/-- No cast of the writer changes a number, and the file reads back as what was written. -/
structure Faithful [BloomSizing] (entries : SortedMap String SSTableEntry) (blockSize : Nat)
    (file : Bytes) : Prop where
  casts : ∃ numbers, castNumbers entries blockSize = .ok numbers ∧ ∀ n ∈ numbers, n < 2 ^ 32
  readable : ∀ id path, ∃ sst, load id path file = .ok sst ∧ sst.entries = entries ∧
    ∀ key, sst.get key = .ok (entries.get? key)

theorem length_encodeRecord_eq_recordSize (key : String) (entry : SSTableEntry) :
    (encodeRecord key entry).length = recordSize key entry := by
  rw [length_encodeRecord]
  cases entry with
  | value v => rfl
  | tombstone => rfl

theorem length_encodeBlock_eq_totalSize (block : Block) :
    (encodeBlock block).length = totalSize block := by
  induction block with
  | nil => rfl
  | cons r block ih =>
    rw [encodeBlock_cons, List.length_append, ih, length_encodeRecord_eq_recordSize]
    rfl

theorem length_flatMap_encodeBlock (blocks : List Block) :
    (blocks.flatMap encodeBlock).length = totalSize blocks.flatten := by
  rw [← length_encodeBlock_eq_totalSize]
  induction blocks with
  | nil => rfl
  | cons block blocks ih =>
    rw [List.flatMap_cons, List.flatten_cons, encodeBlock_append, List.length_append,
      List.length_append, ih]

theorem length_encodeIndex_layout (off : Nat) (blocks : List Block) :
    ((layout off blocks).flatMap encodeIndexEntry).length =
      (blocks.map fun block => 12 + (asBytes (headKey block)).length).sum := by
  induction blocks generalizing off with
  | nil => rfl
  | cons block blocks ih =>
    rw [layout, List.flatMap_cons, List.length_append, length_encodeIndexEntry, ih]
    rfl

theorem bloomOffset_cutBlocks (entries : SortedMap String SSTableEntry) (blockSize : Nat) :
    bloomOffset (cutBlocks blockSize [] entries.entries) = frontSize entries blockSize := by
  rw [bloomOffset, frontSize, length_flatMap_encodeBlock, flatten_cutBlocks, List.nil_append,
    length_encodeIndex_layout]

theorem offsetsFit_iff_frontSize [BloomSizing] {entries : SortedMap String SSTableEntry}
    {blockSize : Nat} {file : Bytes} (hfile : writeSstableWithBlockSize entries blockSize = .ok file) :
    OffsetsFit file ↔ frontSize entries blockSize < 2 ^ 32 := by
  rw [offsetsFit_iff hfile, bloomOffset_cutBlocks]

theorem castNumbers_eq [BloomSizing] (entries : SortedMap String SSTableEntry) (blockSize : Nat) :
    ∃ bloom : BloomFilter, bloom.encode.length < 2 ^ 32 ∧
      castNumbers entries blockSize =
        let blocks := cutBlocks blockSize [] entries.entries
        let indexOffset := headerSize + (blocks.flatMap encodeBlock).length
        .ok (entries.entries.flatMap recordNumbers ++
          blockNumbers headerSize (blocks.map encodeBlock) ++
          blocks.map (fun block => (asBytes (headKey block)).length) ++
          [indexOffset, bloomOffset blocks - indexOffset, bloomOffset blocks, bloom.encode.length,
            entries.size, blocks.length, blockSize]) := by
  obtain ⟨bloom, hbloom, hcovers, hbits, -⟩ := BloomFilter.fromEntries_eq entries.keys
  obtain ⟨w, w', hw, hw', hinv⟩ := TableWriter.inv_blocks entries.entries blockSize
  refine ⟨bloom, hcovers.sized.length_encode_lt hbits, ?_⟩
  have hfirst := firstKey_layout headerSize (cutBlocks blockSize [] entries.entries)
  have hkeys := congrArg (List.map fun key => (asBytes key).length) hfirst
  simp only [List.map_map, Function.comp_def] at hkeys
  rw [castNumbers, hbloom]
  simp only [bind, Except.bind, hw, hw', pure, Except.pure]
  simp only [hinv.fileBuf, hinv.blocks, hinv.index, hkeys, List.length_append,
    List.length_replicate, List.length_map, bloomOffset, Nat.add_sub_cancel_left]

/-! ### The largest of them -/

theorem le_of_mem_recordNumbers {records : Block} {n : Nat}
    (h : n ∈ records.flatMap recordNumbers) : n ≤ (encodeBlock records).length := by
  obtain ⟨r, hr, hn⟩ := List.mem_flatMap.mp h
  have hrecord : n ≤ (encodeRecord r.1 r.2).length := by
    rw [length_encodeRecord]
    simp only [recordNumbers, List.mem_cons, List.not_mem_nil, or_false] at hn
    omega
  obtain ⟨before, after, rfl⟩ := List.append_of_mem hr
  rw [encodeBlock_append, encodeBlock_cons, List.length_append, List.length_append]
  omega

theorem le_of_mem_blockNumbers {blocks : List Bytes} {off n : Nat}
    (h : n ∈ blockNumbers off blocks) : n ≤ off + blocks.flatten.length := by
  induction blocks generalizing off with
  | nil => cases h
  | cons block blocks ih =>
    rw [List.flatten_cons, List.length_append]
    rcases List.mem_cons.mp h with rfl | h
    · omega
    · rcases List.mem_cons.mp h with rfl | h
      · omega
      · have := ih h
        omega

/-- Of all lengths and offsets but that of the filter, its offset is the largest. -/
theorem le_bloomOffset (entries : SortedMap String SSTableEntry) (blockSize : Nat) {n : Nat}
    (h : n ∈ entries.entries.flatMap recordNumbers ∨
      n ∈ blockNumbers headerSize ((cutBlocks blockSize [] entries.entries).map encodeBlock) ∨
      n ∈ (cutBlocks blockSize [] entries.entries).map fun block => (asBytes (headKey block)).length) :
    n ≤ bloomOffset (cutBlocks blockSize [] entries.entries) := by
  have hflat : (encodeBlock entries.entries).length =
      ((cutBlocks blockSize [] entries.entries).flatMap encodeBlock).length := by
    rw [length_flatMap_encodeBlock, flatten_cutBlocks, List.nil_append,
      length_encodeBlock_eq_totalSize]
  unfold bloomOffset
  rcases h with h | h | h
  · have := le_of_mem_recordNumbers h
    omega
  · have := le_of_mem_blockNumbers h
    rw [← List.flatMap_def] at this
    omega
  · obtain ⟨block, hblock, rfl⟩ := List.mem_map.mp h
    have := length_headKey_le block
    have := length_block_le hblock
    omega

/-- The numbers of blocks and of records are at most the bytes of the records. -/
theorem counts_le (entries : SortedMap String SSTableEntry) (blockSize : Nat) :
    entries.size ≤ bloomOffset (cutBlocks blockSize [] entries.entries) ∧
      (cutBlocks blockSize [] entries.entries).length ≤
        bloomOffset (cutBlocks blockSize [] entries.entries) := by
  have hrecords := length_flatten_le (cutBlocks blockSize [] entries.entries)
  have hblocks := length_le_flatten (cutBlocks_ne_nil blockSize [] entries.entries)
  rw [flatten_cutBlocks, List.nil_append] at hrecords hblocks
  rw [SortedMap.size]
  unfold bloomOffset
  omega

theorem castNumbers_lt_iff [BloomSizing] (entries : SortedMap String SSTableEntry)
    {blockSize : Nat} (hsize : blockSize < 2 ^ 32) :
    (∃ numbers, castNumbers entries blockSize = .ok numbers ∧ ∀ n ∈ numbers, n < 2 ^ 32) ↔
      frontSize entries blockSize < 2 ^ 32 := by
  obtain ⟨bloom, hbloom, heq⟩ := castNumbers_eq entries blockSize
  obtain ⟨hcount, hblocks⟩ := counts_le entries blockSize
  rw [heq, ← bloomOffset_cutBlocks]
  constructor
  · rintro ⟨numbers, hnumbers, hlt⟩
    cases hnumbers
    exact hlt _ (by simp)
  · intro hlt
    refine ⟨_, rfl, fun n hn => ?_⟩
    have hmax := @le_bloomOffset entries blockSize n
    rcases List.mem_append.mp hn with hn | hn
    · refine lt_of_le_of_lt (hmax ?_) hlt
      rcases List.mem_append.mp hn with hn | hn
      · exact (List.mem_append.mp hn).imp_right Or.inl
      · exact Or.inr (Or.inr hn)
    · have hindex : headerSize + ((cutBlocks blockSize [] entries.entries).flatMap
          encodeBlock).length ≤ bloomOffset (cutBlocks blockSize [] entries.entries) :=
        Nat.le_add_right _ _
      simp only [List.mem_cons, List.not_mem_nil, or_false] at hn
      omega

/-- The casts of a written file keep their numbers, and the file reads back, exactly if what stands
in front of the filter fits. -/
theorem faithful_iff [BloomSizing] {entries : SortedMap String SSTableEntry} {blockSize : Nat}
    {file : Bytes} (hfile : writeSstableWithBlockSize entries blockSize = .ok file)
    (hsize : blockSize < 2 ^ 32) :
    Faithful entries blockSize file ↔ frontSize entries blockSize < 2 ^ 32 := by
  rw [← castNumbers_lt_iff entries hsize]
  refine ⟨Faithful.casts, fun hcasts => ⟨hcasts, fun id path => ?_⟩⟩
  rw [castNumbers_lt_iff entries hsize, ← bloomOffset_cutBlocks] at hcasts
  obtain ⟨sst, hload, hholds, -⟩ := load_holds_of_bloomOffset hfile hcasts id path
  exact ⟨sst, hload, hholds.entries_eq, hholds.get_eq⟩

end SSTable

/-! ## The tables of a run -/

section Runs

variable [BloomSizing]

/-- Whatever runs on a handle, its file operations are regular. -/
theorem steady_regular : World.Steady FileOp.Regular fun w w' =>
    (∀ op ∈ w.disk.log, op.Regular) → ∀ op ∈ w'.disk.log, op.Regular where
  refl _ h := h
  trans h h' hlog := h' (h hlog)
  hit _ _ := wp_hit (fun _ h => h) fun _ _ h => h
  update _ _ _ := Along.modify fun _ h => h
  disk := {
    refl := fun _ _ h => h
    trans := fun h h' inner hlog => h' inner (h inner hlog)
    perform := fun hop disk => by
      have happend : ∀ log : List FileOp, (∀ op ∈ log, op.Regular) →
          ∀ op ∈ log ++ [_], op.Regular := fun log hlog op hmem => by
        rcases List.mem_append.mp hmem with hmem | hmem
        · exact hlog op hmem
        · exact List.mem_singleton.mp hmem ▸ hop
      exact Disk.wp_perform (fun _ _ _ hlog => happend _ hlog) fun _ _ _ hlog => happend _ hlog }

theorem regular_open {options : DbOptions} {disk disk' : Disk} {db : DbInner}
    (hlog : disk.log = []) (hopen : openWithOptions options disk = .ok db disk') :
    ∀ op ∈ disk'.log, op.Regular := by
  refine (steady_regular.disk.along_openWithOptions .remove .setLen .create options
    disk).ok_of_eq hopen db ?_
  intro op hop
  rw [hlog] at hop
  exact absurd hop List.not_mem_nil

theorem Step.From.world_eq {w : World} {step : Step} (h : step.From w) :
    ∃ fuel call, step.world = after (Call.run fuel call) w := by
  cases h with
  | returned fuel call existed w' hrun => exact ⟨fuel, call, by rw [after, hrun]⟩
  | failed fuel call e w' hrun => exact ⟨fuel, call, by rw [after, hrun]⟩

theorem regular_run {w : World} {steps : List Step} (hrun : Run w steps)
    (hlog : ∀ op ∈ w.disk.log, op.Regular) :
    ∀ step ∈ steps, ∀ op ∈ step.world.disk.log, op.Regular := by
  induction hrun with
  | nil w => exact fun _ hstep => absurd hstep List.not_mem_nil
  | cons hfrom _ ih =>
    obtain ⟨fuel, call, heq⟩ := hfrom.world_eq
    have hlog' := (steady_regular.along_call fuel call).after _ hlog
    rw [← heq] at hlog'
    intro step hstep
    rcases List.mem_cons.mp hstep with rfl | hstep
    · exact hlog'
    · exact ih hlog' step hstep

/-- Every table file that a handle has written, whatever the calls before and however the last one
ends, is faithful to the records from which the writer has made it exactly if its header, records
and index take less than four gibibytes. -/
theorem tableWrites_faithful_iff {options : DbOptions} {disk disk' : Disk} {db : DbInner}
    (hlog : disk.log = []) (hopen : openWithOptions options disk = .ok db disk')
    {steps : List Step} (hrun : Run ⟨db, disk'⟩ steps) {w : World}
    (hw : w ∈ ⟨db, disk'⟩ :: steps.map Step.world) (fuel : Nat) (call : Call) {level id : Nat}
    {file : Bytes} (hwrite : FileOp.write (tmpName (sstableFileName level id)) file ∈
      (after (call.run fuel) w).disk.log) :
    (∃ entries, SSTable.writeSstable entries = .ok file) ∧
      ∀ entries, SSTable.writeSstable entries = .ok file →
        (SSTable.Faithful entries defaultBlockSize file ↔
          SSTable.frontSize entries defaultBlockSize < 2 ^ 32) := by
  have hopened := regular_open hlog hopen
  have hreached : ∀ op ∈ w.disk.log, op.Regular := by
    rcases List.mem_cons.mp hw with rfl | hw
    · exact hopened
    · obtain ⟨step, hstep, rfl⟩ := List.mem_map.mp hw
      exact regular_run hrun hopened step hstep
  have hregular := (steady_regular.along_call fuel call).after w hreached _ hwrite
  generalize hname : tmpName (sstableFileName level id) = name at hregular
  cases hregular with
  | marker outputs inputs => exact absurd hname (sstableFileName_ne_marker level id)
  | table level id entries file hfile =>
    exact ⟨⟨entries, hfile⟩, fun _ hfile' => SSTable.faithful_iff hfile' (by decide)⟩

end Runs

/-- A flushed file of one record. -/
theorem tableWrites_faithful_iff_oneRecord : ∃ w file,
    @SSTable.writeSstable .ofSmall (.ofList [("k", .value "v")]) = .ok file ∧
      FileOp.write (tmpName (sstableFileName 0 0)) file ∈
        (after (@Call.run .ofSmall 1 .flush) w).disk.log ∧
      @SSTable.Faithful .ofSmall (.ofList [("k", .value "v")]) defaultBlockSize file := by
  let _ : BloomSizing := .ofSmall
  let records : SortedMap String SSTableEntry := .ofList [("k", .value "v")]
  obtain ⟨file, hfile⟩ := SSTable.writeSstable_ok records
  have hopened : check (openWithOptions .default) emptyDisk (fun _ _ => true) = true := by
    decide +kernel
  obtain ⟨db, hopen, -⟩ := eq_ok_of_check hopened
  have hset : check (Call.run 1 (.set "k" "v"))
      ⟨⟨∅, [[]], 0, .default, .new none⟩, after (openWithOptions .default) emptyDisk⟩
      (fun _ w' => (SSTable.writeSstable records).toOption.any fun data =>
        decide (FileOp.write (tmpName (sstableFileName 0 0)) data ∈
          (after (Call.run 1 .flush) w').disk.log)) = true := by decide +kernel
  obtain ⟨existed, w', hrun, htest⟩ := exists_of_check hset
  rw [hfile] at htest
  have hwrite := of_decide_eq_true htest
  have hsteps : Run ⟨db, after (openWithOptions .default) emptyDisk⟩
      [⟨.set "k" "v", .returned existed, w'⟩] := by
    rw [open_empty rfl hopen]
    exact .cons (.returned 1 _ _ _ hrun) (.nil w')
  have hiff := (tableWrites_faithful_iff rfl hopen hsteps (by simp) 1 .flush hwrite).2 records hfile
  exact ⟨w', file, hfile, hwrite, hiff.mpr (by decide +kernel)⟩

/-! ## A file that is too large -/

/-- Two values of this size fill a file past the reach of its offsets. -/
theorem not_faithful_of_length [BloomSizing] {v : String} (hlen : (asBytes v).length = 2 ^ 31 - 1) :
    ∃ w₁ w₂ file, set 0 "" v freshHandle = .ok () w₁ ∧ set 0 "a" v w₁ = .ok () w₂ ∧
      .write (tmpName (sstableFileName 0 0)) file ∈ (after (flush 0) w₂).disk.log ∧
      SSTable.writeSstable (w₂.inner.memtable.map toSstEntry) = .ok file ∧
      ¬ SSTable.Faithful (w₂.inner.memtable.map toSstEntry) defaultBlockSize file := by
  have hsum : ∀ key, (asBytes key).length ≤ 1 →
      (WalRecord.set key v).totalLenOverflows = false := by
    intro key hkey
    rw [WalRecord.totalLenOverflows, WalRecord.totalLen, WalRecord.lengths, hlen,
      asU32_of_lt (by omega), asU32_of_lt (by omega), decide_eq_false_iff_not]
    omega
  have hfresh : freshHandle.Quiet := ⟨rfl, rfl⟩
  have hsizes : ∀ v : MemtableEntry, (SortedMap.insert (∅ : SortedMap String MemtableEntry) ""
      v).size < 1024 ∧ ((SortedMap.insert (∅ : SortedMap String MemtableEntry) "" v).insert "a"
        v).size < 1024 := fun v => ⟨show 1 < 1024 by decide, show 2 < 1024 by decide⟩
  have hentries : ∀ v : MemtableEntry, (((SortedMap.insert (∅ : SortedMap String MemtableEntry) ""
      v).insert "a" v).map toSstEntry).entries = [("", toSstEntry v), ("a", toSstEntry v)] :=
    fun v => rfl
  obtain ⟨w₁, hset₁, hquiet₁, hinner₁⟩ := hfresh.set_eq 0 (hsum "" (by decide)) (hsizes _).1
  obtain ⟨w₂, hset₂, hquiet₂, hinner₂⟩ := hquiet₁.set_eq 0 (hsum "a" (by decide))
    (by rw [hinner₁]; exact (hsizes _).2)
  rw [hinner₁] at hinner₂
  obtain ⟨file, hfile, hwrite⟩ := hquiet₂.exists_write_flush 0
    (by rw [hinner₂]; exact fun hnil => by cases congrArg SortedMap.entries hnil)
    (by rw [hinner₂]; exact show 0 + 1 < 2 ^ 64 by decide)
  have hmemtable : w₂.inner.memtable =
      (SortedMap.insert ∅ "" (.value v)).insert "a" (.value v) := by
    rw [hinner₂]
    rfl
  refine ⟨w₁, w₂, file, hset₁, hset₂, ?_, hfile, ?_⟩
  · rw [hinner₂] at hwrite
    exact hwrite
  · rw [SSTable.faithful_iff hfile (by decide), SSTable.frontSize, hmemtable, hentries, not_lt]
    refine le_trans ?_ (Nat.le_add_right _ _)
    simp only [totalSize, List.map_cons, List.map_nil, List.sum_cons, List.sum_nil, recordSize,
      toSstEntry, hlen]
    omega

/-- The largest value shorter than two gibibytes. -/
def largeValue : String := text (2 ^ 31 - 1)

/-- A flush of two such values. -/
theorem not_faithful_largeValues : ∃ w₁ w₂ file, (asBytes largeValue).length < 2 ^ 31 ∧
    @set .ofSmall 0 "" largeValue freshHandle = .ok () w₁ ∧
    @set .ofSmall 0 "a" largeValue w₁ = .ok () w₂ ∧
    .write (tmpName (sstableFileName 0 0)) file ∈ (after (@flush .ofSmall 0) w₂).disk.log ∧
    @SSTable.writeSstable .ofSmall (w₂.inner.memtable.map toSstEntry) = .ok file ∧
    ¬ @SSTable.Faithful .ofSmall (w₂.inner.memtable.map toSstEntry) defaultBlockSize file := by
  have hlen : (asBytes largeValue).length = 2 ^ 31 - 1 := length_text _
  obtain ⟨w₁, w₂, file, hset₁, hset₂, hwrite, hfile, hnot⟩ :=
    @not_faithful_of_length .ofSmall _ hlen
  exact ⟨w₁, w₂, file, by omega, hset₁, hset₂, hwrite, hfile, hnot⟩

end PebbleDB
