import PebbleDB.SSTable

/-!
# Writing a table

What the writer puts into a file is a function of the blocks it cuts the records into
(`SSTable.sealed`); `TableWriter.Inv` follows its loop. Records, blocks and the index are read back
as they were encoded.
-/

namespace PebbleDB

open LittleEndian

namespace SSTable

/-! ## Records and blocks -/

/-- The bytes of a block. -/
def encodeBlock (block : Block) : Bytes := block.flatMap fun r => encodeRecord r.1 r.2

/-- The key of the first record. -/
def headKey : Block → String
  | [] => ""
  | r :: _ => r.1

@[simp] theorem encodeBlock_nil : encodeBlock [] = [] := rfl

@[simp] theorem encodeBlock_cons (r : String × SSTableEntry) (block : Block) :
    encodeBlock (r :: block) = encodeRecord r.1 r.2 ++ encodeBlock block := rfl

@[simp] theorem encodeBlock_append (b c : Block) :
    encodeBlock (b ++ c) = encodeBlock b ++ encodeBlock c := by
  simp [encodeBlock]

/-- The bytes of the value of an entry. -/
def valueBytes : SSTableEntry → Bytes
  | .value v => asBytes v
  | .tombstone => []

/-- The op byte of an entry. -/
def entryOp : SSTableEntry → UInt8
  | .value _ => sstOpSet
  | .tombstone => sstOpDelete

theorem encodeRecord_eq (key : String) (entry : SSTableEntry) :
    encodeRecord key entry = [entryOp entry] ++ u32ToLe (asBytes key).length ++
      u32ToLe (valueBytes entry).length ++ asBytes key ++ valueBytes entry := by
  cases entry <;> rfl

theorem length_encodeRecord (key : String) (entry : SSTableEntry) :
    (encodeRecord key entry).length = 9 + (asBytes key).length + (valueBytes entry).length := by
  simp only [encodeRecord_eq, List.length_append, List.length_singleton, length_u32ToLe]

theorem length_le_encodeBlock (block : Block) : 9 * block.length ≤ (encodeBlock block).length := by
  induction block with
  | nil => simp
  | cons r block ih =>
    simp only [encodeBlock_cons, List.length_append, List.length_cons, length_encodeRecord]
    omega

theorem encodeBlock_ne_nil {block : Block} (h : block ≠ []) : encodeBlock block ≠ [] := by
  have hle := length_le_encodeBlock block
  have hpos := List.length_pos_iff.mpr h
  intro hnil
  rw [hnil, List.length_nil] at hle
  omega

theorem decodeEntry_eq (entry : SSTableEntry) (before more : Bytes) {o : Nat}
    (hoff : o = before.length) :
    decodeEntry (entryOp entry) (before ++ valueBytes entry ++ more) o (valueBytes entry).length =
      .ok entry := by
  cases entry with
  | value v =>
    rw [decodeEntry, slice_append hoff (by simp [hoff])]
    simp only [entryOp, if_true, valueBytes, bind, Except.bind, fromUtf8_asBytes]
    rfl
  | tombstone => rfl

/-- One turn of `decode_block` at a record the writer encoded. -/
theorem decodeBlockLoop_encodeRecord (fuel : Nat) (key : String) (entry : SSTableEntry)
    (more : Bytes) (h : (encodeRecord key entry).length < 2 ^ 32) :
    decodeBlockLoop (fuel + 1) (encodeRecord key entry ++ more) =
      (decodeBlockLoop fuel more).map ((key, entry) :: ·) := by
  have hlen := length_encodeRecord key entry
  rw [hlen] at h
  have hkeyLen : readU32 (encodeRecord key entry ++ more) 1 = .ok (asBytes key).length := by
    have := readU32_append (a := [entryOp entry]) (n := (asBytes key).length)
      (c := u32ToLe (valueBytes entry).length ++ asBytes key ++ valueBytes entry ++ more)
      (by omega) (o := 1) rfl
    simpa [encodeRecord_eq] using this
  have hvalueLen : readU32 (encodeRecord key entry ++ more) 5 =
      .ok (valueBytes entry).length := by
    have := readU32_append (a := [entryOp entry] ++ u32ToLe (asBytes key).length)
      (n := (valueBytes entry).length) (c := asBytes key ++ valueBytes entry ++ more)
      (by omega) (o := 5) (by simp)
    simpa [encodeRecord_eq] using this
  have hkey : slice (encodeRecord key entry ++ more) 9 (9 + (asBytes key).length) =
      .ok (asBytes key) := by
    have := slice_append (a := [entryOp entry] ++ u32ToLe (asBytes key).length ++
      u32ToLe (valueBytes entry).length) (b := asBytes key) (c := valueBytes entry ++ more)
      (s := 9) (t := 9 + (asBytes key).length) (by simp) (by simp)
    simpa [encodeRecord_eq] using this
  have hentry : decodeEntry (entryOp entry) (encodeRecord key entry ++ more)
      (9 + (asBytes key).length) (valueBytes entry).length = .ok entry := by
    have := decodeEntry_eq entry ([entryOp entry] ++ u32ToLe (asBytes key).length ++
      u32ToLe (valueBytes entry).length ++ asBytes key) more
      (o := 9 + (asBytes key).length) (by simp; omega)
    rwa [← encodeRecord_eq] at this
  have hop : byteAt (encodeRecord key entry ++ more) 0 = .ok (entryOp entry) := by
    rw [encodeRecord_eq]
    rfl
  have hdrop : (encodeRecord key entry ++ more).drop
      (9 + (asBytes key).length + (valueBytes entry).length) = more := by
    rw [← hlen, List.drop_left]
  rw [decodeBlockLoop, if_neg (by rw [List.length_append]; omega), hop, hkeyLen, hvalueLen]
  simp only [bind, Except.bind]
  rw [if_neg (by rw [List.length_append]; omega), hkey]
  simp only [fromUtf8_asBytes, hentry, hdrop]
  cases decodeBlockLoop fuel more <;> rfl

theorem decodeBlockLoop_encodeBlock {block : Block} (h : (encodeBlock block).length < 2 ^ 32)
    {fuel : Nat} (hfuel : block.length < fuel) :
    decodeBlockLoop fuel (encodeBlock block) = .ok block := by
  induction block generalizing fuel with
  | nil =>
    obtain ⟨fuel, rfl⟩ := Nat.exists_eq_succ_of_ne_zero (Nat.ne_of_gt hfuel)
    rfl
  | cons r block ih =>
    obtain ⟨fuel, rfl⟩ := Nat.exists_eq_succ_of_ne_zero (Nat.ne_of_gt (Nat.zero_lt_of_lt hfuel))
    simp only [encodeBlock_cons, List.length_append, List.length_cons] at h hfuel
    rw [encodeBlock_cons, decodeBlockLoop_encodeRecord _ _ _ _ (by omega),
      ih (by omega) (by omega)]
    rfl

theorem decodeBlock_encodeBlock {block : Block} (h : (encodeBlock block).length < 2 ^ 32) :
    decodeBlock (encodeBlock block) = .ok block := by
  have := length_le_encodeBlock block
  exact decodeBlockLoop_encodeBlock h (by omega)

/-! ## The index -/

theorem length_encodeIndexEntry (ie : IndexEntry) :
    (encodeIndexEntry ie).length = 12 + (asBytes ie.firstKey).length := by
  simp only [encodeIndexEntry, List.length_append, length_u32ToLe]
  omega

/-- The numbers of an index entry fit their fields. -/
structure IndexFits (ie : IndexEntry) : Prop where
  key : (asBytes ie.firstKey).length < 2 ^ 32
  offset : ie.blockOffset < 2 ^ 32
  size : ie.blockSize < 2 ^ 32

/-- One turn of `parse_index` at an entry the writer encoded. -/
theorem parseIndexLoop_encodeIndexEntry (fuel : Nat) {ie : IndexEntry} (h : IndexFits ie)
    (more : Bytes) :
    parseIndexLoop (fuel + 1) (encodeIndexEntry ie ++ more) =
      (parseIndexLoop fuel more).map (ie :: ·) := by
  have hlen := length_encodeIndexEntry ie
  have hkeyLen : readU32 (encodeIndexEntry ie ++ more) 0 = .ok (asBytes ie.firstKey).length := by
    have := readU32_append (a := []) (n := (asBytes ie.firstKey).length)
      (c := asBytes ie.firstKey ++ u32ToLe ie.blockOffset ++ u32ToLe ie.blockSize ++ more)
      h.key (o := 0) rfl
    simpa [encodeIndexEntry] using this
  have hkey : slice (encodeIndexEntry ie ++ more) 4 (4 + (asBytes ie.firstKey).length) =
      .ok (asBytes ie.firstKey) := by
    have := slice_append (a := u32ToLe (asBytes ie.firstKey).length) (b := asBytes ie.firstKey)
      (c := u32ToLe ie.blockOffset ++ u32ToLe ie.blockSize ++ more)
      (s := 4) (t := 4 + (asBytes ie.firstKey).length) (by simp) (by simp)
    simpa [encodeIndexEntry] using this
  have hoffset : readU32 (encodeIndexEntry ie ++ more) (4 + (asBytes ie.firstKey).length) =
      .ok ie.blockOffset := by
    have := readU32_append (a := u32ToLe (asBytes ie.firstKey).length ++ asBytes ie.firstKey)
      (n := ie.blockOffset) (c := u32ToLe ie.blockSize ++ more) h.offset
      (o := 4 + (asBytes ie.firstKey).length) (by simp)
    simpa [encodeIndexEntry] using this
  have hsize : readU32 (encodeIndexEntry ie ++ more) (4 + (asBytes ie.firstKey).length + 4) =
      .ok ie.blockSize := by
    have := readU32_append (a := u32ToLe (asBytes ie.firstKey).length ++ asBytes ie.firstKey ++
      u32ToLe ie.blockOffset) (n := ie.blockSize) (c := more) h.size
      (o := 4 + (asBytes ie.firstKey).length + 4) (by simp; omega)
    simpa [encodeIndexEntry] using this
  have hdrop : (encodeIndexEntry ie ++ more).drop (4 + (asBytes ie.firstKey).length + 8) = more := by
    have : 4 + (asBytes ie.firstKey).length + 8 = (encodeIndexEntry ie).length := by omega
    rw [this, List.drop_left]
  rw [parseIndexLoop, if_neg (by rw [List.length_append]; omega), hkeyLen]
  simp only [bind, Except.bind]
  rw [if_neg (by rw [List.length_append]; omega), hkey]
  simp only [fromUtf8_asBytes, hoffset, hsize, hdrop]
  cases parseIndexLoop fuel more <;> rfl

theorem length_le_encodeIndex (index : List IndexEntry) :
    index.length ≤ (index.flatMap encodeIndexEntry).length := by
  induction index with
  | nil => simp
  | cons ie index ih =>
    simp only [List.flatMap_cons, List.length_append, List.length_cons, length_encodeIndexEntry]
    omega

theorem parseIndex_encodeIndex {index : List IndexEntry} (h : ∀ ie ∈ index, IndexFits ie) :
    parseIndex (index.flatMap encodeIndexEntry) = .ok index := by
  have hloop : ∀ fuel, index.length < fuel →
      parseIndexLoop fuel (index.flatMap encodeIndexEntry) = .ok index := by
    induction index with
    | nil =>
      intro fuel hfuel
      obtain ⟨fuel, rfl⟩ := Nat.exists_eq_succ_of_ne_zero (Nat.ne_of_gt hfuel)
      rfl
    | cons ie index ih =>
      intro fuel hfuel
      obtain ⟨fuel, rfl⟩ := Nat.exists_eq_succ_of_ne_zero (Nat.ne_of_gt (Nat.zero_lt_of_lt hfuel))
      rw [List.length_cons] at hfuel
      rw [List.flatMap_cons, parseIndexLoop_encodeIndexEntry _ (h ie List.mem_cons_self),
        ih (fun ie hie => h ie (List.mem_cons_of_mem _ hie)) fuel (by omega)]
      rfl
  have := length_le_encodeIndex index
  exact hloop _ (by omega)

/-- The index of consecutive blocks, the first of them at `off`. -/
def layout (off : Nat) : List Block → List IndexEntry
  | [] => []
  | block :: blocks =>
    ⟨headKey block, asU32 off, asU32 (encodeBlock block).length⟩ ::
      layout (off + (encodeBlock block).length) blocks

@[simp] theorem length_layout (off : Nat) (blocks : List Block) :
    (layout off blocks).length = blocks.length := by
  induction blocks generalizing off with
  | nil => rfl
  | cons b blocks ih => simp [layout, ih]

theorem layout_append (off : Nat) (blocks more : List Block) :
    layout off (blocks ++ more) =
      layout off blocks ++ layout (off + (blocks.flatMap encodeBlock).length) more := by
  induction blocks generalizing off with
  | nil => simp [layout]
  | cons b blocks ih =>
    simp only [List.cons_append, layout, ih, List.flatMap_cons, List.length_append, Nat.add_assoc]

theorem firstKey_layout (off : Nat) (blocks : List Block) :
    (layout off blocks).map IndexEntry.firstKey = blocks.map headKey := by
  induction blocks generalizing off with
  | nil => rfl
  | cons b blocks ih => simp [layout, ih]

/-! ## The writer -/

/-- The records behind the block `cur`, cut into blocks: a block ends before the record with which it
would grow past `blockSize`. -/
def cutBlocks (blockSize : Nat) : Block → Block → List Block
  | cur, [] => if cur = [] then [] else [cur]
  | cur, r :: rest =>
    if cur ≠ [] ∧ blockSize < (encodeBlock cur).length + (encodeRecord r.1 r.2).length then
      cur :: cutBlocks blockSize [r] rest
    else cutBlocks blockSize (cur ++ [r]) rest

theorem flatten_cutBlocks (blockSize : Nat) (cur records : Block) :
    (cutBlocks blockSize cur records).flatten = cur ++ records := by
  induction records generalizing cur with
  | nil =>
    rw [cutBlocks]
    split
    · rename_i hcur
      rw [hcur]
      rfl
    · simp
  | cons r records ih =>
    rw [cutBlocks]
    split
    · simp [ih]
    · simp [ih]

theorem cutBlocks_ne_nil (blockSize : Nat) (cur records : Block) :
    ∀ block ∈ cutBlocks blockSize cur records, block ≠ [] := by
  induction records generalizing cur with
  | nil =>
    intro block hblock
    rw [cutBlocks] at hblock
    split at hblock
    · exact absurd hblock List.not_mem_nil
    · rwa [List.mem_singleton.mp hblock]
  | cons r records ih =>
    intro block hblock
    rw [cutBlocks] at hblock
    split at hblock
    · rename_i hcur
      rcases List.mem_cons.mp hblock with rfl | hblock
      · exact hcur.1
      · exact ih _ block hblock
    · exact ih _ block hblock

/-- The loop of the writer after some records: the finished blocks are `done`, the records of the
current one are `cur`. -/
structure TableWriter.Inv (w : TableWriter) (done : List Block)
    (cur : Block) : Prop where
  fileBuf : w.fileBuf = List.replicate headerSize 0 ++ done.flatMap encodeBlock
  blocks : w.blocks = done.map encodeBlock
  index : w.indexEntries = layout headerSize done
  current : w.currentBlock = encodeBlock cur
  first : w.currentBlockFirstKey = cur.head?.map Prod.fst
  nonempty : ∀ block ∈ done, block ≠ []

theorem TableWriter.Inv.finishBlock {w : TableWriter} {done : List Block} {cur : Block}
    (h : w.Inv done cur) (hcur : cur ≠ []) :
    ∃ w', w.finishBlock = .ok w' ∧ w'.Inv (done ++ [cur]) [] := by
  obtain ⟨r, rest, rfl⟩ := List.exists_cons_of_ne_nil hcur
  have hfirst : w.currentBlockFirstKey = some r.1 := h.first
  refine ⟨_, by rw [TableWriter.finishBlock, hfirst], ?_⟩
  constructor
  · simp [h.fileBuf, h.current]
  · simp [h.blocks, h.current]
  · rw [layout_append, h.index, h.fileBuf, h.current]
    simp [layout, headKey]
  · rfl
  · rfl
  · intro block hblock
    rcases List.mem_append.mp hblock with hblock | hblock
    · exact h.nonempty block hblock
    · rw [List.mem_singleton.mp hblock]
      exact hcur

/-- Putting a record behind the current block. -/
theorem TableWriter.Inv.push {w : TableWriter} {done : List Block} {cur : Block}
    (h : w.Inv done cur) {key : String} {entry : SSTableEntry} {f : Option String}
    (hfirst : f = (cur ++ [(key, entry)]).head?.map Prod.fst) :
    TableWriter.Inv { w with
      currentBlock := w.currentBlock ++ encodeRecord key entry
      currentBlockFirstKey := f } done (cur ++ [(key, entry)]) := by
  constructor
  · exact h.fileBuf
  · exact h.blocks
  · exact h.index
  · simp [h.current]
  · exact hfirst
  · exact h.nonempty

/-- A turn of the loop leaves the blocks that are still to come as they are. -/
theorem TableWriter.Inv.addRecord {w : TableWriter} {done : List Block} {cur : Block}
    (h : w.Inv done cur) (blockSize : Nat) (key : String) (entry : SSTableEntry) (rest : Block) :
    ∃ w' done' cur', w.addRecord blockSize key entry = .ok w' ∧ w'.Inv done' cur' ∧
      done' ++ cutBlocks blockSize cur' rest =
        done ++ cutBlocks blockSize cur ((key, entry) :: rest) := by
  have hcurrent : w.currentBlock ≠ [] ↔ cur ≠ [] := by
    rw [h.current]
    refine ⟨fun hne hnil => hne (by rw [hnil]; rfl), encodeBlock_ne_nil⟩
  by_cases hsplit : w.currentBlock ≠ [] ∧
      blockSize < w.currentBlock.length + (encodeRecord key entry).length
  · have hcur := hcurrent.mp hsplit.1
    obtain ⟨w', hw', hinv⟩ := h.finishBlock hcur
    refine ⟨_, done ++ [cur], [(key, entry)], ?_, hinv.push (f := some key) rfl, ?_⟩
    · rw [TableWriter.addRecord, if_pos hsplit]
      simp only [bind, Except.bind, hw', pure, Except.pure]
      rfl
    · rw [cutBlocks, if_pos ⟨hcur, h.current ▸ hsplit.2⟩, List.append_assoc]
      rfl
  · refine ⟨_, done, cur ++ [(key, entry)], ?_,
      h.push (f := if w.currentBlockFirstKey.isNone then some key
        else w.currentBlockFirstKey) ?_, ?_⟩
    · rw [TableWriter.addRecord, if_neg hsplit]
      simp only [bind, Except.bind, pure, Except.pure]
      split <;> rfl
    · rw [h.first]
      cases cur <;> rfl
    · rw [hcurrent, h.current] at hsplit
      rw [cutBlocks, if_neg hsplit]

theorem TableWriter.Inv.addRecords {w : TableWriter} {done : List Block} {cur : Block}
    (h : w.Inv done cur) (blockSize : Nat) (records : Block) :
    ∃ w' done' cur', TableWriter.addRecords blockSize records w = .ok w' ∧ w'.Inv done' cur' ∧
      done' ++ cutBlocks blockSize cur' [] = done ++ cutBlocks blockSize cur records := by
  induction records generalizing w done cur with
  | nil => exact ⟨w, done, cur, rfl, h, rfl⟩
  | cons r records ih =>
    obtain ⟨w1, done1, cur1, hw1, hinv1, heq1⟩ := h.addRecord blockSize r.1 r.2 records
    obtain ⟨w2, done2, cur2, hw2, hinv2, heq2⟩ := ih hinv1
    refine ⟨w2, done2, cur2, ?_, hinv2, heq2.trans heq1⟩
    rw [TableWriter.addRecords, hw1]
    exact hw2

theorem TableWriter.Inv.finishLast {w : TableWriter} {done : List Block} {cur : Block}
    (h : w.Inv done cur) (blockSize : Nat) :
    ∃ w', w.finishLast = .ok w' ∧ w'.Inv (done ++ cutBlocks blockSize cur []) [] := by
  rw [cutBlocks]
  by_cases hcur : cur = []
  · subst hcur
    rw [if_pos rfl, List.append_nil]
    exact ⟨w, if_neg (by simp [h.current]), h⟩
  · obtain ⟨w', hw', hinv'⟩ := h.finishBlock hcur
    rw [if_neg hcur]
    refine ⟨w', ?_, hinv'⟩
    rw [TableWriter.finishLast, if_pos (by rw [h.current]; exact encodeBlock_ne_nil hcur), hw']

/-- The writer after the loop: all blocks are finished. -/
theorem TableWriter.inv_blocks (records : Block) (blockSize : Nat) :
    ∃ w₁ w₂, TableWriter.addRecords blockSize records
        ⟨List.replicate headerSize 0, [], [], [], none⟩ = .ok w₁ ∧
      w₁.finishLast = .ok w₂ ∧ w₂.Inv (cutBlocks blockSize [] records) [] := by
  have hstart : TableWriter.Inv ⟨List.replicate headerSize 0, [], [], [], none⟩ [] [] :=
    ⟨by simp, rfl, rfl, rfl, rfl, by simp⟩
  obtain ⟨w₁, done, cur, hw₁, hinv, heq⟩ := hstart.addRecords blockSize records
  obtain ⟨w₂, hw₂, hinv₂⟩ := hinv.finishLast blockSize
  rw [heq, List.nil_append] at hinv₂
  exact ⟨w₁, w₂, hw₁, hw₂, hinv₂⟩

/-- The file of the given blocks, up to the checksum. -/
def unsealed (blocks : List Block) (bloom : BloomFilter) (blockSize : Nat) : Bytes :=
  let body := blocks.flatMap encodeBlock
  let index := (layout headerSize blocks).flatMap encodeIndexEntry
  encodeHeader blocks.flatten.length blocks.length blockSize ++ body ++ index ++ bloom.encode ++
    (u32ToLe (headerSize + body.length) ++ u32ToLe index.length ++
      u32ToLe (headerSize + body.length + index.length) ++ u32ToLe bloom.encode.length)

/-- The file of the given blocks. -/
def sealed (blocks : List Block) (bloom : BloomFilter) (blockSize : Nat) : Bytes :=
  unsealed blocks bloom blockSize ++ u32ToLe (crc32 (unsealed blocks bloom blockSize))

/-- What the writer writes. -/
theorem writeSstable_eq_sealed [BloomSizing] (entries : SortedMap String SSTableEntry)
    (blockSize : Nat) :
    ∃ bloom, writeSstableWithBlockSize entries blockSize =
        .ok (sealed (cutBlocks blockSize [] entries.entries) bloom blockSize) ∧
      bloom.Covers entries.keys ∧ bloom.numBits < 2 ^ 32 ∧ bloom.numHashes < 2 ^ 32 := by
  obtain ⟨bloom, hbloom, hcovers, hbits, hhashes⟩ := BloomFilter.fromEntries_eq entries.keys
  obtain ⟨w, w', hw, hw', hinv⟩ := TableWriter.inv_blocks entries.entries blockSize
  refine ⟨bloom, ?_, hcovers, hbits, hhashes⟩
  have hdrop : ∀ more : Bytes, (List.replicate headerSize 0 ++ more).drop headerSize = more :=
    fun more => List.drop_left' (by simp)
  rw [writeSstableWithBlockSize, hbloom]
  simp only [bind, Except.bind, hw, hw']
  simp only [hinv.fileBuf, hinv.blocks, hinv.index, List.append_assoc, hdrop, sealed, unsealed,
    flatten_cutBlocks, List.nil_append, SortedMap.size, List.length_map, List.length_append,
    List.length_replicate, Nat.add_assoc, pure, Except.pure]

end SSTable

end PebbleDB
