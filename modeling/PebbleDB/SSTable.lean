import PebbleDB.Bloom
import PebbleDB.Lib.SortedMap

/-!
# Table files

The writer and the reader of `src/sstable.rs`: a header, blocks of records, a sparse index with
the first key of each block, a bloom filter, a footer and a checksum. A loaded table keeps the
whole file (`data`) and reads its blocks out of it on demand.
-/

namespace PebbleDB

open LittleEndian

/-- `MAGIC`, the first number of a table file. -/
def magic : Nat := 0x50454242
/-- `VERSION`, the second. -/
def version : Nat := 2
/-- `OP_SET`, the first byte of a record with a value. -/
def sstOpSet : UInt8 := 1
/-- `OP_DELETE`, that of a tombstone. -/
def sstOpDelete : UInt8 := 2
/-- `HEADER_SIZE`: five numbers of four bytes. -/
def headerSize : Nat := 20
/-- `FOOTER_SIZE`: four numbers and the checksum. -/
def footerSize : Nat := 20
/-- `DEFAULT_BLOCK_SIZE`: a block is closed before a further record takes it past this. -/
def defaultBlockSize : Nat := 4096

/-- `SSTableEntry`: a table keeps tombstones, to hide the key in older ones. -/
inductive SSTableEntry where
  | value (v : String)
  | tombstone
  deriving DecidableEq, Repr

/-- `IndexEntry`: where a block lies in the file, and its first key. -/
structure IndexEntry where
  firstKey : String
  blockOffset : Nat
  blockSize : Nat
  deriving DecidableEq, Repr

/-- `SSTable`: the file in memory with what `parse` has taken from it. -/
structure SSTable where
  id : Nat
  path : String
  data : Bytes
  index : List IndexEntry
  bloom : BloomFilter
  recordCount : Nat
  blockCount : Nat
  lastKey : Option String
  deriving DecidableEq

/-- The decoded records of a block, in file order. -/
abbrev Block := List (String × SSTableEntry)

/-- `Err(PebbleError::SSTableCorruption(msg))` -/
abbrev sstErr {α : Type} (msg : String) : Res α := err (.sstableCorruption msg)

namespace SSTable

/-! ## Reading -/

/-- The loop of `parse_index` on the bytes not yet consumed; `offset + 8 <= data.len()` says that
at least eight are left. -/
def parseIndexLoop : Nat → Bytes → Res (List IndexEntry)
  | 0, _ => .error .outOfFuel
  | fuel + 1, rest => do
    if rest.length < 8 then
      return []
    else
      let keyLen ← readU32 rest 0
      if rest.length < 4 + keyLen + 8 then
        sstErr "truncated index key"
      else
        let keyBytes ← slice rest 4 (4 + keyLen)
        match fromUtf8 keyBytes with
        | none => sstErr "invalid UTF-8 in index key"
        | some firstKey =>
          let blockOffset ← readU32 rest (4 + keyLen)
          let blockSize ← readU32 rest (4 + keyLen + 4)
          let index ← parseIndexLoop fuel (rest.drop (4 + keyLen + 8))
          return ⟨firstKey, blockOffset, blockSize⟩ :: index

/-- `SSTable::parse_index` -/
def parseIndex (data : Bytes) : Res (List IndexEntry) := parseIndexLoop (data.length + 1) data

/-- The `match op` of `decode_block`, on a value of `valueLen` bytes at `off`. -/
def decodeEntry (op : UInt8) (rest : Bytes) (off valueLen : Nat) : Res SSTableEntry :=
  if op = sstOpSet then do
    let valueBytes ← slice rest off (off + valueLen)
    match fromUtf8 valueBytes with
    | none => sstErr "invalid UTF-8 in value"
    | some value => return .value value
  else if op = sstOpDelete then
    return .tombstone
  else
    sstErr ("unknown op: " ++ toString op.toNat)

/-- The loop of `decode_block` on the bytes not yet consumed. -/
def decodeBlockLoop : Nat → Bytes → Res Block
  | 0, _ => .error .outOfFuel
  | fuel + 1, rest => do
    if rest.length < 9 then
      return []
    else
      let op ← byteAt rest 0
      let keyLen ← readU32 rest 1
      let valueLen ← readU32 rest 5
      if rest.length < 9 + keyLen + valueLen then
        sstErr "truncated block record"
      else
        let keyBytes ← slice rest 9 (9 + keyLen)
        match fromUtf8 keyBytes with
        | none => sstErr "invalid UTF-8 in key"
        | some key =>
          let entry ← decodeEntry op rest (9 + keyLen) valueLen
          let records ← decodeBlockLoop fuel (rest.drop (9 + keyLen + valueLen))
          return (key, entry) :: records

/-- `SSTable::decode_block` -/
def decodeBlock (data : Bytes) : Res Block := decodeBlockLoop (data.length + 1) data

/-- `SSTable::parse` -/
def parse (id : Nat) (path : String) (data : Bytes) : Res SSTable := do
  if data.length < headerSize + footerSize then
    sstErr "file too short"
  else
    let fileMagic ← readU32 data 0
    if fileMagic ≠ magic then
      sstErr "invalid magic number"
    else
      let fileVersion ← readU32 data 4
      if fileVersion ≠ version then
        sstErr ("unsupported version: " ++ toString fileVersion)
      else
        let recordCount ← readU32 data 8
        let blockCount ← readU32 data 12
        let footerStart := data.length - footerSize
        let indexOffset ← readU32 data footerStart
        let indexSize ← readU32 data (footerStart + 4)
        let bloomOffset ← readU32 data (footerStart + 8)
        let bloomSize ← readU32 data (footerStart + 12)
        let checksumStored ← readU32 data (footerStart + 16)
        let covered ← slice data 0 (data.length - 4)
        if checksumStored ≠ crc32 covered then
          sstErr "checksum mismatch"
        else
          let indexData ← slice data indexOffset (indexOffset + indexSize)
          let index ← parseIndex indexData
          let bloomData ← slice data bloomOffset (bloomOffset + bloomSize)
          let decoded ← BloomFilter.decode bloomData
          match decoded with
          | none => sstErr "invalid bloom filter"
          | some bloom => return ⟨id, path, data, index, bloom, recordCount, blockCount, none⟩

/-- `SSTable::read_block`: an unreadable block reads as none. -/
def readBlock (sst : SSTable) (idx : Nat) : Option Block :=
  match sst.index[idx]? with
  | none => none
  | some entry =>
    let start := entry.blockOffset
    let stop := start + entry.blockSize
    if sst.data.length < stop then none
    else
      match slice sst.data start stop with
      | .error _ => none
      | .ok bytes =>
        match decodeBlock bytes with
        | .ok block => some block
        | .error _ => none

/-- `SSTable::derive_last_key` -/
def deriveLastKey (sst : SSTable) : SSTable :=
  if sst.index.length = 0 then sst
  else
    { sst with
      lastKey := (sst.readBlock (sst.index.length - 1)).bind fun block =>
        block.getLast?.map Prod.fst }

/-- `SSTable::load` of a file with the given content. -/
def load (id : Nat) (path : String) (data : Bytes) : Res SSTable := do
  let sst ← parse id path data
  return sst.deriveLastKey

/-- The loop of `find_block`: entries are numbered from `i`, `result` is the last hit. -/
def findBlockLoop (key : String) : List IndexEntry → Nat → Nat → Nat
  | [], _, result => result
  | entry :: index, i, result =>
    if entry.firstKey ≤ key then findBlockLoop key index (i + 1) i else result

/-- `SSTable::find_block` -/
def findBlock (sst : SSTable) (key : String) : Option Nat :=
  some (findBlockLoop key sst.index 0 0)

/-- The scan of `get` over one block. -/
def scanBlock (key : String) : Block → Option SSTableEntry
  | [] => none
  | (k, entry) :: block =>
    if k = key then some entry else if key < k then none else scanBlock key block

/-- `SSTable::get` -/
def get (sst : SSTable) (key : String) : Res (Option SSTableEntry) := do
  let maybe ← sst.bloom.mightContain key
  if maybe then
    return (sst.findBlock key).bind fun idx => (sst.readBlock idx).bind (scanBlock key)
  else
    return none

/-- `SSTable::bloom_might_contain` -/
def bloomMightContain (sst : SSTable) (key : String) : Res Bool := sst.bloom.mightContain key

/-- `SSTable::file_size` -/
def fileSize (sst : SSTable) : Nat := sst.data.length

/-- `SSTable::entries` -/
def entries (sst : SSTable) : SortedMap String SSTableEntry :=
  SortedMap.ofList
    ((List.range sst.index.length).flatMap fun idx => (sst.readBlock idx).getD [])

/-- `SSTable::first_key` -/
def firstKey (sst : SSTable) : Option String := sst.index.head?.map IndexEntry.firstKey

/-- `SSTable::key_range` -/
def keyRange (sst : SSTable) : Option (String × String) :=
  match sst.firstKey, sst.lastKey with
  | some first, some last => some (first, last)
  | _, _ => none

/-! ## Writing -/

/-- The bytes of a record, as `write_sstable_with_block_size` puts them together. -/
def encodeRecord (key : String) (entry : SSTableEntry) : Bytes :=
  match entry with
  | .value v =>
    [sstOpSet] ++ u32ToLe (asBytes key).length ++ u32ToLe (asBytes v).length ++ asBytes key ++
      asBytes v
  | .tombstone =>
    [sstOpDelete] ++ u32ToLe (asBytes key).length ++ u32ToLe 0 ++ asBytes key ++ []

/-- The local variables of `write_sstable_with_block_size` inside its loop. -/
structure TableWriter where
  fileBuf : Bytes
  blocks : List Bytes
  indexEntries : List IndexEntry
  currentBlock : Bytes
  currentBlockFirstKey : Option String

/-- Ends the current block; `current_block_first_key.take().unwrap()` panics without a key. -/
def TableWriter.finishBlock (w : TableWriter) : Res TableWriter :=
  match w.currentBlockFirstKey with
  | none => .error .panic
  | some firstKey => .ok
    { fileBuf := w.fileBuf ++ w.currentBlock
      blocks := w.blocks ++ [w.currentBlock]
      indexEntries := w.indexEntries ++
        [⟨firstKey, asU32 w.fileBuf.length, asU32 w.currentBlock.length⟩]
      currentBlock := []
      currentBlockFirstKey := none }

/-- The last block, after the loop. -/
def TableWriter.finishLast (w : TableWriter) : Res TableWriter :=
  if w.currentBlock ≠ [] then w.finishBlock else .ok w

/-- One turn of the loop over the entries. -/
def TableWriter.addRecord (blockSize : Nat) (w : TableWriter) (key : String)
    (entry : SSTableEntry) : Res TableWriter := do
  let record := encodeRecord key entry
  let w ←
    if w.currentBlock ≠ [] ∧ blockSize < w.currentBlock.length + record.length then do
      let w ← w.finishBlock
      pure { w with currentBlockFirstKey := some key }
    else
      pure w
  let w := if w.currentBlockFirstKey.isNone then { w with currentBlockFirstKey := some key } else w
  return { w with currentBlock := w.currentBlock ++ record }

/-- The loop of `write_sstable_with_block_size` over the records. -/
def TableWriter.addRecords (blockSize : Nat) : Block → TableWriter → Res TableWriter
  | [], w => .ok w
  | (key, entry) :: rest, w => do
    let w ← w.addRecord blockSize key entry
    addRecords blockSize rest w

/-- The bytes of an entry of the index. -/
def encodeIndexEntry (ie : IndexEntry) : Bytes :=
  u32ToLe (asBytes ie.firstKey).length ++ asBytes ie.firstKey ++ u32ToLe ie.blockOffset ++
    u32ToLe ie.blockSize

/-- The header fields written over the placeholder at the start of the file. -/
def encodeHeader (recordCount blockCount blockSize : Nat) : Bytes :=
  u32ToLe magic ++ u32ToLe version ++ u32ToLe recordCount ++ u32ToLe blockCount ++
    u32ToLe blockSize

/-- `SSTable::write_sstable_with_block_size`: the bytes it writes to its path. -/
def writeSstableWithBlockSize [BloomSizing] (entries : SortedMap String SSTableEntry)
    (blockSize : Nat) : Res Bytes := do
  let bloom ← BloomFilter.fromEntries entries.keys
  let w ← TableWriter.addRecords blockSize entries.entries
    { fileBuf := List.replicate headerSize 0, blocks := [], indexEntries := [],
      currentBlock := [], currentBlockFirstKey := none }
  let w ← w.finishLast
  let indexData := w.indexEntries.flatMap encodeIndexEntry
  let indexOffset := w.fileBuf.length
  let fileBuf := w.fileBuf ++ indexData
  let bloomEncoded := bloom.encode
  let bloomOffset := fileBuf.length
  let fileBuf := fileBuf ++ bloomEncoded
  let fileBuf := fileBuf ++ u32ToLe indexOffset ++ u32ToLe indexData.length ++
    u32ToLe bloomOffset ++ u32ToLe bloomEncoded.length
  let fileBuf := encodeHeader entries.size w.blocks.length blockSize ++ fileBuf.drop headerSize
  return fileBuf ++ u32ToLe (crc32 fileBuf)

/-- `write_sstable` -/
def writeSstable [BloomSizing] (entries : SortedMap String SSTableEntry) : Res Bytes :=
  writeSstableWithBlockSize entries defaultBlockSize

end SSTable

end PebbleDB
