import PebbleDB.DbInner
import PebbleDB.SSTableReading
import PebbleDB.Wal

/-!
# A file past four gibibytes

The offsets in the footer of such a file wrap around, so that the reader takes bytes of a value for the
index and the filter (`load_wrapped`). The table loads without an error, but it has no key range and
its filter rejects every key, while its blocks still give records.
-/

namespace PebbleDB

open LittleEndian

namespace SSTable

/-- The filter that the reader finds. No bit of it is set. -/
def hiddenFilter : BloomFilter := .empty 64 1

/-- The bytes of the first value: an index for its own record, with an empty block of key `filler`
behind it, then the filter, filled up. -/
def hiddenOf (filler : String) (padding : Nat) : Bytes :=
  [(⟨"", headerSize, 100⟩ : IndexEntry), ⟨filler, headerSize, 0⟩].flatMap encodeIndexEntry ++
    hiddenFilter.encode ++ List.replicate padding 97

/-- The key of the second value, and a hidden index that is as long as the real one. -/
structure Wrapping where
  second : String
  filler : String
  padding : Nat
  lt_second : "" < second
  length_filler : (asBytes filler).length = (asBytes second).length
  length_padding : (asBytes second).length + padding = 51
  ascii : asBytes (String.ofList ((hiddenOf filler padding).map fun b => Char.ofNat b.toNat)) =
    hiddenOf filler padding

theorem sized_hiddenFilter : hiddenFilter.Sized := ⟨by decide, rfl⟩

namespace Wrapping

/-- The second value has a key of one byte. -/
def short : Wrapping :=
  ⟨"a", "z", 50, by decide, by decide +kernel, by decide +kernel, by decide +kernel⟩

variable (s : Wrapping) {v : String}

/-- The index that the reader finds: the first record, and an empty block behind it. -/
def index : List IndexEntry := [⟨"", headerSize, 100⟩, ⟨s.filler, headerSize, 0⟩]

/-- The bytes of the first value. -/
def bytes : Bytes := hiddenOf s.filler s.padding

/-- They are ASCII. -/
def value : String := String.ofList (s.bytes.map fun b => Char.ofNat b.toNat)

/-- The first value with another one behind it. -/
def records (v : String) : SortedMap String SSTableEntry :=
  (SortedMap.insert ∅ "" (.value s.value)).insert s.second (.value v)

/-- The blocks of these records, if the second value is large. -/
def blocks (v : String) : List Block := [[("", .value s.value)], [(s.second, .value v)]]

/-- The length of the second value behind which the offset of the index wraps around to the first
one. -/
def Wraps (v : String) : Prop := (asBytes s.second).length + (asBytes v).length = 2 ^ 32 - 100

/-- The log takes such a value. -/
theorem Wraps.totalLenOverflows_eq {s : Wrapping} {v : String} (hv : s.Wraps v) :
    (WalRecord.set s.second v).totalLenOverflows = false := by
  have hpadding := s.length_padding
  rw [Wraps] at hv
  rw [WalRecord.totalLenOverflows, decide_eq_false_iff_not, WalRecord.totalLen, WalRecord.lengths,
    asU32_of_lt (by dsimp only; omega), asU32_of_lt (by dsimp only; omega)]
  dsimp only
  omega

theorem asBytes_value : asBytes s.value = s.bytes := s.ascii

theorem entries_records (v : String) :
    (s.records v).entries = [("", .value s.value), (s.second, .value v)] := by
  rw [records, SortedMap.insert_entries_of_forall_lt]
  · rfl
  · intro e he
    rw [List.mem_singleton.mp he]
    exact s.lt_second

theorem length_index_bytes :
    (s.index.flatMap encodeIndexEntry).length = 24 + (asBytes s.second).length := by
  simp only [index, List.flatMap_cons, List.flatMap_nil, List.append_nil, List.length_append,
    length_encodeIndexEntry, s.length_filler]
  have hempty : (asBytes "").length = 0 := by decide
  omega

theorem length_bytes : s.bytes.length = 91 := by
  have hfilter : hiddenFilter.encode.length = 16 := by decide +kernel
  have hpadding := s.length_padding
  have hindex := s.length_index_bytes
  rw [index] at hindex
  rw [bytes, hiddenOf, List.length_append, List.length_append, List.length_replicate, hfilter,
    hindex]
  omega

theorem indexFits : ∀ ie ∈ s.index, IndexFits ie := by
  have hpadding := s.length_padding
  have hfiller := s.length_filler
  intro ie hie
  rcases List.mem_cons.mp hie with rfl | hie
  · exact ⟨by decide, by decide, by decide⟩
  · obtain rfl := List.mem_singleton.mp hie
    exact ⟨by show (asBytes s.filler).length < _; omega, show headerSize < 2 ^ 32 by decide,
      show 0 < 2 ^ 32 by decide⟩

theorem encodeBlock_first : encodeBlock [("", .value s.value)] =
    [sstOpSet] ++ u32ToLe 0 ++ u32ToLe 91 ++ s.bytes := by
  rw [encodeBlock_cons, encodeBlock_nil, List.append_nil, encodeRecord, asBytes_value, length_bytes]
  rfl

theorem length_encodeBlock_first : (encodeBlock [("", .value s.value)]).length = 100 := by
  rw [encodeBlock_first]
  simp only [List.length_append, List.length_singleton, length_u32ToLe, length_bytes]

variable {s}

theorem length_encodeBlock_second (hv : s.Wraps v) :
    (encodeBlock [(s.second, .value v)]).length = 2 ^ 32 - 91 := by
  rw [Wraps] at hv
  rw [encodeBlock_cons, encodeBlock_nil, List.append_nil, length_encodeRecord, valueBytes]
  dsimp only
  omega

theorem cutBlocks_records (hv : s.Wraps v) :
    cutBlocks defaultBlockSize [] (s.records v).entries = s.blocks v := by
  have hsecond := length_encodeBlock_second hv
  rw [encodeBlock_cons, encodeBlock_nil, List.append_nil] at hsecond
  have hfull : defaultBlockSize < (encodeBlock [("", .value s.value)]).length +
      (encodeRecord s.second (.value v)).length := by
    rw [length_encodeBlock_first, hsecond, defaultBlockSize]
    omega
  rw [entries_records, cutBlocks, if_neg (fun h => h.1 rfl), List.nil_append, cutBlocks,
    if_pos ⟨List.cons_ne_nil _ _, hfull⟩, cutBlocks, if_neg (List.cons_ne_nil _ _)]
  rfl

theorem length_body (hv : s.Wraps v) : ((s.blocks v).flatMap encodeBlock).length = 2 ^ 32 + 9 := by
  rw [blocks, List.flatMap_cons, List.flatMap_cons, List.flatMap_nil, List.append_nil,
    List.length_append, length_encodeBlock_first, length_encodeBlock_second hv]
  omega

theorem length_layout (s : Wrapping) (v : String) :
    ((layout headerSize (s.blocks v)).flatMap encodeIndexEntry).length =
      24 + (asBytes s.second).length := by
  have hempty : (asBytes "").length = 0 := by decide
  simp only [blocks, layout, List.flatMap_cons, List.flatMap_nil, List.append_nil,
    List.length_append, length_encodeIndexEntry, headKey, hempty]
  omega

theorem length_sealed_blocks (hv : s.Wraps v) (bloom : BloomFilter) :
    (sealed (s.blocks v) bloom defaultBlockSize).length =
      2 ^ 32 + 73 + (asBytes s.second).length + bloom.encode.length := by
  rw [length_sealed, length_body hv, length_layout, headerSize, footerSize]
  omega

/-- What stands in front of the first value. -/
def front : Bytes := encodeHeader 2 2 defaultBlockSize ++ ([sstOpSet] ++ u32ToLe 0 ++ u32ToLe 91)

theorem length_front : front.length = 29 := by
  simp only [front, encodeHeader, List.length_append, List.length_singleton, length_u32ToLe]

theorem front_start (s : Wrapping) (v : String) (bloom : BloomFilter) :
    front ++ s.bytes <+: sealed (s.blocks v) bloom defaultBlockSize := by
  refine List.IsPrefix.trans ?_ (sections_start.trans unsealed_start)
  rw [blocks, List.flatMap_cons, encodeBlock_first, front]
  simp only [List.append_assoc]
  exact List.prefix_append _ _

/-- The offset of the index wraps around to the first value. -/
theorem slice_index (hv : s.Wraps v) (bloom : BloomFilter) :
    let start := asU32 (headerSize + ((s.blocks v).flatMap encodeBlock).length)
    slice (sealed (s.blocks v) bloom defaultBlockSize) start
        (start + asU32 ((layout headerSize (s.blocks v)).flatMap encodeIndexEntry).length) =
      .ok (s.index.flatMap encodeIndexEntry) := by
  have hpadding := s.length_padding
  have hoffset : asU32 (headerSize + (2 ^ 32 + 9)) = 29 := by decide
  dsimp only
  rw [length_body hv, length_layout, hoffset, asU32_of_lt (by omega)]
  refine slice_of_prefix (List.IsPrefix.trans ?_ (s.front_start v bloom)) length_front.symm ?_
  · rw [bytes, hiddenOf, List.append_assoc, ← List.append_assoc front]
    exact List.prefix_append _ _
  · rw [length_front, length_index_bytes]

/-- And so does that of the filter. -/
theorem slice_filter (hv : s.Wraps v) {bloom : BloomFilter} (hbloom : bloom.Sized)
    (hbits : bloom.numBits < 2 ^ 32) :
    let start := asU32 (bloomOffset (s.blocks v))
    ∃ more, slice (sealed (s.blocks v) bloom defaultBlockSize) start
      (start + asU32 bloom.encode.length) = .ok (hiddenFilter.encode ++ more) := by
  have hpadding := s.length_padding
  have hfilter : hiddenFilter.encode.length = 16 := by decide +kernel
  have hskipped : (front ++ s.index.flatMap encodeIndexEntry).length =
      53 + (asBytes s.second).length := by
    rw [List.length_append, length_front, length_index_bytes]
    omega
  have hoffset : asU32 (bloomOffset (s.blocks v)) = 53 + (asBytes s.second).length := by
    rw [bloomOffset, length_body hv, length_layout, headerSize, asU32]
    omega
  obtain ⟨rest, hfile⟩ := s.front_start v bloom
  have hdrop : (sealed (s.blocks v) bloom defaultBlockSize).drop (53 + (asBytes s.second).length) =
      hiddenFilter.encode ++ (List.replicate s.padding 97 ++ rest) := by
    have hsplit : front ++ s.index.flatMap encodeIndexEntry ++ (hiddenFilter.encode ++
        (List.replicate s.padding 97 ++ rest)) = sealed (s.blocks v) bloom defaultBlockSize := by
      rw [← hfile, bytes, hiddenOf, index]
      simp only [List.append_assoc]
    rw [← hsplit]
    exact List.drop_left' hskipped
  have hsize := length_sealed_blocks hv bloom
  have hlarge := hbloom.le_length_encode
  dsimp only
  rw [hoffset, asU32_of_lt (hbloom.length_encode_lt hbits),
    slice_eq ⟨Nat.le_add_right _ _, by omega⟩, hdrop, Nat.add_sub_cancel_left, List.take_append,
    List.take_of_length_le (by omega)]
  exact ⟨_, rfl⟩

end Wrapping

/-- What the reader makes of the file. -/
structure Misread (sst : SSTable) (s : Wrapping) : Prop where
  index : sst.index = s.index
  bloom : sst.bloom = hiddenFilter
  recordCount : sst.recordCount = 2
  blockCount : sst.blockCount = 2
  lastKey : sst.lastKey = none
  size : 2 ^ 32 < sst.data.length
  readFirst : sst.readBlock 0 = some [("", .value s.value)]
  readSecond : sst.readBlock 1 = some []

section Wrapped

variable {s : Wrapping} {v : String}

theorem misread_parsed (hv : s.Wraps v) (bloom : BloomFilter) (id : Nat) (path : String) :
    Misread ⟨id, path, sealed (s.blocks v) bloom defaultBlockSize, s.index, hiddenFilter, 2, 2,
      none⟩ s := by
  have hsize := Wrapping.length_sealed_blocks hv bloom
  obtain ⟨sst, hsst⟩ : ∃ sst : SSTable, sst = ⟨id, path,
    sealed (s.blocks v) bloom defaultBlockSize, s.index, hiddenFilter, 2, 2, none⟩ := ⟨_, rfl⟩
  have hdata : sst.data = sealed (s.blocks v) bloom defaultBlockSize := by rw [hsst]
  have hindex : sst.index = s.index := by rw [hsst]
  have hfirst : s.index[0]? = some ⟨"", headerSize, 100⟩ := rfl
  have hsecond : s.index[1]? = some ⟨s.filler, headerSize, 0⟩ := rfl
  rw [← hsst]
  refine ⟨hindex, by rw [hsst], by rw [hsst], by rw [hsst], by rw [hsst], by rw [hdata]; omega, ?_,
    ?_⟩
  · have hslice : slice (sealed (s.blocks v) bloom defaultBlockSize) headerSize
        (headerSize + 100) = .ok (encodeBlock [("", .value s.value)]) := by
      have hheader : (encodeHeader 2 2 defaultBlockSize).length = headerSize := by decide +kernel
      have hstart := s.front_start v bloom
      rw [Wrapping.front, List.append_assoc] at hstart
      refine slice_of_prefix (s.encodeBlock_first ▸ hstart) hheader.symm ?_
      rw [hheader, s.length_encodeBlock_first]
    rw [readBlock_eq sst (hindex ▸ hfirst) (hdata ▸ hslice), decodeBlock_encodeBlock]
    rw [s.length_encodeBlock_first]
    decide
  · have hslice : slice (sealed (s.blocks v) bloom defaultBlockSize) headerSize
        (headerSize + 0) = .ok [] := by
      rw [slice_eq ⟨Nat.le_add_right _ _, by rw [headerSize]; omega⟩, Nat.add_sub_cancel_left,
        List.take_zero]
    rw [readBlock_eq sst (hindex ▸ hsecond) (hdata ▸ hslice)]
    rfl

/-- The file loads. -/
theorem load_wrapped [BloomSizing] (hv : s.Wraps v) (id : Nat) (path : String) :
    ∃ file sst, writeSstable (s.records v) = .ok file ∧ load id path file = .ok sst ∧
      sst.Misread s ∧ sst.id = id := by
  obtain ⟨bloom, hwrite, hcovers, hbits, -⟩ :=
    writeSstable_eq_sealed (s.records v) defaultBlockSize
  rw [Wrapping.cutBlocks_records hv] at hwrite
  obtain ⟨more, hmore⟩ := Wrapping.slice_filter hv hcovers.sized hbits
  have hparse := parse_sealed_asU32 id path (Wrapping.slice_index hv bloom)
    (parseIndex_encodeIndex s.indexFits) hmore
    (BloomFilter.decode_append sized_hiddenFilter (by decide) (by decide) more)
  obtain ⟨sst, hsst⟩ : ∃ sst : SSTable, sst = ⟨id, path,
    sealed (s.blocks v) bloom defaultBlockSize, s.index, hiddenFilter, 2, 2, none⟩ := ⟨_, rfl⟩
  have hmisread : sst.Misread s := hsst ▸ misread_parsed hv bloom id path
  -- the last block of the hidden index is empty
  have hderive : sst.deriveLastKey = sst := by
    have hindex : sst.index.length = 2 := by rw [hmisread.index]; rfl
    rw [deriveLastKey, hindex, if_neg (by decide), hmisread.readSecond, hsst]
    rfl
  refine ⟨_, sst, hwrite, ?_, hmisread, by rw [hsst]⟩
  rw [load, hparse, ← hderive, hsst]
  rfl

namespace Misread

/-- A cursor on the hidden record, and at the end of the table. -/
def first (sst : SSTable) (s : Wrapping) : SSTableIterator := ⟨sst, 0, [("", .value s.value)], 0⟩

/-- The cursor in the empty block behind it. -/
def atEnd (sst : SSTable) : SSTableIterator := ⟨sst, 1, [], 0⟩

/-- A cursor over no records. -/
def noRecords : ChildIterator := .memtable (.new ∅)

variable {sst : SSTable} (h : sst.Misread s)
include h

theorem keyRange_eq : sst.keyRange = none := by
  rw [SSTable.keyRange, h.lastKey]
  cases sst.firstKey <;> rfl

theorem mightContain_eq (key : String) : sst.bloom.mightContain key = .ok false := by
  rw [h.bloom]
  exact BloomFilter.mightContain_empty (by decide) (by decide) key

/-- No key is found in the file. -/
theorem get_eq (next : Nat) (options : DbOptions) (fault : FaultInjector) (key : String) :
    DbInner.get ⟨∅, [[sst]], next, options, fault⟩ key = .ok none := by
  show (DbInner.findEntry key [sst] >>= _) = _
  rw [DbInner.findEntry, SSTable.bloomMightContain, h.mightContain_eq]
  rfl

/-- Nothing in the file is up for compaction. -/
theorem levelMetas_eq (level : Nat) : DbInner.levelMetas level [sst] = [] := by
  rw [DbInner.levelMetas, List.filterMap_cons, h.keyRange_eq]
  rfl

theorem entries_eq : sst.entries = SortedMap.ofList [("", .value s.value)] := by
  rw [SSTable.entries, h.index]
  show SortedMap.ofList ([0, 1].flatMap _) = _
  simp only [List.flatMap_cons, List.flatMap_nil, h.readFirst, h.readSecond, Option.getD_some,
    List.append_nil]

theorem seekToFirst_eq : (SSTableIterator.new sst).seekToFirst = .ok (first sst s) := by
  have hload : (SSTableIterator.new sst).loadBlock 0 = first sst s := by
    show (⟨sst, 0, (sst.readBlock 0).getD [], 0⟩ : SSTableIterator) = _
    rw [h.readFirst]
    rfl
  rw [SSTableIterator.seekToFirst, hload]
  rfl

theorem advance_eq : (first sst s).advance = .ok (atEnd sst) := by
  obtain ⟨it, hit⟩ : ∃ it : SSTableIterator, it = { first sst s with index := 1 } := ⟨_, rfl⟩
  have hload : it.loadBlock 1 = atEnd sst := by
    rw [hit, SSTableIterator.loadBlock]
    show (⟨sst, 1, (sst.readBlock 1).getD [], 0⟩ : SSTableIterator) = _
    rw [h.readSecond]
    rfl
  have hcount : it.sst.blockCount = 2 ∧ (atEnd sst).sst.blockCount = 2 := by
    rw [hit]
    exact ⟨h.blockCount, h.blockCount⟩
  have hensure : it.ensureEntry = .ok (false, atEnd sst) := by
    rw [SSTableIterator.ensureEntry, hcount.1, SSTableIterator.ensureEntryLoop,
      if_pos (by rw [hit]; exact le_rfl), if_neg (by rw [hcount.1, hit]; exact (by decide : ¬ 2 ≤ 1)),
      show it.block + 1 = 1 by rw [hit]; rfl, hload, SSTableIterator.ensureEntryLoop]
    exact (if_pos (Nat.zero_le _)).trans (if_pos hcount.2.le)
  show (SSTableIterator.ensureEntry { first sst s with index := 1 } >>= _) = _
  rw [← hit, hensure]
  rfl

theorem merge_new : MergeIterator.new [noRecords, .sstable (.new sst)] =
    .ok ⟨[noRecords, .sstable (first sst s)], some ⟨"", 1⟩, false⟩ := by
  have hfirst : StorageIterator.seekToFirst (ChildIterator.sstable (.new sst)) =
      .ok (ChildIterator.sstable (first sst s)) := by
    show ((SSTableIterator.new sst).seekToFirst).map _ = _
    rw [h.seekToFirst_eq]
    rfl
  have hnone : StorageIterator.seekToFirst noRecords = .ok noRecords ∧
      StorageIterator.key noRecords = none := ⟨rfl, rfl⟩
  have hkey : StorageIterator.key (ChildIterator.sstable (first sst s)) = some "" := rfl
  have hvalue : StorageIterator.value (ChildIterator.sstable (first sst s)) = some s.value := rfl
  simp only [MergeIterator.new, MergeIterator.build, MergeIterator.moveAll, hfirst, hnone,
    MergeIterator.normalize, MergeIterator.normalizeLoop, MergeIterator.smallest,
    MergeIterator.smallestLoop, hkey, MergeIterator.childValue, hvalue, bind, Except.bind, pure,
    Except.pure, List.getElem?_cons_succ, List.getElem?_cons_zero, Option.isSome_some, Bool.or_true,
    if_true, Nat.zero_add]

theorem merge_advance :
    MergeIterator.advance ⟨[noRecords, .sstable (first sst s)], some ⟨"", 1⟩, false⟩ =
      .ok ⟨[noRecords, .sstable (atEnd sst)], none, false⟩ := by
  have hadvance : StorageIterator.advance (ChildIterator.sstable (first sst s)) =
      .ok (ChildIterator.sstable (atEnd sst)) := by
    show ((first sst s).advance).map _ = _
    rw [h.advance_eq]
    rfl
  have hnone : StorageIterator.key noRecords = none := rfl
  have hkey : StorageIterator.key (ChildIterator.sstable (first sst s)) = some "" := rfl
  have hend : StorageIterator.key (ChildIterator.sstable (atEnd sst)) = none := rfl
  simp only [MergeIterator.advance, MergeIterator.skipKey, MergeIterator.skipKeyLoop,
    MergeIterator.skipChild, hnone, hkey, hadvance, MergeIterator.normalize,
    MergeIterator.normalizeLoop, MergeIterator.smallest, MergeIterator.smallestLoop, hend, bind,
    Except.bind, pure, Except.pure, if_true, reduceCtorEq, if_false]

/-- The hidden record is in the range of all keys. -/
theorem range_eq (next : Nat) (options : DbOptions) (fault : FaultInjector) :
    DbInner.range ⟨∅, [[sst]], next, options, fault⟩ .unbounded .unbounded =
      .ok [("", s.value)] := by
  obtain ⟨it, hit⟩ : ∃ it : RangeIterator ChildIterator,
      it = ⟨⟨[noRecords, .sstable (first sst s)], some ⟨"", 1⟩, false⟩, .unbounded⟩ := ⟨_, rfl⟩
  obtain ⟨last, hlast⟩ : ∃ it : RangeIterator ChildIterator,
      it = ⟨⟨[noRecords, .sstable (atEnd sst)], none, false⟩, .unbounded⟩ := ⟨_, rfl⟩
  have hnext : it.next = .ok (some ("", s.value), last) := by
    have hvalid : it.valid = true := by rw [hit]; rfl
    have hkey : it.key = some "" := by rw [hit]; rfl
    have hvalue : it.value = some s.value := by rw [hit]; rfl
    have hadvance : it.advance = .ok last := by
      rw [RangeIterator.advance, hit, h.merge_advance, hlast]
      rfl
    simp only [RangeIterator.next, hvalid, if_true, hkey, hvalue, hadvance, bind, Except.bind, pure,
      Except.pure]
  have hstop : RangeIterator.collectLoop 2 last = .ok [] := by rw [hlast]; rfl
  have hbound : it.bound = 2 := by
    rw [hit]
    show 0 + (sst.recordCount + 0) = 2
    rw [h.recordCount]
  show ((MergeIterator.new [noRecords, ChildIterator.sstable (.new sst)] >>= fun merged =>
    RangeIterator.new merged .unbounded .unbounded) >>= fun it => it.collect) = _
  rw [h.merge_new]
  show RangeIterator.collect ⟨_, _⟩ = _
  rw [← hit, RangeIterator.collect, hbound, RangeIterator.collectLoop, hnext]
  simp only [bind, Except.bind, hstop, pure, Except.pure]

end Misread

end Wrapped

end SSTable

/-- The value behind which the offsets wrap around. -/
def wrappingValue : String := text (2 ^ 32 - 101)

theorem wraps_wrappingValue : SSTable.Wrapping.short.Wraps wrappingValue := by
  have hkey : (asBytes SSTable.Wrapping.short.second).length = 1 := by decide +kernel
  have hlen : (asBytes wrappingValue).length = 2 ^ 32 - 101 := length_text _
  rw [SSTable.Wrapping.Wraps, hkey, hlen]
  decide

end PebbleDB
