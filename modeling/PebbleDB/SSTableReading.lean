import PebbleDB.SSTableFormat

/-!
# Reading a table back

The reader finds the blocks of a written file again through the index, as long as the numbers that
the writer casts to `u32` fit. `SSTable.Stores` says what a loaded table offers for a list of
blocks; everything the reader answers is derived from it alone, so that the modules above do not
look into the format. `SSTable.load_writeSstable` is the round trip.
-/

namespace PebbleDB

open LittleEndian

namespace SSTable

/-! ## Header and footer -/

section Sealed

variable {blocks : List Block} {bloom : BloomFilter} {blockSize : Nat}

/-- Where the filter starts: every other length and offset of the file is at most this. -/
def bloomOffset (blocks : List Block) : Nat :=
  headerSize + (blocks.flatMap encodeBlock).length +
    ((layout headerSize blocks).flatMap encodeIndexEntry).length

theorem length_unsealed :
    (unsealed blocks bloom blockSize).length =
      headerSize + (blocks.flatMap encodeBlock).length +
        ((layout headerSize blocks).flatMap encodeIndexEntry).length + bloom.encode.length + 16 := by
  simp only [unsealed, encodeHeader, List.length_append, length_u32ToLe, headerSize]

theorem length_sealed :
    (sealed blocks bloom blockSize).length =
      headerSize + (blocks.flatMap encodeBlock).length +
        ((layout headerSize blocks).flatMap encodeIndexEntry).length + bloom.encode.length +
        footerSize := by
  rw [sealed, List.length_append, length_unsealed, length_u32ToLe, footerSize]

theorem length_flatten_le (blocks : List Block) :
    9 * blocks.flatten.length ≤ (blocks.flatMap encodeBlock).length := by
  induction blocks with
  | nil => simp
  | cons b blocks ih =>
    have := length_le_encodeBlock b
    simp only [List.flatten_cons, List.flatMap_cons, List.length_append] at ih ⊢
    omega

theorem length_le_flatten {blocks : List Block} (h : ∀ block ∈ blocks, block ≠ []) :
    blocks.length ≤ blocks.flatten.length := by
  induction blocks with
  | nil => simp
  | cons b blocks ih =>
    have hb := List.length_pos_iff.mpr (h b List.mem_cons_self)
    have := ih fun c hc => h c (List.mem_cons_of_mem _ hc)
    simp only [List.flatten_cons, List.length_append, List.length_cons]
    omega

/-- The sections of the file in front of the footer. -/
theorem sections_start :
    encodeHeader blocks.flatten.length blocks.length blockSize ++ blocks.flatMap encodeBlock ++
      (layout headerSize blocks).flatMap encodeIndexEntry ++ bloom.encode <+:
      unsealed blocks bloom blockSize := List.prefix_append _ _

theorem unsealed_start : unsealed blocks bloom blockSize <+: sealed blocks bloom blockSize :=
  List.prefix_append _ _

theorem readU32_header :
    readU32 (sealed blocks bloom blockSize) 0 = .ok magic ∧
      readU32 (sealed blocks bloom blockSize) 4 = .ok version ∧
      readU32 (sealed blocks bloom blockSize) 8 = .ok (asU32 blocks.flatten.length) ∧
      readU32 (sealed blocks bloom blockSize) 12 = .ok (asU32 blocks.length) := by
  have hheader : encodeHeader blocks.flatten.length blocks.length blockSize <+:
      sealed blocks bloom blockSize := by
    refine List.IsPrefix.trans ?_ (sections_start.trans unsealed_start)
    simp only [List.append_assoc]
    exact List.prefix_append _ _
  refine ⟨?_, ?_, ?_, ?_⟩
  · exact readU32_of_prefix (a := [])
      (List.IsPrefix.trans (by simp [encodeHeader]) hheader) (by decide) rfl
  · exact readU32_of_prefix (a := u32ToLe magic)
      (List.IsPrefix.trans (by simp [encodeHeader]) hheader) (by decide) (by simp)
  · exact readU32_asU32 (a := u32ToLe magic ++ u32ToLe version)
      (List.IsPrefix.trans (by simp [encodeHeader]) hheader) (by simp)
  · exact readU32_asU32 (a := u32ToLe magic ++ u32ToLe version ++
      u32ToLe blocks.flatten.length)
      (List.IsPrefix.trans (by simp [encodeHeader]) hheader) (by simp)

/-- The footer: where the index and the filter are, after the casts, and the checksum. -/
theorem readU32_footer :
    let indexOffset := headerSize + (blocks.flatMap encodeBlock).length
    let indexSize := ((layout headerSize blocks).flatMap encodeIndexEntry).length
    let footerStart := (sealed blocks bloom blockSize).length - footerSize
    readU32 (sealed blocks bloom blockSize) footerStart = .ok (asU32 indexOffset) ∧
      readU32 (sealed blocks bloom blockSize) (footerStart + 4) = .ok (asU32 indexSize) ∧
      readU32 (sealed blocks bloom blockSize) (footerStart + 8) =
        .ok (asU32 (indexOffset + indexSize)) ∧
      readU32 (sealed blocks bloom blockSize) (footerStart + 12) =
        .ok (asU32 bloom.encode.length) ∧
      readU32 (sealed blocks bloom blockSize) (footerStart + 16) =
        .ok (crc32 (unsealed blocks bloom blockSize)) := by
  intro indexOffset indexSize footerStart
  have hlen : (sealed blocks bloom blockSize).length = _ := length_sealed
  obtain ⟨sections, hsections, hstart⟩ : ∃ sections, unsealed blocks bloom blockSize =
      sections ++ (u32ToLe indexOffset ++ u32ToLe indexSize ++
        u32ToLe (indexOffset + indexSize) ++ u32ToLe bloom.encode.length) ∧
      sections.length = footerStart := by
    refine ⟨_, rfl, ?_⟩
    simp only [footerStart, hlen, encodeHeader, List.length_append, length_u32ToLe, headerSize,
      footerSize]
    omega
  have hfile : sealed blocks bloom blockSize = sections ++ (u32ToLe indexOffset ++
      u32ToLe indexSize ++ u32ToLe (indexOffset + indexSize) ++ u32ToLe bloom.encode.length) ++
      u32ToLe (crc32 (unsealed blocks bloom blockSize)) := by
    rw [sealed, ← hsections]
  have hcrc := crc32_lt (unsealed blocks bloom blockSize)
  generalize crc32 (unsealed blocks bloom blockSize) = crc at *
  rw [hfile]
  refine ⟨?_, ?_, ?_, ?_, ?_⟩
  · exact readU32_asU32 (a := sections) (by simp) hstart.symm
  · exact readU32_asU32 (a := sections ++ u32ToLe indexOffset) (by simp) (by simp [hstart])
  · exact readU32_asU32 (a := sections ++ u32ToLe indexOffset ++ u32ToLe indexSize) (by simp)
      (by simp [hstart])
  · exact readU32_asU32 (a := sections ++ u32ToLe indexOffset ++ u32ToLe indexSize ++
      u32ToLe (indexOffset + indexSize)) (by simp) (by simp [hstart])
  · exact readU32_of_prefix (a := sections ++ u32ToLe indexOffset ++ u32ToLe indexSize ++
      u32ToLe (indexOffset + indexSize) ++ u32ToLe bloom.encode.length) (by simp) hcrc
      (by simp [hstart])

theorem length_block_le {block : Block} (h : block ∈ blocks) :
    (encodeBlock block).length ≤ (blocks.flatMap encodeBlock).length := by
  obtain ⟨before, after, rfl⟩ := List.append_of_mem h
  simp only [List.flatMap_append, List.flatMap_cons, List.length_append]
  omega

theorem length_headKey_le (block : Block) :
    (asBytes (headKey block)).length ≤ (encodeBlock block).length := by
  cases block with
  | nil => decide
  | cons r block =>
    simp only [headKey, encodeBlock_cons, List.length_append, length_encodeRecord]
    omega

theorem indexFits_layout (off : Nat) (h : ∀ block ∈ blocks, (encodeBlock block).length < 2 ^ 32) :
    ∀ ie ∈ layout off blocks, IndexFits ie := by
  induction blocks generalizing off with
  | nil => simp [layout]
  | cons b blocks ih =>
    have hb := h b List.mem_cons_self
    have hkey := length_headKey_le b
    intro ie hie
    rcases List.mem_cons.mp hie with rfl | hie
    · exact ⟨Nat.lt_of_le_of_lt hkey hb, asU32_lt _, asU32_lt _⟩
    · exact ih _ (fun c hc => h c (List.mem_cons_of_mem _ hc)) ie hie

end Sealed

/-- What a loaded table offers for the blocks it was written with. -/
structure Stores (sst : SSTable) (blocks : List Block) : Prop where
  nonempty : ∀ block ∈ blocks, block ≠ []
  sorted : SortedMap.Raw.Sorted blocks.flatten
  firstKeys : sst.index.map IndexEntry.firstKey = blocks.map headKey
  readBlock : ∀ idx, sst.readBlock idx = blocks[idx]?
  recordCount : sst.recordCount = blocks.flatten.length
  blockCount : sst.blockCount = blocks.length
  lastKey : sst.lastKey = blocks.flatten.getLast?.map Prod.fst
  bloom : sst.bloom.Covers (blocks.flatten.map Prod.fst)

/-- The table parsed from the file of the given blocks. -/
def parsed (id : Nat) (path : String) (blocks : List Block) (bloom : BloomFilter)
    (blockSize : Nat) : SSTable :=
  ⟨id, path, sealed blocks bloom blockSize, layout headerSize blocks, bloom,
    blocks.flatten.length, blocks.length, none⟩

section Parsed

variable {blocks : List Block} {bloom : BloomFilter} {blockSize : Nat}

/-- Every check of `parse` passed. -/
theorem parse_eq {id : Nat} {path : String} {data indexData bloomData covered : Bytes}
    {recordCount blockCount indexOffset indexSize bloomOffset bloomSize : Nat}
    {index : List IndexEntry} {bloom : BloomFilter} (hlen : headerSize + footerSize ≤ data.length)
    (hmagic : readU32 data 0 = .ok magic) (hversion : readU32 data 4 = .ok version)
    (hrecords : readU32 data 8 = .ok recordCount) (hblocks : readU32 data 12 = .ok blockCount)
    (hio : readU32 data (data.length - footerSize) = .ok indexOffset)
    (his : readU32 data (data.length - footerSize + 4) = .ok indexSize)
    (hbo : readU32 data (data.length - footerSize + 8) = .ok bloomOffset)
    (hbs : readU32 data (data.length - footerSize + 12) = .ok bloomSize)
    (hcrc : readU32 data (data.length - footerSize + 16) = .ok (crc32 covered))
    (hcovered : slice data 0 (data.length - 4) = .ok covered)
    (hindexData : slice data indexOffset (indexOffset + indexSize) = .ok indexData)
    (hindex : parseIndex indexData = .ok index)
    (hbloomData : slice data bloomOffset (bloomOffset + bloomSize) = .ok bloomData)
    (hbloom : BloomFilter.decode bloomData = .ok (some bloom)) :
    parse id path data = .ok ⟨id, path, data, index, bloom, recordCount, blockCount, none⟩ := by
  rw [parse, if_neg (Nat.not_lt.mpr hlen), hmagic]
  simp only [bind, Except.bind, ne_eq, not_true_eq_false, if_false, hversion, hrecords, hblocks,
    hio, his, hbo, hbs, hcrc, hcovered, hindexData, hindex, hbloomData, hbloom, pure, Except.pure]

/-- A block that lies inside the file. -/
theorem readBlock_eq (sst : SSTable) {idx : Nat} {entry : IndexEntry} {bytes : Bytes}
    (hentry : sst.index[idx]? = some entry)
    (hslice : slice sst.data entry.blockOffset (entry.blockOffset + entry.blockSize) = .ok bytes) :
    sst.readBlock idx = match decodeBlock bytes with
      | .ok block => some block
      | .error _ => none := by
  have hle : entry.blockOffset + entry.blockSize ≤ sst.data.length := by
    by_contra hlt
    rw [slice, if_neg (fun h => hlt h.2)] at hslice
    cases hslice
  rw [SSTable.readBlock, hentry]
  dsimp only
  rw [if_neg (Nat.not_lt.mpr hle)]
  cases hdecode : decodeBlock bytes with
  | ok block => simp only [hslice, hdecode]
  | error e => simp only [hslice, hdecode]

/-- A written file parses by what stands at the places that its offsets give after the casts. -/
theorem parse_sealed_asU32 (id : Nat) (path : String) {indexData bloomData : Bytes}
    {index : List IndexEntry} {found : BloomFilter}
    (hindexData : let start := asU32 (headerSize + (blocks.flatMap encodeBlock).length)
      slice (sealed blocks bloom blockSize) start
        (start + asU32 ((layout headerSize blocks).flatMap encodeIndexEntry).length) = .ok indexData)
    (hindex : parseIndex indexData = .ok index)
    (hbloomData : let start := asU32 (bloomOffset blocks)
      slice (sealed blocks bloom blockSize) start (start + asU32 bloom.encode.length) =
        .ok bloomData)
    (hfound : BloomFilter.decode bloomData = .ok (some found)) :
    parse id path (sealed blocks bloom blockSize) =
      .ok ⟨id, path, sealed blocks bloom blockSize, index, found, asU32 blocks.flatten.length,
        asU32 blocks.length, none⟩ := by
  have hlen : (sealed blocks bloom blockSize).length = _ := length_sealed
  obtain ⟨hmagic, hversion, hrecords, hblocks⟩ := @readU32_header blocks bloom blockSize
  obtain ⟨hio, his, hbo, hbs, hcrc⟩ := @readU32_footer blocks bloom blockSize
  have hcovered : slice (sealed blocks bloom blockSize) 0
      ((sealed blocks bloom blockSize).length - 4) = .ok (unsealed blocks bloom blockSize) := by
    have hprefix : [] ++ unsealed blocks bloom blockSize <+: sealed blocks bloom blockSize := by
      rw [List.nil_append]
      exact unsealed_start
    refine slice_of_prefix hprefix rfl ?_
    rw [sealed, List.length_append, length_u32ToLe, List.length_nil]
    omega
  exact parse_eq (by omega) hmagic hversion hrecords hblocks hio his hbo hbs hcrc hcovered
    hindexData hindex hbloomData hfound

theorem parse_sealed (id : Nat) (path : String) (h : bloomOffset blocks < 2 ^ 32)
    (hne : ∀ block ∈ blocks, block ≠ [])
    (hbloom : bloom.Sized) (hbits : bloom.numBits < 2 ^ 32) (hhashes : bloom.numHashes < 2 ^ 32) :
    parse id path (sealed blocks bloom blockSize) = .ok (parsed id path blocks bloom blockSize) := by
  have hencoded := hbloom.length_encode_lt hbits
  have hoffset := h
  unfold bloomOffset at hoffset
  have hheader : (encodeHeader blocks.flatten.length blocks.length blockSize).length =
      headerSize := by
    simp only [encodeHeader, List.length_append, length_u32ToLe, headerSize]
  have hsealed : unsealed blocks bloom blockSize <+: sealed blocks bloom blockSize :=
    unsealed_start
  have hindex := slice_of_prefix
    (a := encodeHeader blocks.flatten.length blocks.length blockSize ++ blocks.flatMap encodeBlock)
    (b := (layout headerSize blocks).flatMap encodeIndexEntry)
    (((List.prefix_append _ _).trans sections_start).trans hsealed) (s := headerSize + (blocks.flatMap encodeBlock).length)
    (t := headerSize + (blocks.flatMap encodeBlock).length +
      ((layout headerSize blocks).flatMap encodeIndexEntry).length)
    (by rw [List.length_append, hheader]) (by rw [List.length_append, hheader])
  have hfilter := slice_of_prefix (sections_start.trans hsealed)
    (s := bloomOffset blocks) (t := bloomOffset blocks + bloom.encode.length)
    (by rw [List.length_append, List.length_append, hheader, bloomOffset])
    (by rw [List.length_append, List.length_append, hheader, bloomOffset])
  have hfits : ∀ block ∈ blocks, (encodeBlock block).length < 2 ^ 32 := by
    intro block hblock
    have := length_block_le hblock
    omega
  have hrecords := length_flatten_le blocks
  have hblocks := length_le_flatten hne
  rw [parse_sealed_asU32 id path
    (by rw [asU32_of_lt (by omega), asU32_of_lt (by omega)]; exact hindex)
    (parseIndex_encodeIndex (indexFits_layout headerSize hfits))
    (by rw [asU32_of_lt h, asU32_of_lt hencoded]; exact hfilter)
    (BloomFilter.decode_encode hbloom hbits hhashes), asU32_of_lt (by omega),
    asU32_of_lt (by omega), parsed]

/-- The reader finds each block at the place the index gives. -/
theorem readBlock_parsed (id : Nat) (path : String) (h : bloomOffset blocks < 2 ^ 32) (idx : Nat) :
    (parsed id path blocks bloom blockSize).readBlock idx = blocks[idx]? := by
  unfold bloomOffset at h
  by_cases hidx : idx < blocks.length
  · obtain ⟨before, block, after, hsplit, hbefore⟩ : ∃ before block after,
        blocks = before ++ block :: after ∧ before.length = idx :=
      ⟨blocks.take idx, blocks[idx], blocks.drop (idx + 1), by simp, by simp; omega⟩
    subst hbefore
    have hentry : (layout headerSize blocks)[before.length]? =
        some ⟨headKey block, asU32 (headerSize + (before.flatMap encodeBlock).length),
          asU32 (encodeBlock block).length⟩ := by
      rw [hsplit, layout_append, List.getElem?_append_right (by simp)]
      simp [layout]
    have hbody : (blocks.flatMap encodeBlock).length =
        (before.flatMap encodeBlock).length + (encodeBlock block).length +
          (after.flatMap encodeBlock).length := by
      rw [hsplit]
      simp only [List.flatMap_append, List.flatMap_cons, List.length_append]
      omega
    have hslice : slice (sealed blocks bloom blockSize)
        (headerSize + (before.flatMap encodeBlock).length)
        (headerSize + (before.flatMap encodeBlock).length + (encodeBlock block).length) =
        .ok (encodeBlock block) := by
      refine slice_of_prefix
        (a := encodeHeader blocks.flatten.length blocks.length blockSize ++
          before.flatMap encodeBlock) ?_ ?_ ?_
      · refine List.IsPrefix.trans ?_ (sections_start.trans unsealed_start)
        have hmid : blocks.flatMap encodeBlock = before.flatMap encodeBlock ++
            (encodeBlock block ++ after.flatMap encodeBlock) := by
          rw [hsplit]
          simp
        rw [hmid]
        simp only [List.append_assoc, List.prefix_append_right_inj]
        exact List.prefix_append _ _
      · simp only [encodeHeader, List.length_append, length_u32ToLe, headerSize]
      · simp only [encodeHeader, List.length_append, length_u32ToLe, headerSize]
    rw [asU32_of_lt (by omega), asU32_of_lt (by omega)] at hentry
    rw [readBlock_eq (parsed id path blocks bloom blockSize) hentry hslice,
      decodeBlock_encodeBlock (by omega)]
    simp [hsplit]
  · rw [SSTable.readBlock]
    simp only [parsed]
    rw [List.getElem?_eq_none (by simpa using hidx), List.getElem?_eq_none (by simpa using hidx)]

/-- The last record of the last block is the last record of all. -/
theorem getLast?_lastBlock (hne : ∀ block ∈ blocks, block ≠ []) :
    (blocks[blocks.length - 1]?.bind fun block => block.getLast?.map Prod.fst) =
      blocks.flatten.getLast?.map Prod.fst := by
  rcases List.eq_nil_or_concat blocks with rfl | ⟨before, block, rfl⟩
  · rfl
  · obtain ⟨last, hlast⟩ : ∃ last, block.getLast? = some last :=
      Option.ne_none_iff_exists'.mp (mt List.getLast?_eq_none_iff.mp (hne block (by simp)))
    simp [List.getLast?_append, hlast]

theorem deriveLastKey_eq {sst : SSTable} (hlen : sst.index.length = blocks.length)
    (hne : ∀ block ∈ blocks, block ≠ []) (hread : ∀ idx, sst.readBlock idx = blocks[idx]?)
    (hnone : sst.lastKey = none) :
    sst.deriveLastKey = { sst with lastKey := blocks.flatten.getLast?.map Prod.fst } := by
  rw [deriveLastKey]
  split
  · rename_i hzero
    have hnil : blocks = [] := List.length_eq_zero_iff.mp (hlen ▸ hzero)
    subst hnil
    obtain ⟨id, path, data, index, bloom, records, count, last⟩ := sst
    subst hnone
    rfl
  · rw [hread, hlen, getLast?_lastBlock hne]

theorem stores_deriveLastKey (id : Nat) (path : String) (h : bloomOffset blocks < 2 ^ 32)
    (hne : ∀ block ∈ blocks, block ≠ [])
    (hsorted : SortedMap.Raw.Sorted blocks.flatten)
    (hbloom : bloom.Covers (blocks.flatten.map Prod.fst)) :
    Stores (parsed id path blocks bloom blockSize).deriveLastKey blocks := by
  have hread : ∀ idx, (parsed id path blocks bloom blockSize).readBlock idx = blocks[idx]? :=
    readBlock_parsed id path h
  rw [deriveLastKey_eq (by simp [parsed]) hne hread rfl]
  exact ⟨hne, hsorted, firstKey_layout _ _, hread, rfl, rfl, rfl, hbloom⟩

end Parsed

/-! ## What a stored table answers -/

namespace Stores

variable {sst : SSTable} {blocks : List Block}

theorem length_index (h : sst.Stores blocks) : sst.index.length = blocks.length := by
  simpa using congrArg List.length h.firstKeys

/-- The first key of a block is the least key from there on. -/
theorem headKey_le {block : Block} {after : List Block} (hne : block ≠ [])
    (hs : SortedMap.Raw.Sorted (block :: after).flatten) :
    ∀ r ∈ (block :: after).flatten, headKey block ≤ r.1 := by
  obtain ⟨first, rest, rfl⟩ := List.exists_cons_of_ne_nil hne
  intro r hr
  rw [List.flatten_cons, List.cons_append] at hs hr
  rcases List.mem_cons.mp hr with rfl | hr
  · exact le_rfl
  · exact (hs.head_lt r hr).le

/-- The loop of `find_block`, standing at `block` with only smaller keys before it. -/
theorem findBlockLoop_eq {key : String} {index : List IndexEntry} {before after : List Block}
    {block : Block} (hne : ∀ b ∈ before ++ block :: after, b ≠ [])
    (hs : SortedMap.Raw.Sorted (before ++ block :: after).flatten)
    (hindex : index.map IndexEntry.firstKey = after.map headKey)
    (hbefore : ∀ r ∈ before.flatten, r.1 < key) :
    ∃ before' block' after', before ++ block :: after = before' ++ block' :: after' ∧
      findBlockLoop key index (before.length + 1) before.length = before'.length ∧
      (∀ r ∈ before'.flatten, r.1 < key) ∧ (∀ r ∈ after'.flatten, key < r.1) := by
  induction after generalizing before block index with
  | nil =>
    rw [List.map_nil, List.map_eq_nil_iff] at hindex
    subst hindex
    exact ⟨before, block, [], rfl, rfl, hbefore, by simp⟩
  | cons next after ih =>
    obtain ⟨entry, index, rfl⟩ := List.exists_cons_of_ne_nil
      (show index ≠ [] by rintro rfl; simp at hindex)
    rw [List.map_cons, List.map_cons, List.cons.injEq] at hindex
    obtain ⟨hfirst, hindex⟩ := hindex
    have hnext : next ≠ [] := hne next (by simp)
    have hs' := hs
    rw [List.flatten_append, List.flatten_cons] at hs'
    have hle := headKey_le hnext hs'.append_right.append_right
    rw [findBlockLoop, hfirst]
    split
    · rename_i hkey
      have hmoved : before ++ block :: next :: after = (before ++ [block]) ++ next :: after := by
        simp
      rw [hmoved] at hne hs ⊢
      have hsmaller : ∀ r ∈ (before ++ [block]).flatten, r.1 < key := by
        intro r hr
        rw [List.flatten_append, List.mem_append] at hr
        rcases hr with hr | hr
        · exact hbefore r hr
        · -- the next block starts above every record of this one
          obtain ⟨first, rest, rfl⟩ := List.exists_cons_of_ne_nil hnext
          have hlt : r.1 < first.1 :=
            hs'.append_right.append_lt r (by simpa using hr) first (by simp)
          exact lt_of_lt_of_le hlt hkey
      have := ih hne hs hindex hsmaller
      rwa [List.length_append, List.length_singleton] at this
    · rename_i hkey
      exact ⟨before, block, next :: after, rfl, rfl, hbefore,
        fun r hr => lt_of_lt_of_le (not_le.mp hkey) (hle r hr)⟩

/-- `find_block` finds the only block that can hold the key. -/
theorem findBlock_eq (h : sst.Stores blocks) (key : String) :
    (blocks = [] ∧ sst.findBlock key = some 0) ∨
      ∃ before block after, blocks = before ++ block :: after ∧
        sst.findBlock key = some before.length ∧ (∀ r ∈ before.flatten, r.1 < key) ∧
        (∀ r ∈ after.flatten, key < r.1) := by
  have hfirst := h.firstKeys
  rw [SSTable.findBlock]
  cases blocks with
  | nil =>
    rw [List.map_nil, List.map_eq_nil_iff] at hfirst
    exact Or.inl ⟨rfl, by rw [hfirst]; rfl⟩
  | cons block after =>
    right
    obtain ⟨entry, index, hindex⟩ := List.exists_cons_of_ne_nil
      (show sst.index ≠ [] by intro hnil; simp [hnil] at hfirst)
    rw [hindex, List.map_cons, List.map_cons, List.cons.injEq] at hfirst
    obtain ⟨before', block', after', heq, hloop, hlt, hgt⟩ := @findBlockLoop_eq key index []
      after block h.nonempty h.sorted hfirst.2 (by simp)
    refine ⟨before', block', after', heq, ?_, hlt, hgt⟩
    -- the first turn leaves the result at zero either way
    rw [hindex, findBlockLoop]
    split
    · rw [← hloop]
      rfl
    · rename_i hkey
      rw [hfirst.1, not_le] at hkey
      have hmin := headKey_le (h.nonempty block (by simp)) h.sorted
      cases before' with
      | nil => rfl
      | cons b before' =>
        have hb : b = block := by simpa using (congrArg List.head? heq).symm
        subst hb
        obtain ⟨r, rest, hr⟩ := List.exists_cons_of_ne_nil (h.nonempty b (by simp))
        have hmem : r ∈ (b :: before').flatten := by simp [hr]
        have := hlt r hmem
        simp only [headKey, hr] at hkey
        exact absurd this (not_lt.mpr hkey.le)

theorem scanBlock_eq (key : String) {block : Block} (hs : SortedMap.Raw.Sorted block) :
    scanBlock key block = SortedMap.Raw.lookup key block := by
  induction block with
  | nil => rfl
  | cons r block ih =>
    rw [scanBlock, SortedMap.Raw.lookup]
    by_cases hkey : r.1 = key
    · rw [if_pos hkey, if_pos hkey.symm]
    · rw [if_neg hkey, if_neg (Ne.symm hkey)]
      split
      · rename_i hlt
        symm
        exact SortedMap.Raw.lookup_eq_none_iff.mpr fun a ha => ne_of_gt (hlt.trans (hs.head_lt a ha))
      · exact ih hs.of_cons

theorem get_eq (h : sst.Stores blocks) (key : String) :
    sst.get key = .ok (SortedMap.Raw.lookup key blocks.flatten) := by
  obtain ⟨found, hfound, hcovers⟩ := h.bloom.mightContain_eq key
  rw [SSTable.get, hfound]
  simp only [bind, Except.bind]
  by_cases hf : found = true
  · rw [if_pos hf]
    rcases h.findBlock_eq key with ⟨hnil, hblock⟩ | ⟨before, block, after, hsplit, hblock, hlt, hgt⟩
    · subst hnil
      simp [hblock, h.readBlock, SortedMap.Raw.lookup, pure, Except.pure]
    · have hsorted := h.sorted
      rw [hsplit, List.flatten_append, List.flatten_cons] at hsorted
      have hblocks : blocks[before.length]? = some block := by simp [hsplit]
      have hbefore : SortedMap.Raw.lookup key before.flatten = none :=
        SortedMap.Raw.lookup_eq_none_iff.mpr fun r hr => ne_of_lt (hlt r hr)
      have hafter : SortedMap.Raw.lookup key after.flatten = none :=
        SortedMap.Raw.lookup_eq_none_iff.mpr fun r hr => ne_of_gt (hgt r hr)
      simp only [hblock, Option.bind_some, h.readBlock, hblocks,
        scanBlock_eq key hsorted.append_right.append_left]
      rw [hsplit, List.flatten_append, List.flatten_cons, SortedMap.Raw.lookup_append,
        SortedMap.Raw.lookup_append, hbefore, hafter]
      simp [pure, Except.pure]
  · rw [if_neg hf]
    have hkey : key ∉ blocks.flatten.map Prod.fst := fun hmem => hf (hcovers hmem)
    have hnone : SortedMap.Raw.lookup key blocks.flatten = none :=
      SortedMap.Raw.lookup_eq_none_iff.mpr fun r hr heq => hkey (List.mem_map.mpr ⟨r, hr, heq⟩)
    rw [hnone]
    rfl

theorem entries_eq (h : sst.Stores blocks) : sst.entries = ⟨blocks.flatten, h.sorted⟩ := by
  have hall : ∀ blocks : List Block,
      ((List.range blocks.length).flatMap fun idx => (blocks[idx]?).getD []) = blocks.flatten := by
    intro blocks
    induction blocks with
    | nil => rfl
    | cons b blocks ih =>
      rw [List.length_cons, List.range_succ_eq_map, List.flatMap_cons, List.flatMap_map,
        List.flatten_cons]
      simpa using ih
  rw [SSTable.entries, h.length_index]
  simp only [h.readBlock, hall]
  exact SortedMap.ext (SortedMap.ofList_entries h.sorted)

theorem firstKey_eq (h : sst.Stores blocks) :
    sst.firstKey = blocks.flatten.head?.map Prod.fst := by
  have hfirst := congrArg List.head? h.firstKeys
  rw [List.head?_map, List.head?_map] at hfirst
  rw [SSTable.firstKey, hfirst]
  cases blocks with
  | nil => rfl
  | cons block blocks =>
    obtain ⟨r, rest, hr⟩ := List.exists_cons_of_ne_nil (h.nonempty block (by simp))
    simp [hr, headKey]

end Stores

/-- The loaded table `sst` represents the map `m`. -/
def Holds (sst : SSTable) (m : SortedMap String SSTableEntry) : Prop :=
  ∃ blocks, sst.Stores blocks ∧ blocks.flatten = m.entries

namespace Holds

variable {sst : SSTable} {m : SortedMap String SSTableEntry}

theorem get_eq (h : sst.Holds m) (key : String) : sst.get key = .ok (m.get? key) := by
  obtain ⟨blocks, hstores, hflat⟩ := h
  rw [hstores.get_eq, hflat]
  rfl

theorem bloomMightContain_eq (h : sst.Holds m) (key : String) :
    ∃ found, sst.bloomMightContain key = .ok found ∧ (m.get? key ≠ none → found = true) := by
  obtain ⟨blocks, hstores, hflat⟩ := h
  obtain ⟨found, hfound, himp⟩ := hstores.bloom.mightContain_eq key
  refine ⟨found, hfound, fun hkey => himp ?_⟩
  rw [hflat]
  exact SortedMap.mem_keys.mpr hkey

theorem entries_eq (h : sst.Holds m) : sst.entries = m := by
  obtain ⟨blocks, hstores, hflat⟩ := h
  rw [hstores.entries_eq]
  exact SortedMap.ext hflat

theorem recordCount_eq (h : sst.Holds m) : sst.recordCount = m.size := by
  obtain ⟨blocks, hstores, hflat⟩ := h
  rw [hstores.recordCount, hflat, SortedMap.size]

theorem keyRange_eq (h : sst.Holds m) : sst.keyRange = m.keyRange := by
  obtain ⟨blocks, hstores, hflat⟩ := h
  rw [SSTable.keyRange, hstores.firstKey_eq, hstores.lastKey, hflat, SortedMap.keyRange,
    SortedMap.keys, List.head?_map, List.getLast?_map]
  cases m.entries.head? <;> cases m.entries.getLast? <;> rfl

end Holds

/-- A written file whose filter starts within the reach of the offsets loads as a table that holds
the written map. -/
theorem load_holds_of_bloomOffset [BloomSizing] {entries : SortedMap String SSTableEntry}
    {blockSize : Nat} {file : Bytes} (hfile : writeSstableWithBlockSize entries blockSize = .ok file)
    (hfits : bloomOffset (cutBlocks blockSize [] entries.entries) < 2 ^ 32) (id : Nat)
    (path : String) :
    ∃ sst, load id path file = .ok sst ∧ sst.Holds entries ∧ sst.id = id ∧ sst.path = path ∧
      sst.data = file := by
  obtain ⟨bloom, hwrite, hcovers, hbits, hhashes⟩ := writeSstable_eq_sealed entries blockSize
  have hflat := flatten_cutBlocks blockSize [] entries.entries
  have hne := cutBlocks_ne_nil blockSize [] entries.entries
  generalize cutBlocks blockSize [] entries.entries = blocks at hwrite hfits hflat hne
  rw [List.nil_append] at hflat
  obtain rfl : sealed blocks bloom blockSize = file := by
    rw [hwrite] at hfile
    exact Except.ok.inj hfile
  have hkeys : blocks.flatten.map Prod.fst = entries.keys := by rw [hflat, SortedMap.keys]
  have hstores : (parsed id path blocks bloom blockSize).deriveLastKey.Stores blocks :=
    stores_deriveLastKey id path hfits hne (hflat ▸ entries.sorted) (hkeys ▸ hcovers)
  refine ⟨_, ?_, ⟨blocks, hstores, hflat⟩, ?_, ?_, ?_⟩
  · rw [load, parse_sealed id path hfits hne hcovers.sized hbits hhashes]
    rfl
  all_goals
    rw [deriveLastKey]
    split <;> rfl

/-- The offset of the filter, as the footer of the file has it. -/
def footerBloomOffset (file : Bytes) : Nat := fieldAt file (file.length - footerSize + 8)

/-- The filter begins where the footer says. If the cast to `u32` has moved the offset, then by
`2 ^ 32` at least, and a filter with its footer is not that long (`offsetsFit_iff`). -/
def OffsetsFit (file : Bytes) : Prop := file.length < footerBloomOffset file + 2 ^ 32

instance : DecidablePred OffsetsFit := fun _ => inferInstanceAs (Decidable (_ < _))

theorem offsetsFit_of_length_lt {file : Bytes} (h : file.length < 2 ^ 32) : OffsetsFit file :=
  h.trans_le (Nat.le_add_left _ _)

/-- The offsets of a written file fit exactly if its filter begins below `2 ^ 32`. -/
theorem offsetsFit_iff [BloomSizing] {entries : SortedMap String SSTableEntry} {blockSize : Nat}
    {file : Bytes} (hfile : writeSstableWithBlockSize entries blockSize = .ok file) :
    OffsetsFit file ↔ bloomOffset (cutBlocks blockSize [] entries.entries) < 2 ^ 32 := by
  obtain ⟨bloom, hwrite, hcovers, hbits, -⟩ := writeSstable_eq_sealed entries blockSize
  generalize cutBlocks blockSize [] entries.entries = blocks at hwrite ⊢
  obtain rfl : sealed blocks bloom blockSize = file := by
    rw [hwrite] at hfile
    exact Except.ok.inj hfile
  have hlen : (sealed blocks bloom blockSize).length =
      bloomOffset blocks + bloom.encode.length + footerSize := length_sealed
  have hfilter := hcovers.sized.length_encode_le hbits
  have hoffset : footerBloomOffset (sealed blocks bloom blockSize) = asU32 (bloomOffset blocks) := by
    obtain ⟨-, -, hread, -⟩ := @readU32_footer blocks bloom blockSize
    rw [readU32_eq_fieldAt (by rw [hlen]; unfold footerSize; omega)] at hread
    exact Except.ok.inj hread
  rw [OffsetsFit, hlen, hoffset]
  unfold asU32 footerSize
  omega

/-- Every written file whose offsets fit loads as a table that holds the written map. -/
theorem load_holds [BloomSizing] {entries : SortedMap String SSTableEntry} {blockSize : Nat}
    {file : Bytes} (hfile : writeSstableWithBlockSize entries blockSize = .ok file)
    (hfits : OffsetsFit file) (id : Nat) (path : String) :
    ∃ sst, load id path file = .ok sst ∧ sst.Holds entries ∧ sst.id = id ∧ sst.path = path ∧
      sst.data = file :=
  load_holds_of_bloomOffset hfile ((offsetsFit_iff hfile).mp hfits) id path

/-- The round trip: a table written with any block size and shorter than 4 GiB is read back as
the map it was written from. -/
theorem load_writeSstable [BloomSizing] (entries : SortedMap String SSTableEntry)
    (blockSize id : Nat) (path : String) :
    ∃ file, writeSstableWithBlockSize entries blockSize = .ok file ∧
      (file.length < 2 ^ 32 → ∃ sst, load id path file = .ok sst ∧
        sst.recordCount = entries.size ∧ sst.entries = entries ∧
        sst.keyRange = entries.keyRange ∧ ∀ key, sst.get key = .ok (entries.get? key)) := by
  obtain ⟨bloom, hwrite, -⟩ := writeSstable_eq_sealed entries blockSize
  refine ⟨_, hwrite, fun hlen => ?_⟩
  obtain ⟨sst, hload, hholds, -⟩ := load_holds hwrite (offsetsFit_of_length_lt hlen) id path
  exact ⟨sst, hload, hholds.recordCount_eq, hholds.entries_eq, hholds.keyRange_eq, hholds.get_eq⟩

theorem writeSstable_ok [BloomSizing] (entries : SortedMap String SSTableEntry) :
    ∃ file, writeSstable entries = .ok file := by
  obtain ⟨bloom, hwrite, -⟩ := writeSstable_eq_sealed entries defaultBlockSize
  exact ⟨_, hwrite⟩

/-- Three records, one of them a tombstone, in blocks of one record each. -/
theorem load_writeSstable_threeBlocks :
    ∃ file sst, @writeSstableWithBlockSize .ofSmall
        (SortedMap.ofList [("b", .tombstone), ("é", .value ""), ("a", .value "1")]) 0 = .ok file ∧
      load 7 "t" file = .ok sst ∧ sst.recordCount = 3 ∧ sst.keyRange = some ("a", "é") ∧
      sst.get "b" = .ok (some .tombstone) ∧ sst.get "c" = .ok none := by
  obtain ⟨file, hwrite, hload⟩ := @load_writeSstable .ofSmall
    (SortedMap.ofList [("b", .tombstone), ("é", .value ""), ("a", .value "1")]) 0 7 "t"
  have hlen : file.length < 2 ^ 32 := by
    have hsize : (@writeSstableWithBlockSize .ofSmall
        (SortedMap.ofList [("b", .tombstone), ("é", .value ""), ("a", .value "1")]) 0).map
          List.length = .ok 128 := by decide +kernel
    rw [hwrite] at hsize
    rw [Except.ok.inj hsize]
    decide
  obtain ⟨sst, hsst, hcount, -, hrange, hget⟩ := hload hlen
  refine ⟨file, sst, hwrite, hsst, hcount.trans (by decide), hrange.trans (by decide), ?_, ?_⟩
  · exact (hget "b").trans (by decide)
  · exact (hget "c").trans (by decide)

end SSTable

end PebbleDB
