import PebbleDB.SSTableReading

/-!
# Damaged tables

`SSTable::parse` looks at the header and the checksum before it uses any offset of the footer
(`parse_of_not_checked`). The checksum covers all bytes but its own, so no change of a single byte of an
accepted file gets past it.
-/

namespace PebbleDB

open LittleEndian

namespace SSTable

/-- Header and checksum are right. -/
structure Checked (data : Bytes) : Prop where
  length : headerSize + footerSize ≤ data.length
  magic : fieldAt data 0 = magic
  version : fieldAt data 4 = version
  checksum : fieldAt data (data.length - 4) = crc32 (data.take (data.length - 4))

/-- What the footer says of the index. -/
def storedIndexOffset (data : Bytes) : Nat := fieldAt data (data.length - footerSize)
/-- And its length. -/
def storedIndexSize (data : Bytes) : Nat := fieldAt data (data.length - footerSize + 4)
/-- What it says of the filter. -/
def storedBloomOffset (data : Bytes) : Nat := fieldAt data (data.length - footerSize + 8)
/-- And its length. -/
def storedBloomSize (data : Bytes) : Nat := fieldAt data (data.length - footerSize + 12)

/-- The part of `parse` behind the checksum. -/
def parseSections (id : Nat) (path : String) (data : Bytes) : Res SSTable := do
  let indexOffset := storedIndexOffset data
  let bloomOffset := storedBloomOffset data
  let indexData ← slice data indexOffset (indexOffset + storedIndexSize data)
  let index ← parseIndex indexData
  let bloomData ← slice data bloomOffset (bloomOffset + storedBloomSize data)
  let decoded ← BloomFilter.decode bloomData
  match decoded with
  | none => sstErr "invalid bloom filter"
  | some bloom => return ⟨id, path, data, index, bloom, fieldAt data 8, fieldAt data 12, none⟩

variable {id : Nat} {path : String} {data : Bytes}

theorem parse_eq_checks (h : headerSize + footerSize ≤ data.length) : parse id path data =
    if fieldAt data 0 ≠ magic then sstErr "invalid magic number"
    else if fieldAt data 4 ≠ version then
      sstErr ("unsupported version: " ++ toString (fieldAt data 4))
    else if fieldAt data (data.length - 4) ≠ crc32 (data.take (data.length - 4)) then
      sstErr "checksum mismatch"
    else parseSections id path data := by
  have hfield : ∀ {off}, off + 4 ≤ data.length → readU32 data off = .ok (fieldAt data off) :=
    readU32_eq_fieldAt
  rw [headerSize, footerSize] at h
  have hcovered : slice data 0 (data.length - 4) = .ok (data.take (data.length - 4)) := by
    rw [slice_eq ⟨Nat.zero_le _, Nat.sub_le _ _⟩, List.drop_zero, Nat.sub_zero]
  have hstored : data.length - footerSize + 16 = data.length - 4 := by
    rw [footerSize]
    omega
  rw [parse, if_neg (by rw [headerSize, footerSize]; omega)]
  simp only [hfield (show 0 + 4 ≤ data.length by omega), hfield (show 4 + 4 ≤ data.length by omega),
    hfield (show 8 + 4 ≤ data.length by omega), hfield (show 12 + 4 ≤ data.length by omega),
    hfield (show data.length - footerSize + 4 ≤ data.length by rw [footerSize]; omega),
    hfield (show data.length - footerSize + 4 + 4 ≤ data.length by rw [footerSize]; omega),
    hfield (show data.length - footerSize + 8 + 4 ≤ data.length by rw [footerSize]; omega),
    hfield (show data.length - footerSize + 12 + 4 ≤ data.length by rw [footerSize]; omega),
    hstored, hfield (show data.length - 4 + 4 ≤ data.length by omega), hcovered, bind, Except.bind]
  rfl

theorem Checked.parse_eq (h : Checked data) : parse id path data = parseSections id path data := by
  rw [parse_eq_checks h.length, if_neg (not_not_intro h.magic), if_neg (not_not_intro h.version),
    if_neg (not_not_intro h.checksum)]

/-- Nothing else of such a file is looked at. -/
theorem parse_of_not_checked (h : ¬ Checked data) : ∃ msg, parse id path data = sstErr msg := by
  by_cases hlen : headerSize + footerSize ≤ data.length
  · rw [parse_eq_checks hlen]
    split
    · exact ⟨_, rfl⟩
    · rename_i hmagic
      split
      · exact ⟨_, rfl⟩
      · rename_i hversion
        split
        · exact ⟨_, rfl⟩
        · rename_i hchecksum
          exact absurd ⟨hlen, not_not.mp hmagic, not_not.mp hversion, not_not.mp hchecksum⟩ h
  · exact ⟨"file too short", by rw [parse, if_pos (not_le.mp hlen)]⟩

theorem checked_of_parse {sst : SSTable} (h : parse id path data = .ok sst) : Checked data := by
  by_contra hnot
  obtain ⟨msg, herr⟩ := @parse_of_not_checked id path data hnot
  rw [h] at herr
  cases herr

/-- A written file passes the checks at any length, even where its offsets do not fit. -/
theorem checked_of_write [BloomSizing] {entries : SortedMap String SSTableEntry} {blockSize : Nat}
    (h : writeSstableWithBlockSize entries blockSize = .ok data) : Checked data := by
  obtain ⟨bloom, hwrite, -⟩ := writeSstable_eq_sealed entries blockSize
  generalize cutBlocks blockSize [] entries.entries = blocks at hwrite
  obtain rfl : sealed blocks bloom blockSize = data := by
    rw [hwrite] at h
    exact Except.ok.inj h
  have hlen : headerSize + footerSize ≤ (sealed blocks bloom blockSize).length := by
    rw [length_sealed]
    omega
  have hfield : ∀ {off n}, off + 4 ≤ (sealed blocks bloom blockSize).length →
      readU32 (sealed blocks bloom blockSize) off = .ok n →
      fieldAt (sealed blocks bloom blockSize) off = n := by
    intro off n hoff hread
    rw [readU32_eq_fieldAt hoff] at hread
    exact Except.ok.inj hread
  have hcovered : (sealed blocks bloom blockSize).take
      ((sealed blocks bloom blockSize).length - 4) = unsealed blocks bloom blockSize := by
    rw [sealed, List.length_append, length_u32ToLe, Nat.add_sub_cancel, List.take_left]
  obtain ⟨hmagic, hversion, -⟩ := @readU32_header blocks bloom blockSize
  obtain ⟨-, -, -, -, hcrc⟩ := @readU32_footer blocks bloom blockSize
  have hoffset : (sealed blocks bloom blockSize).length - footerSize + 16 =
      (sealed blocks bloom blockSize).length - 4 := by
    rw [headerSize, footerSize] at hlen
    rw [footerSize]
    omega
  rw [hoffset] at hcrc
  rw [headerSize, footerSize] at hlen
  refine ⟨by rw [headerSize, footerSize]; exact hlen, hfield (by omega) hmagic,
    hfield (by omega) hversion, ?_⟩
  rw [hcovered]
  exact hfield (by omega) hcrc

/-- The checksum is one of the four bytes that it does not cover, or a different one belongs to the
rest. -/
theorem not_checked_set (h : Checked data) {i : Nat} (hi : i < data.length) {b : UInt8}
    (hb : data[i]? ≠ some b) : ¬ Checked (data.set i b) := by
  intro hset
  have hlen := h.length
  rw [headerSize, footerSize] at hlen
  have heq := hset.checksum
  rw [List.length_set] at heq
  by_cases hcovered : i < data.length - 4
  · -- a covered byte: the stored checksum is as before
    have hfield : fieldAt (data.set i b) (data.length - 4) = fieldAt data (data.length - 4) := by
      rw [fieldAt, fieldAt, List.drop_set_of_lt hcovered]
    have hget : (data.take (data.length - 4))[i]? ≠ some b := by
      rw [List.getElem?_take, if_pos hcovered]
      exact hb
    rw [hfield, h.checksum, List.take_set] at heq
    exact crc32_set_ne (by rw [List.length_take]; omega) hget heq.symm
  · -- a byte of the stored checksum: what it covers is as before
    have htake : (data.set i b).take (data.length - 4) = data.take (data.length - 4) := by
      rw [List.take_set_of_le (not_lt.mp hcovered)]
    rw [htake, ← h.checksum, fieldAt, fieldAt] at heq
    have hsame := ofLe_injective (by simp) heq
    rw [List.take_of_length_le (by rw [List.length_drop, List.length_set]; omega),
      List.take_of_length_le (by rw [List.length_drop]; omega)] at hsame
    refine set_ne_self hi hb ?_
    rw [← List.take_append_drop (data.length - 4) (data.set i b), htake, hsame,
      List.take_append_drop]

/-- Any single byte changed in a file that is accepted, or that was written, makes it rejected. -/
theorem parse_damaged [BloomSizing]
    (h : (∃ sst, parse id path data = .ok sst) ∨
      ∃ entries blockSize, writeSstableWithBlockSize entries blockSize = .ok data)
    {i : Nat} (hi : i < data.length) {b : UInt8} (hb : data[i]? ≠ some b) :
    ∃ msg, parse id path (data.set i b) = sstErr msg := by
  have hchecked : Checked data := by
    rcases h with ⟨sst, hparse⟩ | ⟨entries, blockSize, hwrite⟩
    · exact checked_of_parse hparse
    · exact checked_of_write hwrite
  exact parse_of_not_checked (not_checked_set hchecked hi hb)

/-- A value and a tombstone, each in a block of its own. -/
def twoBlocks : Bytes := (@writeSstableWithBlockSize .ofSmall
  (.ofList [("a", .value "1"), ("b", .tombstone)]) 0).toOption.getD []

/-- The value, in the first block, becomes another one. -/
theorem parse_damaged_twoBlocks :
    (∃ sst, parse 0 "t" twoBlocks = .ok sst ∧ sst.index.length = 2 ∧
      slice twoBlocks 20 31 = .ok (encodeRecord "a" (.value "1"))) ∧
      ∃ msg, parse 0 "t" (twoBlocks.set 30 0x32) = sstErr msg := by
  obtain ⟨sst, hok, hlength⟩ : ∃ sst, parse 0 "t" twoBlocks = .ok sst ∧ sst.index.length = 2 := by
    have hlength : (parse 0 "t" twoBlocks).toOption.map (fun sst => sst.index.length) = some 2 := by
      decide +kernel
    cases hparse : parse 0 "t" twoBlocks with
    | ok sst =>
      rw [hparse] at hlength
      exact ⟨sst, rfl, Option.some.inj hlength⟩
    | error e =>
      rw [hparse] at hlength
      cases hlength
  exact ⟨⟨sst, hok, hlength, by decide +kernel⟩,
    @parse_damaged 0 "t" twoBlocks .ofSmall (.inl ⟨sst, hok⟩) 30 (by decide +kernel) _
      (by decide +kernel)⟩

end SSTable

end PebbleDB
