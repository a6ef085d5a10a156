import PebbleDB.Crc32

/-!
# Write-ahead log records

`WalRecord::encode`, `WalRecord::decode` and the reader loop of `src/wal.rs`. A record is a
length prefix, that many payload bytes, and the CRC-32 of prefix and payload. The reader stops
quietly at a tail that an interrupted append can leave (`recover`) or reports it (`readAll`), and
reports every other defect.

`WalReader` reads one file from its start: the position is the length of what has been consumed,
and `file_len`, taken when the reader is opened, is the length of the whole content.
-/

namespace PebbleDB

open LittleEndian

/-- `OP_SET`, the first byte of the payload of a `set`. -/
def walOpSet : UInt8 := 1
/-- `OP_DELETE`, that of a `delete`. -/
def walOpDelete : UInt8 := 2

/-- `WalRecord`, a write as the log has it. -/
inductive WalRecord where
  | set (key value : String)
  | delete (key : String)
  deriving DecidableEq, Repr

/-- `key_len` and `value_len` of `encode`, before the casts. -/
def WalRecord.lengths : WalRecord → Nat × Nat
  | .set key value => ((asBytes key).length, (asBytes value).length)
  | .delete key => ((asBytes key).length, 0)

/-- The sum `1 + 4 + 4 + key_len + value_len` of `encode` over the casted lengths. It is a `u32`
sum: `WalWriter::append_record` panics where it does not fit (`WalRecord.totalLenOverflows`). -/
def WalRecord.totalLen (r : WalRecord) : Nat :=
  1 + 4 + 4 + asU32 r.lengths.1 + asU32 r.lengths.2

/-- The sum of the length prefix does not fit a `u32`. -/
def WalRecord.totalLenOverflows (r : WalRecord) : Bool := decide (2 ^ 32 ≤ r.totalLen)

/-- What `encode` writes after the length prefix and before the checksum. -/
def WalRecord.payload : WalRecord → Bytes
  | .set key value =>
    [walOpSet] ++ u32ToLe (asBytes key).length ++ u32ToLe (asBytes value).length ++
      asBytes key ++ asBytes value
  | .delete key =>
    [walOpDelete] ++ u32ToLe (asBytes key).length ++ u32ToLe 0 ++ asBytes key

/-- Everything `encode` writes before the checksum. -/
def WalRecord.framed (r : WalRecord) : Bytes := u32ToLe r.totalLen ++ r.payload

/-- `WalRecord::encode` -/
def WalRecord.encode (r : WalRecord) : Bytes := r.framed ++ u32ToLe (crc32 r.framed)

/-- `WalRecord::decode` -/
def WalRecord.decode (data : Bytes) : Res WalRecord := do
  if data.length < 9 then
    err (.walCorruption "record too short")
  else
    let op ← byteAt data 0
    let keyLen ← readU32 data 1
    let valueLen ← readU32 data 5
    if data.length < 9 + keyLen + valueLen then
      err (.walCorruption "record truncated")
    else
      let keyBytes ← slice data 9 (9 + keyLen)
      match fromUtf8 keyBytes with
      | none => err (.walCorruption "invalid UTF-8 in key")
      | some key =>
        if op = walOpSet then
          let valueBytes ← slice data (9 + keyLen) (9 + keyLen + valueLen)
          match fromUtf8 valueBytes with
          | none => err (.walCorruption "invalid UTF-8 in value")
          | some value => return .set key value
        else if op = walOpDelete then
          if valueLen ≠ 0 then
            err (.walCorruption "DELETE record has non-zero value length")
          else
            return .delete key
        else
          err (.walCorruption ("unknown operation: " ++ toString op.toNat))

/-- `WalRecovery`: the records, and the length of the part of the log that holds them. -/
structure WalRecovery where
  records : List WalRecord
  validLen : Nat
  deriving DecidableEq, Repr

/-- `WalReader::stop_at_tail` -/
def stopAtTail (records : List WalRecord) (validLen : Nat) (tolerateTornTail : Bool) :
    Res WalRecovery :=
  if tolerateTornTail then .ok ⟨records, validLen⟩ else err .walIncomplete

/-- The loop of `WalReader::read_records`, on the bytes `rest` not yet consumed. A turn that goes
on consumes at least one byte, so a fuel above `rest.length` is never used up. -/
def readLoop (fileLen : Nat) (tolerateTornTail : Bool) :
    Nat → Bytes → List WalRecord → Nat → Res WalRecovery
  | 0, _, _, _ => .error .outOfFuel
  | fuel + 1, rest, records, validLen => do
    -- `read_len_prefix` fills as much of the four bytes as the file still has
    let lenBuf := rest.take 4
    if lenBuf.length = 0 then
      return ⟨records, validLen⟩
    else if lenBuf.length < 4 then
      stopAtTail records validLen tolerateTornTail
    else
      let totalLen := ofLe lenBuf
      if totalLen < 9 then
        -- `return Ok` under `tolerate_torn_tail`, `break` to the same `Ok` otherwise
        return ⟨records, validLen⟩
      else if fileLen < validLen + 8 + totalLen then
        stopAtTail records validLen tolerateTornTail
      else
        let body := (rest.drop 4).take (totalLen + 4)
        if body.length < totalLen + 4 then
          -- `read_exact` met the end of the file
          stopAtTail records validLen tolerateTornTail
        else
          let payload := lenBuf ++ body
          let recordBytes ← slice payload 4 (4 + totalLen)
          let stored ← readU32 payload (4 + totalLen)
          let covered ← slice payload 0 (4 + totalLen)
          if crc32 covered ≠ stored then
            err (.walCorruption "checksum mismatch")
          else
            let record ← WalRecord.decode recordBytes
            readLoop fileLen tolerateTornTail fuel (rest.drop (8 + totalLen))
              (records ++ [record]) (validLen + (8 + totalLen))

/-- `WalReader::read_records` on a log with the given content. -/
def readRecords (data : Bytes) (tolerateTornTail : Bool) : Res WalRecovery :=
  readLoop data.length tolerateTornTail (data.length + 1) data [] 0

/-- `WalReader::open` and `WalReader::recover` -/
def recover (data : Bytes) : Res WalRecovery := readRecords data true

/-- `WalReader::open` and `WalReader::read_all` -/
def readAll (data : Bytes) : Res (List WalRecord) := do
  let recovery ← readRecords data false
  return recovery.records

/-- The log after the records `rs` have been appended to an empty one. -/
def encodeAll (rs : List WalRecord) : Bytes := rs.flatMap WalRecord.encode

/-- The record fits the `u32` fields of the format. -/
def WalRecord.Fits (r : WalRecord) : Prop := 1 + 4 + 4 + r.lengths.1 + r.lengths.2 < 2 ^ 32

instance (r : WalRecord) : Decidable r.Fits := inferInstanceAs (Decidable (_ < _))

end PebbleDB
