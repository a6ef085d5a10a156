import Mathlib.Data.String.Basic
import PebbleDB.Error
import PebbleDB.Lib.LittleEndian

/-!
# Bytes and machine integers

File contents are lists of bytes. A Rust `String` is a Lean `String`: both hold valid UTF-8, and
the order of `str`, bytewise, is the order of code points. Unsigned integers are natural
numbers; `as u32` and `to_le_bytes` reduce them explicitly. Slicing goes through `slice`, which
panics where Rust does.
-/

namespace PebbleDB

open LittleEndian

/-- The content of a file, or a part of it. -/
abbrev Bytes := List UInt8

/-- `str::as_bytes` -/
def asBytes (s : String) : Bytes := s.toByteArray.data.toList

/-- `String::from_utf8` -/
def fromUtf8 (b : Bytes) : Option String := String.fromUTF8? ⟨b.toArray⟩

/-- `n as u32` -/
def asU32 (n : Nat) : Nat := n % 2 ^ 32

/-- `(n as u32).to_le_bytes()` -/
def u32ToLe (n : Nat) : Bytes := toLe 4 n

/-- `n.to_le_bytes()` of a `u64` -/
def u64ToLe (n : Nat) : Bytes := toLe 8 n

/-- `&data[start..stop]` -/
def slice (data : Bytes) (start stop : Nat) : Res Bytes :=
  if start ≤ stop ∧ stop ≤ data.length then .ok ((data.drop start).take (stop - start))
  else .error .panic

/-- `data[i]` -/
def byteAt (data : Bytes) (i : Nat) : Res UInt8 :=
  match data[i]? with
  | some b => .ok b
  | none => .error .panic

/-- `u32::from_le_bytes(data[at..at + 4].try_into().unwrap())` -/
def readU32 (data : Bytes) (off : Nat) : Res Nat := do
  let b ← slice data off (off + 4)
  return ofLe b

@[simp] theorem length_u32ToLe (n : Nat) : (u32ToLe n).length = 4 := length_toLe 4 n

@[simp] theorem length_u64ToLe (n : Nat) : (u64ToLe n).length = 8 := length_toLe 8 n

theorem ofLe_u32ToLe {n : Nat} (h : n < 2 ^ 32) : ofLe (u32ToLe n) = n :=
  ofLe_toLe_of_lt (by simpa using h)

theorem asU32_of_lt {n : Nat} (h : n < 2 ^ 32) : asU32 n = n := Nat.mod_eq_of_lt h

theorem asU32_lt (n : Nat) : asU32 n < 2 ^ 32 := Nat.mod_lt _ (by decide)

@[simp] theorem u32ToLe_asU32 (n : Nat) : u32ToLe (asU32 n) = u32ToLe n := by
  have h := toLe_mod 4 n
  rwa [show (256 : Nat) ^ 4 = 2 ^ 32 by decide] at h

@[simp] theorem fromUtf8_asBytes (s : String) : fromUtf8 (asBytes s) = some s := by
  have hb : (⟨(asBytes s).toArray⟩ : ByteArray) = s.toByteArray := by simp [asBytes]
  rw [fromUtf8, hb, String.fromUTF8?, dif_pos s.isValidUTF8]
  rfl

theorem asBytes_of_fromUtf8 {b : Bytes} {s : String} (h : fromUtf8 b = some s) :
    asBytes s = b := by
  rw [fromUtf8, String.fromUTF8?] at h
  split at h
  · cases h
    simp [asBytes, String.fromUTF8]
  · simp at h

theorem asBytes_ofList (chars : List Char) :
    asBytes (String.ofList chars) = chars.flatMap String.utf8EncodeChar := by
  rw [asBytes, String.toByteArray_ofList, List.utf8Encode]
  simp

theorem asBytes_replicate (n : Nat) :
    asBytes (String.ofList (List.replicate n 'a')) = List.replicate n 97 := by
  rw [asBytes_ofList]
  induction n with
  | zero => rfl
  | succ n ih =>
    rw [List.replicate_succ, List.flatMap_cons, ih]
    rfl

/-- A key or value of this many bytes. -/
def text (length : Nat) : String := String.ofList (List.replicate length 'a')

theorem length_text (length : Nat) : (asBytes (text length)).length = length := by
  rw [text, asBytes_replicate, List.length_replicate]

theorem slice_eq {data : Bytes} {start stop : Nat} (h : start ≤ stop ∧ stop ≤ data.length) :
    slice data start stop = .ok ((data.drop start).take (stop - start)) := if_pos h

theorem length_of_slice {data b : Bytes} {start stop : Nat} (h : slice data start stop = .ok b) :
    b.length = stop - start := by
  rw [slice] at h
  split at h
  · rw [← Except.ok.inj h, List.length_take, List.length_drop]
    omega
  · cases h

/-- Reading inside the data does not panic. -/
theorem exists_slice {data : Bytes} {start stop : Nat} (h : start ≤ stop) (hlen : stop ≤ data.length) :
    ∃ b, slice data start stop = .ok b := ⟨_, slice_eq ⟨h, hlen⟩⟩

theorem exists_byteAt {data : Bytes} {i : Nat} (h : i < data.length) :
    ∃ b, byteAt data i = .ok b := by
  refine ⟨data.get ⟨i, h⟩, ?_⟩
  rw [byteAt, List.getElem?_eq_getElem h]
  rfl

/-- The number in the four bytes at an offset. -/
def fieldAt (data : Bytes) (off : Nat) : Nat := ofLe ((data.drop off).take 4)

theorem readU32_eq_fieldAt {data : Bytes} {off : Nat} (h : off + 4 ≤ data.length) :
    readU32 data off = .ok (fieldAt data off) := by
  rw [readU32, slice_eq ⟨Nat.le_add_right _ _, h⟩, Nat.add_sub_cancel_left]
  rfl

theorem exists_readU32 {data : Bytes} {off : Nat} (h : off + 4 ≤ data.length) :
    ∃ n, readU32 data off = .ok n := ⟨_, readU32_eq_fieldAt h⟩

/-- Slicing the middle part out of three consecutive parts. -/
theorem slice_append {a b c : Bytes} {s t : Nat} (hs : s = a.length)
    (ht : t = a.length + b.length) : slice (a ++ b ++ c) s t = .ok b := by
  subst hs ht
  rw [slice_eq (by simp), List.append_assoc, List.drop_left]
  congr 1
  rw [Nat.add_sub_cancel_left, List.take_left]

theorem readU32_append {a c : Bytes} {n : Nat} (hn : n < 2 ^ 32) {o : Nat}
    (h : o = a.length) : readU32 (a ++ u32ToLe n ++ c) o = .ok n := by
  rw [readU32, slice_append h (by simp [h])]
  show Except.ok (ofLe (u32ToLe n)) = Except.ok n
  rw [ofLe_u32ToLe hn]

/-- The same for data that starts with `a` and the field. -/
theorem readU32_of_prefix {data a : Bytes} {n off : Nat} (h : a ++ u32ToLe n <+: data)
    (hn : n < 2 ^ 32) (hoff : off = a.length) : readU32 data off = .ok n := by
  obtain ⟨c, rfl⟩ := h
  exact readU32_append hn hoff

/-- A field that was cast. -/
theorem readU32_asU32 {data a : Bytes} {n off : Nat} (h : a ++ u32ToLe n <+: data)
    (hoff : off = a.length) : readU32 data off = .ok (asU32 n) := by
  rw [← u32ToLe_asU32] at h
  exact readU32_of_prefix h (asU32_lt n) hoff

theorem slice_of_prefix {data a b : Bytes} {s t : Nat} (h : a ++ b <+: data)
    (hs : s = a.length) (ht : t = a.length + b.length) : slice data s t = .ok b := by
  obtain ⟨c, rfl⟩ := h
  exact slice_append hs ht

end PebbleDB
