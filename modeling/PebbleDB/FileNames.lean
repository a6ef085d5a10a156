import Mathlib.Data.List.Basic
import Mathlib.Data.String.Basic
import Mathlib.Tactic.Common

/-!
# File names and the merge marker

The text formats of `src/db.rs`: the names of table files and the content of `merge.pending`.
What is formatted is read back (`parse_sstableFileName`, `parsePending_markerText`), and the
names that `open` treats differently differ.
-/

namespace PebbleDB

/-! ## Text -/

/-- `str::strip_prefix` -/
def stripPrefix (pre text : List Char) : Option (List Char) :=
  if pre.isPrefixOf text then some (text.drop pre.length) else none

/-- `str::strip_suffix` -/
def stripSuffix (suffix text : List Char) : Option (List Char) :=
  if suffix.isSuffixOf text then some (text.take (text.length - suffix.length)) else none

/-- `str::split_once` -/
def splitOnce (sep : Char) (text : List Char) : Option (List Char × List Char) :=
  match text.dropWhile (· ≠ sep) with
  | [] => none
  | _ :: rest => some (text.takeWhile (· ≠ sep), rest)

/-- An integer may start with a plus sign. -/
def dropPlus : List Char → List Char
  | '+' :: rest => rest
  | text => text

/-- `str::parse` to an unsigned integer below `limit`. -/
def parseUint (limit : Nat) (text : List Char) : Option Nat :=
  let digits := dropPlus text
  if digits = [] ∨ ¬ digits.all Char.isDigit then none
  else
    let n := Nat.ofDigitChars 10 digits 0
    if n < limit then some n else none

/-- The Unicode white space that `str::trim` strips. -/
def isWhiteSpace (c : Char) : Bool :=
  let n := c.toNat
  (9 ≤ n && n ≤ 13) || n == 0x20 || n == 0x85 || n == 0xa0 || n == 0x1680 ||
    (0x2000 ≤ n && n ≤ 0x200a) || n == 0x2028 || n == 0x2029 || n == 0x202f || n == 0x205f ||
    n == 0x3000

/-- `str::trim` -/
def trim (text : List Char) : List Char :=
  ((text.dropWhile isWhiteSpace).reverse.dropWhile isWhiteSpace).reverse

/-- A line up to its newline, without a carriage return before it. -/
def stripReturn (line : List Char) : List Char :=
  if line.getLast? = some '\r' then line.dropLast else line

/-- `str::lines`: what follows the last newline is a line unless it is empty. -/
def lines (text : List Char) : List (List Char) :=
  let pieces := text.splitOn '\n'
  pieces.dropLast.map stripReturn ++ (pieces.getLast?.toList.filter (· ≠ []))

/-! ## Table files -/

/-- `format!("{:06}", id)` -/
def padded (id : Nat) : List Char :=
  let digits := Nat.toDigits 10 id
  List.replicate (6 - digits.length) '0' ++ digits

/-- How the names of table files start. -/
def sstablePrefix : List Char := "sstable_".toList

/-- How they end. -/
def sstSuffix : List Char := ".sst".toList

/-- `format!("sstable_L{}_{:06}.sst", level, id)` -/
def sstableFileName (level id : Nat) : String :=
  String.ofList (sstablePrefix ++ ('L' :: Nat.toDigits 10 level ++ '_' :: padded id ++ sstSuffix))

/-- `parse_sstable_file_name`: the id and the level. -/
def parseSstableFileName (name : String) : Option (Nat × Nat) := do
  let rest ← stripPrefix sstablePrefix name.toList
  let stem ← stripSuffix sstSuffix rest
  match stripPrefix ['L'] stem with
  | some rest =>
    let (level, id) ← splitOnce '_' rest
    let id ← parseUint (2 ^ 64) id
    let level ← parseUint (2 ^ 32) level
    return (id, level)
  | none =>
    let id ← parseUint (2 ^ 64) stem
    return (id, 0)

/-- How the names of temporary files end. -/
def tmpSuffix : List Char := ".tmp".toList

/-- `name.ends_with(".tmp")` -/
def isTmp (name : String) : Bool := tmpSuffix.isSuffixOf name.toList

/-- `format!("{}.tmp", name)` -/
def tmpName (name : String) : String := String.ofList (name.toList ++ tmpSuffix)

/-! ## The marker -/

/-- `MERGE_PENDING_FILE`, the marker of a merge. -/
def mergePendingFile : String := "merge.pending"

/-- `join_ids`, in decimal digits. -/
def joinIds (ids : List Nat) : List Char := [','].intercalate (ids.map (Nat.toDigits 10))

/-- What stands before the ids of the outputs in the marker. -/
def outputsLabel : List Char := "outputs:".toList

/-- And before those of the inputs. -/
def inputsLabel : List Char := "inputs:".toList

/-- The content that `write_pending_merge` writes. -/
def markerText (outputs inputs : List Nat) : String :=
  String.ofList (outputsLabel ++ ' ' :: joinIds outputs ++ '\n' :: (inputsLabel ++
    ' ' :: joinIds inputs ++ ['\n']))

/-- `parse_ids` skips what is not an id. -/
def parseIds (text : List Char) : List Nat :=
  (text.splitOn ',').filterMap fun id => parseUint (2 ^ 64) (trim id)

/-- One turn of the loop of `read_pending_merge` over the lines. -/
def readLine (found : List Nat × List Nat) (line : List Char) : List Nat × List Nat :=
  match stripPrefix outputsLabel line with
  | some rest => (parseIds rest, found.2)
  | none =>
    match stripPrefix inputsLabel line with
    | some rest => (found.1, parseIds rest)
    | none => found

/-- The output and the input ids that `read_pending_merge` finds in the marker. -/
def parsePending (content : String) : List Nat × List Nat :=
  (lines content.toList).foldl readLine ([], [])

/-! ## Reading back numbers -/

theorem stripPrefix_append (pre text : List Char) : stripPrefix pre (pre ++ text) = some text := by
  have h : pre.isPrefixOf (pre ++ text) = true :=
    List.isPrefixOf_iff_prefix.mpr (List.prefix_append _ _)
  rw [stripPrefix, if_pos h, List.drop_left]

theorem stripSuffix_append (suffix text : List Char) :
    stripSuffix suffix (text ++ suffix) = some text := by
  have h : suffix.isSuffixOf (text ++ suffix) = true :=
    List.isSuffixOf_iff_suffix.mpr (List.suffix_append _ _)
  rw [stripSuffix, if_pos h, List.length_append, Nat.add_sub_cancel, List.take_left]

theorem splitOnce_append {sep : Char} {before : List Char} (after : List Char)
    (h : sep ∉ before) : splitOnce sep (before ++ sep :: after) = some (before, after) := by
  have hall : ∀ c ∈ before, (decide (c ≠ sep)) = true := by
    intro c hc
    exact decide_eq_true fun heq => h (heq ▸ hc)
  rw [splitOnce, List.dropWhile_append_of_pos hall, List.takeWhile_append_of_pos hall,
    List.dropWhile_cons_of_neg (by simp), List.takeWhile_cons_of_neg (by simp)]
  simp

/-- Digits without a sign are read as their value. -/
theorem parseUint_digits {limit : Nat} {digits : List Char} (hne : digits ≠ [])
    (hdigits : ∀ c ∈ digits, c.isDigit = true) (hlt : Nat.ofDigitChars 10 digits 0 < limit) :
    parseUint limit digits = some (Nat.ofDigitChars 10 digits 0) := by
  obtain ⟨c, rest, rfl⟩ := List.exists_cons_of_ne_nil hne
  have hplus : c ≠ '+' := by
    rintro rfl
    exact absurd (hdigits '+' List.mem_cons_self) (by decide)
  have hdrop : dropPlus (c :: rest) = c :: rest := by
    rw [dropPlus]
    rintro rest' heq
    exact hplus (List.cons.inj heq).1
  rw [parseUint, hdrop]
  have hall : (c :: rest).all Char.isDigit = true := List.all_eq_true.mpr hdigits
  rw [if_neg (by simp [hall]), if_pos hlt]

theorem isDigit_of_mem_padded {id : Nat} {c : Char} (h : c ∈ padded id) : c.isDigit = true := by
  rcases List.mem_append.mp h with h | h
  · rw [List.eq_of_mem_replicate h]
    decide
  · exact Nat.isDigit_of_mem_toDigits (by decide) (by decide) h

theorem ofDigitChars_padded (id : Nat) : Nat.ofDigitChars 10 (padded id) 0 = id := by
  simp only [padded]
  rw [Nat.ofDigitChars_append, Nat.ofDigitChars_replicate_zero, Nat.mul_zero,
    Nat.ofDigitChars_ten_toDigits]

theorem padded_ne_nil (id : Nat) : padded id ≠ [] := by
  rw [padded]
  exact List.append_ne_nil_of_right_ne_nil _ Nat.toDigits_ne_nil

theorem parseUint_padded {limit id : Nat} (h : id < limit) :
    parseUint limit (padded id) = some id := by
  rw [parseUint_digits (padded_ne_nil id) (fun _ => isDigit_of_mem_padded)
    (by rwa [ofDigitChars_padded]), ofDigitChars_padded]

theorem parseUint_toDigits {limit n : Nat} (h : n < limit) :
    parseUint limit (Nat.toDigits 10 n) = some n := by
  rw [parseUint_digits Nat.toDigits_ne_nil
    (fun _ hc => Nat.isDigit_of_mem_toDigits (by decide) (by decide) hc)
    (by rwa [Nat.ofDigitChars_ten_toDigits]), Nat.ofDigitChars_ten_toDigits]

/-! ## Reading back names -/

/-- The name of a table file is read back as its id and level. -/
theorem parse_sstableFileName {level id : Nat} (hlevel : level < 2 ^ 32) (hid : id < 2 ^ 64) :
    parseSstableFileName (sstableFileName level id) = some (id, level) := by
  have hname : (sstableFileName level id).toList = sstablePrefix ++ ((['L'] ++
      (Nat.toDigits 10 level ++ '_' :: padded id)) ++ sstSuffix) := by
    rw [sstableFileName, String.toList_ofList]
    simp only [List.append_assoc, List.cons_append, List.nil_append]
  have hsplit : splitOnce '_' (Nat.toDigits 10 level ++ '_' :: padded id) =
      some (Nat.toDigits 10 level, padded id) := splitOnce_append _ Nat.underscore_not_in_toDigits
  have hlevel' := parseUint_toDigits hlevel
  have hid' := parseUint_padded hid
  rw [parseSstableFileName, hname, stripPrefix_append, Option.bind_eq_bind, Option.bind_some,
    stripSuffix_append, Option.bind_some, stripPrefix_append]
  dsimp only
  rw [hsplit, Option.bind_eq_bind, Option.bind_some]
  dsimp only
  rw [hid', Option.bind_eq_bind, Option.bind_some, hlevel']
  rfl

theorem sstableFileName_injective {level level' id id' : Nat} (hlevel : level < 2 ^ 32)
    (hid : id < 2 ^ 64) (hlevel' : level' < 2 ^ 32) (hid' : id' < 2 ^ 64)
    (h : sstableFileName level id = sstableFileName level' id') : level = level' ∧ id = id' := by
  have h1 := parse_sstableFileName hlevel hid
  rw [h, parse_sstableFileName hlevel' hid', Option.some.injEq, Prod.mk.injEq] at h1
  exact ⟨h1.2.symm, h1.1.symm⟩

/-! ## Reading back the marker -/

theorem joinIds_eq_nil_or (ids : List Nat) :
    (ids = [] ∧ joinIds ids = []) ∨
      (joinIds ids).splitOn ',' = ids.map (Nat.toDigits 10) := by
  by_cases h : ids = []
  · subst h
    exact Or.inl ⟨rfl, rfl⟩
  · right
    refine List.splitOn_intercalate ',' (fun l hl hmem => ?_) (by simpa using h)
    obtain ⟨n, -, rfl⟩ := List.mem_map.mp hl
    exact absurd (Nat.isDigit_of_mem_toDigits (by decide) (by decide) hmem) (by decide)

theorem isDigit_or_of_mem_joinIds {ids : List Nat} {c : Char} (h : c ∈ joinIds ids) :
    c.isDigit = true ∨ c = ',' := by
  rw [joinIds, List.intercalate] at h
  obtain ⟨l, hl, hc⟩ := List.mem_flatten.mp h
  clear h
  induction ids with
  | nil => simp at hl
  | cons n ids ih =>
    cases ids with
    | nil =>
      simp only [List.map_cons, List.map_nil, List.intersperse_singleton, List.mem_singleton] at hl
      subst hl
      exact Or.inl (Nat.isDigit_of_mem_toDigits (by decide) (by decide) hc)
    | cons m ids =>
      rw [List.map_cons, List.map_cons, List.intersperse_cons_cons] at hl
      rcases List.mem_cons.mp hl with rfl | hl
      · exact Or.inl (Nat.isDigit_of_mem_toDigits (by decide) (by decide) hc)
      · rcases List.mem_cons.mp hl with rfl | hl
        · exact Or.inr (List.mem_singleton.mp hc)
        · exact ih hl

/-- Digits are not white space. -/
theorem trim_digits {digits : List Char} (h : ∀ c ∈ digits, c.isDigit = true) :
    trim digits = digits := by
  have hkeep : ∀ l : List Char, (∀ c ∈ l, c.isDigit = true) → l.dropWhile isWhiteSpace = l := by
    intro l hl
    cases l with
    | nil => rfl
    | cons c l =>
      refine List.dropWhile_cons_of_neg ?_
      have hc := hl c List.mem_cons_self
      simp only [Char.isDigit, Bool.and_eq_true, decide_eq_true_eq, UInt32.le_iff_toNat_le] at hc
      simp only [isWhiteSpace, Char.toNat]
      have h1 : 48 ≤ c.val.toNat := hc.1
      have h2 : c.val.toNat ≤ 57 := hc.2
      simp only [Bool.or_eq_true, Bool.and_eq_true, decide_eq_true_eq, beq_iff_eq]
      omega
  rw [trim, hkeep digits h, hkeep digits.reverse (by simpa using h), List.reverse_reverse]

theorem trim_space (text : List Char) : trim (' ' :: text) = trim text := by
  rw [trim, trim, List.dropWhile_cons_of_pos (by decide)]

/-- A list of ids, also the empty one, is read back behind the space that follows its label. -/
theorem parseIds_joinIds {ids : List Nat} (h : ∀ id ∈ ids, id < 2 ^ 64) :
    parseIds (' ' :: joinIds ids) = ids := by
  rcases joinIds_eq_nil_or ids with ⟨rfl, hnil⟩ | hsplit
  · rw [hnil]
    decide
  · cases ids with
    | nil => decide
    | cons n ids =>
      have hdigits : ∀ m : Nat, ∀ c ∈ Nat.toDigits 10 m, c.isDigit = true := fun m c hc =>
        Nat.isDigit_of_mem_toDigits (by decide) (by decide) hc
      have hspace : (' ' :: joinIds (n :: ids)).splitOn ',' =
          (' ' :: Nat.toDigits 10 n) :: ids.map (Nat.toDigits 10) := by
        rw [List.splitOn_cons_eq_if_modifyHead, if_neg (by decide), hsplit]
        rfl
      have hrest : ∀ l : List Nat, (∀ id ∈ l, id < 2 ^ 64) →
          (l.map (Nat.toDigits 10)).filterMap (fun id => parseUint (2 ^ 64) (trim id)) = l := by
        intro l hl
        induction l with
        | nil => rfl
        | cons m l ih =>
          rw [List.map_cons, List.filterMap_cons, trim_digits (hdigits m),
            parseUint_toDigits (hl m List.mem_cons_self)]
          simp only [ih fun id hid => hl id (List.mem_cons_of_mem _ hid)]
      rw [parseIds, hspace, List.filterMap_cons, trim_space, trim_digits (hdigits n),
        parseUint_toDigits (h n List.mem_cons_self)]
      simp only [hrest ids fun id hid => h id (List.mem_cons_of_mem _ hid)]

theorem lines_two {a b : List Char} (ha : '\n' ∉ a) (hb : '\n' ∉ b)
    (ha' : a.getLast? ≠ some '\r') (hb' : b.getLast? ≠ some '\r') :
    lines (a ++ '\n' :: (b ++ ['\n'])) = [a, b] := by
  have hsplit : (a ++ '\n' :: (b ++ ['\n'])).splitOn '\n' = [a, b, []] := by
    rw [List.splitOn_append_cons_self_of_not_mem ha, List.splitOn_append_cons_self_of_not_mem hb]
    rfl
  rw [lines, hsplit]
  simp [stripReturn, ha', hb']

/-- The marker is read back as the two lists it was written from. -/
theorem parsePending_markerText {outputs inputs : List Nat} (houts : ∀ id ∈ outputs, id < 2 ^ 64)
    (hins : ∀ id ∈ inputs, id < 2 ^ 64) :
    parsePending (markerText outputs inputs) = (outputs, inputs) := by
  have hno : ∀ (label : List Char) (ids : List Nat), '\n' ∉ label →
      '\n' ∉ label ++ ' ' :: joinIds ids := by
    intro label ids hlabel hmem
    rcases List.mem_append.mp hmem with hmem | hmem
    · exact hlabel hmem
    · rcases List.mem_cons.mp hmem with heq | hmem
      · exact absurd heq (by decide)
      · rcases isDigit_or_of_mem_joinIds hmem with hdigit | hcomma
        · exact absurd hdigit (by decide)
        · exact absurd hcomma (by decide)
  have hlast : ∀ (label : List Char) (ids : List Nat), '\r' ∉ label →
      (label ++ ' ' :: joinIds ids).getLast? ≠ some '\r' := by
    intro label ids hlabel heq
    rcases List.mem_append.mp (List.mem_of_mem_getLast? heq) with hmem | hmem
    · exact hlabel hmem
    · rcases List.mem_cons.mp hmem with heq | hmem
      · exact absurd heq (by decide)
      · rcases isDigit_or_of_mem_joinIds hmem with hdigit | hcomma
        · exact absurd hdigit (by decide)
        · exact absurd hcomma (by decide)
  have hnot : stripPrefix outputsLabel (inputsLabel ++ ' ' :: joinIds inputs) = none := by
    refine if_neg ?_
    rw [show outputsLabel = 'o' :: "utputs:".toList by decide +kernel,
      show inputsLabel = 'i' :: "nputs:".toList by decide +kernel, List.cons_append,
      List.isPrefixOf_cons_cons]
    simp
  rw [parsePending, markerText, String.toList_ofList,
    lines_two (hno _ outputs (by decide +kernel)) (hno _ inputs (by decide +kernel))
      (hlast _ outputs (by decide +kernel)) (hlast _ inputs (by decide +kernel))]
  simp only [List.foldl_cons, List.foldl_nil, readLine]
  rw [hnot, stripPrefix_append, stripPrefix_append]
  simp only [parseIds_joinIds houts, parseIds_joinIds hins]

/-! ## Names apart -/

theorem isTmp_tmpName (name : String) : isTmp (tmpName name) = true := by
  rw [isTmp, tmpName, String.toList_ofList]
  exact List.isSuffixOf_iff_suffix.mpr (List.suffix_append _ _)

theorem getLast?_of_isTmp {name : String} (h : isTmp name = true) :
    name.toList.getLast? = some 'p' := by
  obtain ⟨front, hfront⟩ := List.isSuffixOf_iff_suffix.mp h
  rw [← hfront, show tmpSuffix = ['.', 't', 'm'] ++ ['p'] by decide +kernel,
    List.getLast?_append, List.getLast?_append]
  rfl

theorem getLast?_of_parse {name : String} {id level : Nat}
    (h : parseSstableFileName name = some (id, level)) : name.toList.getLast? = some 't' := by
  rw [parseSstableFileName, Option.bind_eq_bind, Option.bind_eq_some_iff] at h
  obtain ⟨rest, hrest, h⟩ := h
  rw [Option.bind_eq_some_iff] at h
  obtain ⟨stem, hstem, -⟩ := h
  rw [stripSuffix] at hstem
  split at hstem
  · rename_i hsuffix
    obtain ⟨front, hfront⟩ := List.isSuffixOf_iff_suffix.mp hsuffix
    rw [stripPrefix] at hrest
    split at hrest
    · have hrest := Option.some.inj hrest
      have hlast : rest.getLast? = some 't' := by
        rw [← hfront, show sstSuffix = ['.', 's', 's'] ++ ['t'] by decide +kernel,
          List.getLast?_append, List.getLast?_append]
        rfl
      rw [← List.take_append_drop sstablePrefix.length name.toList, hrest, List.getLast?_append,
        hlast]
      rfl
    · exact absurd hrest (by simp)
  · exact absurd hstem (by simp)

/-- A temporary file is not a table file. -/
theorem parse_eq_none_of_isTmp {name : String} (h : isTmp name = true) :
    parseSstableFileName name = none := by
  cases hparse : parseSstableFileName name with
  | none => rfl
  | some found =>
    obtain ⟨id, level⟩ := found
    have hlast := getLast?_of_parse hparse
    rw [getLast?_of_isTmp h] at hlast
    exact absurd hlast (by decide)

theorem isTmp_eq_false_of_parse {name : String} {id level : Nat}
    (h : parseSstableFileName name = some (id, level)) : isTmp name = false := by
  cases htmp : isTmp name with
  | false => rfl
  | true =>
    rw [parse_eq_none_of_isTmp htmp] at h
    cases h

/-- The log. -/
def walFile : String := "wal.log"

theorem fixed_names :
    parseSstableFileName walFile = none ∧ parseSstableFileName mergePendingFile = none ∧
      isTmp walFile = false ∧ isTmp mergePendingFile = false ∧ walFile ≠ mergePendingFile := by
  decide +kernel

end PebbleDB
