import Mathlib.Logic.Function.Basic
import PebbleDB.Frame
import PebbleDB.Tables

/-!
# Writing table files

Opening removes temporary files first, so a directory means what it holds apart from them
(`settled`). Under this reading every change of the directory is atomic: a table file appears
when it is renamed (`wp_writeLevelFile`), and a job's outputs appear one after the other
(`wp_writeAll`), wherever the writing is cut off.
-/

namespace PebbleDB

open EarlyExit

/-! ## Directories without temporary files -/

/-- The files that opening keeps. -/
def settled (dir : Dir) (name : String) : Option Bytes :=
  if isTmp name then none else dir.get? name

theorem settled_of_not_tmp {dir : Dir} {name : String} (h : isTmp name = false) :
    settled dir name = dir.get? name := by
  rw [settled, h]
  rfl

theorem settled_insert_tmp (dir : Dir) (name : String) (data : Bytes) :
    settled (dir.insert (tmpName name) data) = settled dir := by
  funext other
  rw [settled, settled, SortedMap.get?_insert]
  by_cases h : other = tmpName name
  · rw [h, if_pos (isTmp_tmpName name), if_pos (isTmp_tmpName name)]
  · rw [if_neg h]

theorem settled_insert {dir : Dir} {name : String} (h : isTmp name = false) (data : Bytes) :
    settled (dir.insert name data) = Function.update (settled dir) name (some data) := by
  funext other
  rw [settled, SortedMap.get?_insert, Function.update_apply]
  by_cases hname : other = name
  · rw [if_pos hname, if_pos hname, hname, h]
    rfl
  · rw [if_neg hname, if_neg hname, settled]

theorem settled_erase (dir : Dir) (name : String) :
    settled (dir.erase name) = Function.update (settled dir) name none := by
  funext other
  rw [settled, SortedMap.get?_erase, Function.update_apply]
  by_cases hname : other = name
  · rw [if_pos hname, if_pos hname]
    exact ite_self none
  · rw [if_neg hname, if_neg hname, settled]

theorem settled_erase_tmp (dir : Dir) (name : String) :
    settled (dir.erase (tmpName name)) = settled dir := by
  rw [settled_erase]
  exact Function.update_eq_self_iff.mpr (if_pos (isTmp_tmpName name)).symm

/-- Renaming a temporary file puts its content under the new name. -/
theorem settled_rename {dir : Dir} {name : String} {data : Bytes} (h : isTmp name = false)
    (hdata : dir.get? (tmpName name) = some data) :
    settled ((FileOp.rename (tmpName name) name).apply dir) =
      Function.update (settled dir) name (some data) := by
  rw [FileOp.apply, FileOp.contentOf, hdata, settled_erase_tmp, settled_insert h]
  rfl

theorem settled_rename_cut {dir : Dir} {name : String} {data : Bytes} (h : isTmp name = false)
    (hdata : dir.get? (tmpName name) = some data) (cut : Nat) :
    settled ((FileOp.rename (tmpName name) name).applyCut cut dir) = settled dir ∨
      settled ((FileOp.rename (tmpName name) name).applyCut cut dir) =
        Function.update (settled dir) name (some data) := by
  cases cut with
  | zero => exact Or.inl rfl
  | succ cut => exact Or.inr (settled_rename h hdata)

theorem settled_write_tmp_cut (dir : Dir) (name : String) (data : Bytes) (cut : Nat) :
    settled ((FileOp.write (tmpName name) data).applyCut cut dir) = settled dir := by
  cases cut with
  | zero => rfl
  | succ cut => exact settled_insert_tmp dir name _

/-- The files of the directory of a world that opening keeps. -/
abbrev World.files (w : World) : String → Option Bytes := settled w.disk.dir

/-! ## Sizes -/

theorem sstableFileName_ne_marker (level id : Nat) :
    tmpName (sstableFileName level id) ≠ tmpName mergePendingFile := by
  intro heq
  have hchars := congrArg String.toList heq
  rw [tmpName, tmpName, String.toList_ofList, String.toList_ofList, List.append_left_inj,
    sstableFileName, String.toList_ofList] at hchars
  have hhead := congrArg List.head? hchars
  rw [show sstablePrefix = 's' :: "stable_".toList by decide +kernel,
    show mergePendingFile.toList = 'm' :: "erge.pending".toList by decide +kernel] at hhead
  simp at hhead

/-- A table file that is written has its filter, and all in front of it, within the reach of the
`u32` offsets (`SSTable.offsetsFit_iff`). The only other file that is written whole is the marker of
a pending merge. -/
def FileOp.Fits : FileOp → Prop
  | write name data => name = tmpName mergePendingFile ∨ SSTable.OffsetsFit data
  | _ => True

instance : DecidablePred FileOp.Fits := fun op => by
  cases op <;> unfold FileOp.Fits <;> infer_instance

/-- All table files that were written fit. -/
def Disk.Fits (disk : Disk) : Prop := ∀ op ∈ disk.log, op.Fits

instance (disk : Disk) : Decidable disk.Fits := inferInstanceAs (Decidable (∀ op ∈ _, _))

theorem Disk.Fits.offsetsFit {disk : Disk} (h : disk.Fits) {level id : Nat} {data : Bytes}
    (hmem : FileOp.write (tmpName (sstableFileName level id)) data ∈ disk.log) :
    SSTable.OffsetsFit data := (h _ hmem).resolve_left (sstableFileName_ne_marker level id)

theorem Disk.Frame.fits {disk disk' : Disk} (h : disk.Frame disk') (hfits : disk'.Fits) :
    disk.Fits := fun op hop => hfits op (h.log.subset hop)

/-- A statement that needs the files of the whole run to fit can use that those so far do. -/
theorem Wp.of_fits {α : Type} {x : OpM α} {ok : α → World → Prop} {exit : Exit → World → Prop}
    {w : World} (halong : Along World.Frame x) (h : w.disk.Fits → Wp x ok exit w) :
    Wp x (fun a w' => w'.disk.Fits → ok a w') (fun e w' => w'.disk.Fits → exit e w') w := by
  have hframe := halong w
  rw [Wp] at hframe ⊢
  cases hx : x w with
  | ok a w' =>
    rw [hx] at hframe
    exact fun hfits => Wp.ok_of_eq (h (hframe.disk.fits hfits)) hx
  | error e w' =>
    rw [hx] at hframe
    exact fun hfits => Wp.exit_of_eq (h (hframe.disk.fits hfits)) hx

/-- The files so far fit if those at the end do. -/
theorem Wp.assume_fits {α : Type} {x : OpM α} {ok : α → World → Prop} {exit : Exit → World → Prop}
    {w : World} (halong : Along World.Frame x)
    (h : w.disk.Fits →
      Wp x (fun a w' => w'.disk.Fits → ok a w') (fun e w' => w'.disk.Fits → exit e w') w) :
    Wp x (fun a w' => w'.disk.Fits → ok a w') (fun e w' => w'.disk.Fits → exit e w') w :=
  (Wp.of_fits halong h).mono (fun _ _ hw' hfits => hw' hfits hfits)
    fun _ _ hw' hfits => hw' hfits hfits

/-! ## One table file -/

/-- What a loaded table remembers of the call. -/
theorem SSTable.parse_eq_ok {id : Nat} {path : String} {data : Bytes} {sst : SSTable}
    (h : SSTable.parse id path data = .ok sst) :
    sst.id = id ∧ sst.path = path ∧ sst.data = data := by
  unfold SSTable.parse at h
  simp only [bind, Except.bind, pure, Except.pure, sstErr] at h
  repeat' split at h
  all_goals first
    | (cases h; exact ⟨rfl, rfl, rfl⟩)
    | cases h

theorem SSTable.load_eq_ok {id : Nat} {path : String} {data : Bytes} {sst : SSTable}
    (h : SSTable.load id path data = .ok sst) :
    sst.id = id ∧ sst.path = path ∧ sst.data = data := by
  rw [SSTable.load] at h
  cases hparse : SSTable.parse id path data with
  | error e =>
    rw [hparse] at h
    cases h
  | ok parsed =>
    rw [hparse] at h
    cases h
    have hparsed := SSTable.parse_eq_ok hparse
    rw [SSTable.deriveLastKey]
    split <;> exact hparsed

/-- The fields of a handle that a reader uses. -/
structure DbInner.SameData (db db' : DbInner) : Prop where
  memtable : db'.memtable = db.memtable
  levels : db'.levels = db.levels

theorem DbInner.SameData.refl (db : DbInner) : db.SameData db := ⟨rfl, rfl⟩

theorem DbInner.SameData.trans {a b c : DbInner} (h : a.SameData b) (h' : b.SameData c) :
    a.SameData c := ⟨h'.memtable.trans h.memtable, h'.levels.trans h.levels⟩

/-- A fault point was passed: only the injector has counted. -/
structure World.Passed (w w' : World) : Prop where
  data : w.inner.SameData w'.inner
  disk : w'.disk = w.disk
  nextSstId : w'.inner.nextSstId = w.inner.nextSstId
  frame : w.Frame w'

theorem World.files_of_disk {w w' : World} (h : w'.disk = w.disk) : w'.files = w.files := by
  rw [World.files, World.files, h]

theorem World.Passed.files {w w' : World} (h : w.Passed w') : w'.files = w.files :=
  World.files_of_disk h.disk

theorem wp_passed (point : FaultPoint) (w : World) :
    Wp (hit point) (fun _ w' => w.Passed w') (fun _ w' => w.Passed w') w := by
  have h : Wp (hit point)
      (fun _ w' => w.inner.SameData w'.inner ∧ w'.disk = w.disk ∧
        w'.inner.nextSstId = w.inner.nextSstId)
      (fun _ w' => w.inner.SameData w'.inner ∧ w'.disk = w.disk ∧
        w'.inner.nextSstId = w.inner.nextSstId) w :=
    wp_hit (fun _ => ⟨⟨rfl, rfl⟩, rfl, rfl⟩) fun _ _ => ⟨⟨rfl, rfl⟩, rfl, rfl⟩
  exact ((along_hit point w).and h).mono
    (fun _ _ ⟨hframe, hdata, hdisk, hnext⟩ => ⟨hdata, hdisk, hnext, hframe⟩)
    fun _ _ ⟨hframe, hdata, hdisk, hnext⟩ => ⟨hdata, hdisk, hnext, hframe⟩

/-- The file holds this table. -/
def SSTable.StoredIn (files : String → Option Bytes) (sst : SSTable) : Prop :=
  ∃ data, files sst.path = some data ∧ SSTable.load sst.id sst.path data = .ok sst

section Writing

variable [BloomSizing] {level : Nat} {entries : SortedMap String SSTableEntry} {w w' : World}

/-- A file written by `write_level_file`, not yet read back. -/
structure FileAdded (level : Nat) (entries : SortedMap String SSTableEntry) (w w' : World) :
    Prop where
  data : w.inner.SameData w'.inner
  nextSstId : w'.inner.nextSstId = w.inner.nextSstId + 1
  idFits : w.inner.nextSstId + 1 < 2 ^ 64
  files : ∃ file, SSTable.writeSstable entries = .ok file ∧
    FileOp.write (tmpName (sstableFileName level w.inner.nextSstId)) file ∈ w'.disk.log ∧
    w'.files = Function.update w.files (sstableFileName level w.inner.nextSstId) (some file)

/-- What the caller of `write_level_file` gets. -/
structure Wrote (level : Nat) (entries : SortedMap String SSTableEntry) (w w' : World)
    (sst : SSTable) : Prop extends FileAdded level entries w w' where
  id : sst.id = w.inner.nextSstId
  path : sst.path = sstableFileName level w.inner.nextSstId
  stored : sst.StoredIn w'.files
  holds : w'.disk.Fits → sst.Holds entries

/-- How `write_level_file` can be cut off. -/
structure WriteExit (level : Nat) (entries : SortedMap String SSTableEntry) (w : World) (e : Exit)
    (w' : World) : Prop where
  data : w.inner.SameData w'.inner
  files : w'.files = w.files ∨ FileAdded level entries w w'
  ends : w'.disk.Fits → e ≠ .outOfFuel

/-- A fault point at which nothing has been added yet. -/
theorem WriteExit.of_hit {injector : FaultInjector} {point : FaultPoint} {e : Exit}
    (h : (injector.hit point).1 = .error e) (hdata : w.inner.SameData w'.inner)
    (hfiles : w'.files = w.files ∨ FileAdded level entries w w') :
    WriteExit level entries w e w' :=
  ⟨hdata, hfiles, fun _ => FaultInjector.hit_ends h⟩

/-- `write_level_file` adds one file and reads it back; cut off, it has added it or has added
nothing. -/
theorem wp_writeLevelFile (hlevel : level < 2 ^ 32) (w : World) :
    Wp (writeLevelFile level entries) (fun sst w' => Wrote level entries w w' sst)
      (fun e w' => WriteExit level entries w e w') w := by
  rw [writeLevelFile]
  refine Wp.bind (Wp.get ?_)
  refine Wp.ite (fun _ => Wp.throw ⟨.refl _, Or.inl rfl, fun _ => Exit.noConfusion⟩) fun hid => ?_
  have hid : w.inner.nextSstId + 1 < 2 ^ 64 := not_le.mp hid
  have hname : isTmp (sstableFileName level w.inner.nextSstId) = false :=
    isTmp_eq_false_of_parse (parse_sstableFileName hlevel (by omega))
  refine Wp.bind (Wp.modify ?_)
  refine Wp.bind (wp_hit (fun _ => ?_) fun _ hhit => .of_hit hhit ⟨rfl, rfl⟩ (Or.inl rfl))
  refine Wp.bind (Wp.fromExcept (fun file hfile => ?_) fun e he => ?_)
  case refine_2 =>
    obtain ⟨file, hfile⟩ := SSTable.writeSstable_ok entries
    rw [hfile] at he
    cases he
  refine Wp.bind (Wp.onPart (Disk.wp_perform (fun stop _ => ?_) fun cut _ => ?_))
  case refine_2 =>
    exact ⟨⟨rfl, rfl⟩, Or.inl (settled_write_tmp_cut _ _ _ _), fun _ => Exit.noConfusion⟩
  have hwritten : settled ((FileOp.write (tmpName (sstableFileName level w.inner.nextSstId))
      file).apply w.disk.dir) = w.files := settled_insert_tmp _ _ _
  have hdata : ((FileOp.write (tmpName (sstableFileName level w.inner.nextSstId))
      file).apply w.disk.dir).get? (tmpName (sstableFileName level w.inner.nextSstId)) =
        some file := by
    rw [FileOp.apply, SortedMap.get?_insert, if_pos rfl]
  generalize (FileOp.write (tmpName (sstableFileName level w.inner.nextSstId))
    file).apply w.disk.dir = dir at hwritten hdata ⊢
  refine Wp.bind (wp_hit (fun _ => ?_) fun _ hhit => .of_hit hhit ⟨rfl, rfl⟩ (Or.inl hwritten))
  refine Wp.bind (wp_hit (fun _ => ?_) fun _ hhit => .of_hit hhit ⟨rfl, rfl⟩ (Or.inl hwritten))
  refine Wp.bind (Wp.onPart (Wp.bind (Disk.wp_fileExists (Wp.ite (fun _ => ?_) fun hnone => ?_))))
  case refine_2 =>
    rw [hdata] at hnone
    exact absurd rfl hnone
  have hadded : ∀ (inner : DbInner) (stop : Option Stop) (log : List FileOp),
      w.inner.SameData inner → inner.nextSstId = w.inner.nextSstId + 1 →
      FileOp.write (tmpName (sstableFileName level w.inner.nextSstId)) file ∈ log →
      FileAdded level entries w ⟨inner, { w.disk with
        dir := (FileOp.rename (tmpName (sstableFileName level w.inner.nextSstId))
          (sstableFileName level w.inner.nextSstId)).apply dir, log, stop }⟩ :=
    fun _ _ _ hsame hnext hlog => ⟨hsame, hnext, hid, file, hfile, hlog, by
      rw [← hwritten]; exact settled_rename hname hdata⟩
  refine Disk.wp_perform (fun stop _ => ?_) fun cut _ => ?_
  case refine_2 =>
    refine ⟨⟨rfl, rfl⟩, ?_, fun _ => Exit.noConfusion⟩
    cases cut with
    | zero => exact Or.inl hwritten
    | succ cut => exact Or.inr (hadded _ _ _ ⟨rfl, rfl⟩ rfl (by simp))
  refine Wp.bind (wp_hit (fun _ => ?_) fun _ hhit =>
    .of_hit hhit ⟨rfl, rfl⟩ (Or.inr (hadded _ _ _ ⟨rfl, rfl⟩ rfl (by simp))))
  have hfiles : settled ((FileOp.rename (tmpName (sstableFileName level w.inner.nextSstId))
      (sstableFileName level w.inner.nextSstId)).apply dir) =
        Function.update w.files (sstableFileName level w.inner.nextSstId) (some file) := by
    rw [← hwritten]
    exact settled_rename hname hdata
  refine Wp.bind (Wp.onPart (Disk.wp_readFile (fun data hread => ?_) fun _ => ?_))
  case refine_2 =>
    exact ⟨⟨rfl, rfl⟩, Or.inr (hadded _ _ _ ⟨rfl, rfl⟩ rfl (by simp)), fun _ => Exit.noConfusion⟩
  obtain rfl : data = file := by
    have := congrFun hfiles (sstableFileName level w.inner.nextSstId)
    rw [settled_of_not_tmp hname, Function.update_self] at this
    exact Option.some.inj (hread.symm.trans this)
  have hloads := fun hfits => SSTable.load_holds hfile hfits w.inner.nextSstId
    (sstableFileName level w.inner.nextSstId)
  refine Wp.fromExcept (fun sst hload => ?_) fun e he => ?_
  case refine_2 =>
    refine ⟨⟨rfl, rfl⟩, Or.inr (hadded _ _ _ ⟨rfl, rfl⟩ rfl (by simp)), fun hfits => ?_⟩
    obtain ⟨sst, hload, -⟩ := hloads (hfits.offsetsFit (show FileOp.write (tmpName
      (sstableFileName level w.inner.nextSstId)) data ∈ _ by simp))
    rw [hload] at he
    cases he
  obtain ⟨hsstid, hsstpath, -⟩ := SSTable.load_eq_ok hload
  refine ⟨hadded _ _ _ ⟨rfl, rfl⟩ rfl (by simp), hsstid, hsstpath, ⟨data, ?_, ?_⟩, ?_⟩
  · rw [hsstpath]
    exact (congrFun hfiles _).trans (Function.update_self _ _ _)
  · rw [hsstid, hsstpath]
    exact hload
  · intro hfits
    obtain ⟨sst', hload', hholds, -⟩ := hloads (hfits.offsetsFit (show FileOp.write (tmpName
      (sstableFileName level w.inner.nextSstId)) data ∈ _ by simp))
    rw [hload] at hload'
    cases hload'
    exact hholds

end Writing

end PebbleDB
