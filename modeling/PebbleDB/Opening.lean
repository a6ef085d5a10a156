import PebbleDB.Cleanup
import PebbleDB.WalFraming

/-!
# What opening makes of a directory

`Opens` says of a directory that opening it succeeds, and with what; it does not depend on the
order in which directories are listed. `wp_openWithOptions` ties it to the code. Wherever an opening
is stopped, the directory it leaves opens in the same way (`Opens.of_between`), and so does the
one it ends in (`Opens.again`).
-/

namespace PebbleDB

open EarlyExit

/-! ## Tables -/

/-- Each id belongs to one table file. -/
def DistinctIds (dir : Dir) : Prop :=
  ∀ name name' id level level', dir.get? name ≠ none → dir.get? name' ≠ none →
    parseSstableFileName name = some (id, level) →
    parseSstableFileName name' = some (id, level') → name = name'

theorem mem_discoverSstables {names : List String} {found : Discovered} :
    found ∈ discoverSstables names ↔
      found.name ∈ names ∧ parseSstableFileName found.name = some (found.id, found.level) := by
  rw [discoverSstables, List.mem_insertionSort, List.mem_filterMap]
  constructor
  · rintro ⟨name, hname, hparse⟩
    obtain ⟨⟨id, level⟩, hid, rfl⟩ := Option.map_eq_some_iff.mp hparse
    exact ⟨hname, hid⟩
  · rintro ⟨hname, hparse⟩
    exact ⟨found.name, hname, by rw [hparse]; rfl⟩

/-- Found files stand in ascending id order. -/
theorem pairwise_discoverSstables {dir : Dir} (hids : DistinctIds dir) {names : List String}
    (hnodup : names.Nodup) (hnames : ∀ name ∈ names, dir.get? name ≠ none) :
    (discoverSstables names).Pairwise fun a b => a.id < b.id := by
  have hsorted : (discoverSstables names).Pairwise fun a b => a.id ≤ b.id :=
    List.pairwise_insertionSort _ _
  have hdistinct : (discoverSstables names).Pairwise fun a b => a.name ≠ b.name := by
    refine (List.perm_insertionSort _ _).symm.pairwise ?_ fun hne => hne.symm
    rw [List.pairwise_filterMap]
    refine hnodup.imp fun {n n'} hne a ha b hb => ?_
    obtain ⟨_, -, rfl⟩ := Option.map_eq_some_iff.mp ha
    obtain ⟨_, -, rfl⟩ := Option.map_eq_some_iff.mp hb
    exact hne
  refine (hsorted.and hdistinct).imp_of_mem fun {a b} ha hb hab => ?_
  obtain ⟨hname, hparse⟩ := mem_discoverSstables.mp ha
  obtain ⟨hname', hparse'⟩ := mem_discoverSstables.mp hb
  refine lt_of_le_of_ne hab.1 fun heq => hab.2 ?_
  exact hids _ _ a.id a.level b.level (hnames _ hname) (hnames _ hname') hparse (heq ▸ hparse')

/-- Only the set of the table files decides what is found, and in which order. -/
theorem discoverSstables_congr {dir : Dir} (hids : DistinctIds dir) {names names' : List String}
    (hnodup : names.Nodup) (hnodup' : names'.Nodup) (hnames : ∀ name ∈ names, dir.get? name ≠ none)
    (hnames' : ∀ name ∈ names', dir.get? name ≠ none)
    (hsame : ∀ name, parseSstableFileName name ≠ none → (name ∈ names ↔ name ∈ names')) :
    discoverSstables names = discoverSstables names' := by
  have : Std.Irrefl fun a b : Discovered => a.id < b.id := ⟨fun a => lt_irrefl a.id⟩
  have : Std.Antisymm fun a b : Discovered => a.id < b.id :=
    ⟨fun a b hab hba => absurd hba hab.asymm⟩
  refine List.Pairwise.eq_of_mem_iff (pairwise_discoverSstables hids hnodup hnames)
    (pairwise_discoverSstables hids hnodup' hnames') fun found => ?_
  rw [mem_discoverSstables, mem_discoverSstables]
  refine and_congr_left fun hparse => hsame _ ?_
  rw [hparse]
  exact Option.some_ne_none _

/-! ## Reading back what was written -/

/-- The directory file of a table with this id and level. -/
def tableFileName (table : Nat × Nat) : String := sstableFileName table.2 table.1

/-- A listing of table files with distinct ids, in any order and among other files, gives back the
ids and levels in the order of the ids. -/
theorem discoverSstables_perm {tables : List (Nat × Nat)} (hids : (tables.map Prod.fst).Nodup)
    (hfits : ∀ table ∈ tables, table.1 < 2 ^ 64 ∧ table.2 < 2 ^ 32) {names others : List String}
    (hothers : ∀ name ∈ others, parseSstableFileName name = none)
    (hnames : names.Perm (tables.map tableFileName ++ others)) :
    ((discoverSstables names).map fun found => (found.id, found.level)).Perm tables ∧
      (discoverSstables names).Pairwise fun a b => a.id < b.id := by
  have hfound : (discoverSstables names).Perm
      (tables.map fun table => ⟨table.1, table.2, tableFileName table⟩) := by
    refine (List.perm_insertionSort _ _).trans ((hnames.filterMap _).trans ?_)
    rw [List.filterMap_append, List.filterMap_map]
    have hnone : ∀ f : String → Nat × Nat → Discovered,
        (others.filterMap fun name => (parseSstableFileName name).map (f name)) = [] := fun f =>
      List.filterMap_eq_nil_iff.mpr fun name hname => by rw [hothers name hname]; rfl
    rw [hnone, List.append_nil]
    refine List.Perm.of_eq ?_
    rw [← List.filterMap_eq_map]
    refine List.filterMap_congr fun table htable => ?_
    obtain ⟨hid, hlevel⟩ := hfits table htable
    simp only [Function.comp_apply, tableFileName, parse_sstableFileName hlevel hid]
    rfl
  refine ⟨?_, ?_⟩
  · have hmap := hfound.map fun found => (found.id, found.level)
    rwa [List.map_map, show ((fun found : Discovered => (found.id, found.level)) ∘
      fun table : Nat × Nat => ⟨table.1, table.2, tableFileName table⟩) = id from rfl,
      List.map_id] at hmap
  · have hsorted : (discoverSstables names).Pairwise fun a b => a.id ≤ b.id :=
      List.pairwise_insertionSort _ _
    have hdistinct : (discoverSstables names).Pairwise fun a b => a.id ≠ b.id := by
      refine hfound.symm.pairwise ?_ fun hne => hne.symm
      rw [List.pairwise_map]
      exact List.pairwise_map.mp hids
    exact (hsorted.and hdistinct).imp fun h => lt_of_le_of_ne h.1 h.2

theorem Disk.exists_perform (op : FileOp) {disk : Disk} (h : disk.stop = none) :
    ∃ disk', Disk.perform op disk = .ok () disk' ∧ disk'.dir = op.apply disk.dir ∧
      disk'.stop = none :=
  ⟨{ disk with dir := op.apply disk.dir, log := disk.log ++ [op] }, by rw [Disk.perform, h], rfl, h⟩

theorem writePendingMerge_eq (outputs inputs : List Nat) {disk : Disk} (h : disk.stop = none) :
    ∃ disk', writePendingMerge outputs inputs disk = .ok () disk' ∧
      disk'.dir.get? mergePendingFile = some (asBytes (markerText outputs inputs)) := by
  obtain ⟨disk₁, hwrite, hdir₁, hstop₁⟩ := Disk.exists_perform
    (.write (tmpName mergePendingFile) (asBytes (markerText outputs inputs))) h
  obtain ⟨disk₂, hrename, hdir₂, -⟩ := Disk.exists_perform
    (.rename (tmpName mergePendingFile) mergePendingFile) hstop₁
  have hwritten : disk₁.dir.get? (tmpName mergePendingFile) =
      some (asBytes (markerText outputs inputs)) := by
    rw [hdir₁, FileOp.apply, SortedMap.get?_insert, if_pos rfl]
  have hne : mergePendingFile ≠ tmpName mergePendingFile := by decide +kernel
  refine ⟨disk₂, ?_, ?_⟩
  · have hfound : Disk.fileExists (tmpName mergePendingFile) disk₁ = .ok true disk₁ := by
      rw [Disk.fileExists, hwritten]
      rfl
    rw [writePendingMerge, bind_of_ok hwrite, Disk.renameFile, bind_of_ok hfound, if_pos rfl,
      hrename]
  · rw [hdir₂, FileOp.apply, FileOp.contentOf, hwritten, SortedMap.get?_erase, if_neg hne,
      SortedMap.get?_insert, if_pos rfl]
    rfl

/-- The marker that `write_pending_merge` has written is read back as the two lists of ids. -/
theorem readPendingMerge_writePendingMerge {outputs inputs : List Nat}
    (houtputs : ∀ id ∈ outputs, id < 2 ^ 64) (hinputs : ∀ id ∈ inputs, id < 2 ^ 64) {disk : Disk}
    (h : disk.stop = none) :
    ∃ disk', writePendingMerge outputs inputs disk = .ok () disk' ∧
      readPendingMerge disk' = .ok (some (outputs, inputs)) disk' := by
  obtain ⟨disk', hok, hget⟩ := writePendingMerge_eq outputs inputs h
  refine ⟨disk', hok, ?_⟩
  rw [readPendingMerge_eq, readPending, hget]
  simp only [fromUtf8_asBytes, parsePending_markerText houtputs hinputs]
  rfl

/-- What recovery reads of a directory is what was written: the tables, whatever the order of the
listing, and the ids of a pending merge. -/
theorem recovery_reads_back {tables : List (Nat × Nat)} (hids : (tables.map Prod.fst).Nodup)
    (hfits : ∀ table ∈ tables, table.1 < 2 ^ 64 ∧ table.2 < 2 ^ 32) {names others : List String}
    (hothers : ∀ name ∈ others, parseSstableFileName name = none)
    (hnames : names.Perm (tables.map tableFileName ++ others)) {outputs inputs : List Nat}
    (houtputs : ∀ id ∈ outputs, id < 2 ^ 64) (hinputs : ∀ id ∈ inputs, id < 2 ^ 64) {disk : Disk}
    (hstop : disk.stop = none) :
    (((discoverSstables names).map fun found => (found.id, found.level)).Perm tables ∧
      (discoverSstables names).Pairwise fun a b => a.id < b.id) ∧
    ∃ disk', writePendingMerge outputs inputs disk = .ok () disk' ∧
      readPendingMerge disk' = .ok (some (outputs, inputs)) disk' :=
  ⟨discoverSstables_perm hids hfits hothers hnames,
    readPendingMerge_writePendingMerge houtputs hinputs hstop⟩

/-- Ids wider than the padding and a level above nine, listed in falling order next to the log; the
merge has no outputs. -/
theorem recovery_reads_back_wide :
    (((discoverSstables ["sstable_L12_18446744073709551615.sst", "wal.log",
        "sstable_L0_000007.sst"]).map fun found => (found.id, found.level)).Perm
          [(7, 0), (18446744073709551615, 12)]) ∧
      ∃ disk', writePendingMerge [] [7, 1234567]
          ⟨∅, [], ⟨fun _ names => names, fun _ _ => .refl _⟩, fun _ => false, none⟩ = .ok () disk' ∧
        readPendingMerge disk' = .ok (some ([], [7, 1234567])) disk' := by
  have hall := @recovery_reads_back [(7, 0), (18446744073709551615, 12)] (by decide) (by decide)
    ["sstable_L12_18446744073709551615.sst", "wal.log", "sstable_L0_000007.sst"] ["wal.log"]
    (by decide +kernel) (by decide +kernel) [] [7, 1234567] (by decide) (by decide)
    ⟨∅, [], ⟨fun _ names => names, fun _ _ => .refl _⟩, fun _ => false, none⟩ rfl
  exact ⟨hall.1.1, hall.2⟩

/-- The loop of `open` over the tables, on the directory that it reads. -/
def loadAll (dir : Dir) : List Discovered → List (List SSTable) → Nat →
    Res (List (List SSTable) × Nat)
  | [], levels, next => .ok (levels, next)
  | found :: rest, levels, next =>
    match dir.get? found.name with
    | none => err (.io .notFound)
    | some data => do
      let sst ← SSTable.load found.id found.name data
      let next ← bumpId found.id next
      loadAll dir rest (pushTable levels found.level sst) next

theorem loadTables_eq (founds : List Discovered) (levels : List (List SSTable)) (next : Nat)
    (disk : Disk) :
    loadTables founds levels next disk =
      fromExcept (loadAll disk.dir founds levels next) disk := by
  induction founds generalizing levels next with
  | nil => rfl
  | cons found founds ih =>
    rw [loadTables, loadAll]
    cases hdata : disk.dir.get? found.name with
    | none =>
      have hread : Disk.readFile found.name disk = .error (.error (.io .notFound)) disk := by
        rw [Disk.readFile, hdata]
      rw [bind_of_error hread]
      rfl
    | some data =>
      have hread : Disk.readFile found.name disk = .ok data disk := by rw [Disk.readFile, hdata]
      rw [bind_of_ok hread]
      dsimp only
      cases SSTable.load found.id found.name data with
      | error e => rfl
      | ok sst =>
        rw [bind_of_ok (fromExcept_ok rfl disk)]
        cases hnext : bumpId found.id next with
        | error e =>
          rw [bind_of_error (fromExcept_error rfl disk)]
          simp only [bind, Except.bind]
          rfl
        | ok next' =>
          rw [bind_of_ok (fromExcept_ok rfl disk), ih]
          simp only [bind, Except.bind]

theorem loadAll_congr {dir dir' : Dir} {founds : List Discovered}
    (h : ∀ found ∈ founds, dir'.get? found.name = dir.get? found.name)
    (levels : List (List SSTable)) (next : Nat) :
    loadAll dir' founds levels next = loadAll dir founds levels next := by
  induction founds generalizing levels next with
  | nil => rfl
  | cons found founds ih =>
    have ih := ih fun f hf => h f (List.mem_cons_of_mem _ hf)
    rw [loadAll, loadAll, h found List.mem_cons_self]
    simp only [ih]

/-! ## The log -/

/-- The log cut to the part that the reader accepted. -/
def cutLog (dir : Dir) (recovery : WalRecovery) : Dir :=
  dir.insert walFile ((FileOp.contentOf dir walFile).take recovery.validLen)

theorem setLen_eq_cutLog {dir : Dir} {recovery : WalRecovery}
    (h : recover (FileOp.contentOf dir walFile) = .ok recovery) :
    (FileOp.setLen walFile recovery.validLen).apply dir = cutLog dir recovery := by
  have hle := (recover_take h).1
  rw [FileOp.apply, cutLog, Nat.sub_eq_zero_of_le hle, List.replicate_zero, List.append_nil]

theorem create_cutLog (dir : Dir) (recovery : WalRecovery) :
    (FileOp.create walFile).apply (cutLog dir recovery) = cutLog dir recovery := by
  rw [FileOp.apply, FileOp.contentOf, cutLog, SortedMap.get?_insert, if_pos rfl, Option.getD_some]
  refine SortedMap.ext_get? fun name => ?_
  simp only [SortedMap.get?_insert]
  split <;> rfl

/-- Nothing was cut off. -/
theorem create_eq_cutLog {dir : Dir} {recovery : WalRecovery}
    (h : recovery.validLen = (FileOp.contentOf dir walFile).length) :
    (FileOp.create walFile).apply dir = cutLog dir recovery := by
  rw [FileOp.apply, cutLog, h, List.take_length]

theorem Disk.Steady.along_recoverWal {P : FileOp → Prop} {S : Disk → Disk → Prop}
    (h : Disk.Steady P S) (hlen : ∀ name len, P (.setLen name len)) : Along S recoverWal := by
  refine h.bind (h.along_fileExists _) fun _ => .ite ?_ (.pure h.refl _)
  refine h.bind (h.along_readFile _) fun _ => h.bind (.fromExcept h.refl _) fun _ => ?_
  exact .ite (h.bind (h.perform (hlen _ _)) fun _ => .pure h.refl _) (.pure h.refl _)

theorem along_recoverWal : Along Disk.Frame recoverWal :=
  Disk.Frame.steady.along_recoverWal fun _ _ => trivial

/-- The replay reads a log that is missing like an empty one. -/
theorem wp_recoverWal (disk : Disk) :
    Wp recoverWal
      (fun memtable disk' => ∃ recovery,
        recover (FileOp.contentOf disk.dir walFile) = .ok recovery ∧
        memtable = replay recovery.records ∧
        (FileOp.create walFile).apply disk'.dir = cutLog disk.dir recovery ∧
        (disk'.dir = disk.dir ∨ disk'.dir = cutLog disk.dir recovery))
      (fun _ disk' => (disk'.dir = disk.dir ∨ ∃ recovery,
          recover (FileOp.contentOf disk.dir walFile) = .ok recovery ∧
          disk'.dir = cutLog disk.dir recovery) ∧
        (disk.stop = none → ∀ recovery,
          recover (FileOp.contentOf disk.dir walFile) ≠ .ok recovery)) disk := by
  rw [recoverWal]
  refine Wp.bind (Disk.wp_fileExists (Wp.ite (fun hsome => ?_) fun hnone => ?_))
  · refine Wp.bind (Disk.wp_readFile (fun data hdata => ?_) fun hnone => ?_)
    · have hcontent : FileOp.contentOf disk.dir walFile = data := by
        rw [FileOp.contentOf, hdata, Option.getD_some]
      rw [hcontent]
      refine Wp.bind (Wp.fromExcept (fun recovery hrec => ?_) fun e he => ?_)
      · have hcut := setLen_eq_cutLog (hcontent ▸ hrec)
        refine Wp.ite (fun hlt => ?_) fun hge => ?_
        · refine Wp.bind (Disk.wp_perform (fun stop _ => ?_) fun cut hstop => ?_)
          · refine Wp.pure ⟨recovery, hrec, rfl, ?_, Or.inr hcut⟩
            rw [← create_cutLog disk.dir recovery, ← hcut]
          · refine ⟨?_, fun hnone => absurd hnone hstop⟩
            cases cut with
            | zero => exact Or.inl rfl
            | succ cut => exact Or.inr ⟨recovery, hrec, hcut⟩
        · have hle : recovery.validLen ≤ data.length := (recover_take hrec).1
          refine Wp.pure ⟨recovery, hrec, rfl, create_eq_cutLog ?_, Or.inl rfl⟩
          rw [hcontent]
          omega
      · exact ⟨Or.inl rfl, fun _ recovery hrec => by rw [hrec] at he; cases he⟩
    · rw [hnone] at hsome
      cases hsome
  · have hnone : disk.dir.get? walFile = none := by simpa using hnone
    have hcontent : FileOp.contentOf disk.dir walFile = [] := by
      rw [FileOp.contentOf, hnone, Option.getD_none]
    refine Wp.pure ⟨⟨[], 0⟩, ?_, rfl, create_eq_cutLog ?_, Or.inl rfl⟩
    · rw [hcontent]
      rfl
    · rw [hcontent]
      rfl

/-! ## Opening -/

/-- The directory without temporary files and without what the marker says is to go. -/
def merged (dir : Dir) (pending : Option (List Nat × List Nat)) : Dir :=
  (dir.drop isTmp).drop (goes (dir.drop isTmp) pending)

/-- A file that is left is the same as before. -/
theorem get?_merged {dir : Dir} {pending : Option (List Nat × List Nat)} {name : String}
    (h : (merged dir pending).get? name ≠ none) :
    (merged dir pending).get? name = dir.get? name := by
  have hstep := (cleared_drop (goes (dir.drop isTmp) pending) (dir.drop isTmp)).eq_of_ne_none h
  refine hstep.trans ((cleared_drop isTmp dir).eq_of_ne_none ?_)
  rw [← hstep]
  exact h

/-- Opening the directory succeeds: what goes can be removed, the tables load, the log is sound. -/
structure Opens (fails : String → Bool) (dir : Dir) (pending : Option (List Nat × List Nat))
    (recovery : WalRecovery) (levels : List (List SSTable)) (next : Nat) : Prop where
  tmp : Removable fails isTmp dir
  pending_eq : readPending (dir.drop isTmp) = .ok pending
  goes : Removable fails (goes (dir.drop isTmp) pending) (dir.drop isTmp)
  tables : loadAll (merged dir pending) (discoverSstables (merged dir pending).keys) [[]] 0 =
    .ok (levels, next)
  log : recover (FileOp.contentOf (merged dir pending) walFile) = .ok recovery

/-- Where an opening can be cut off. -/
inductive Between (dir dir' : Dir) : Prop where
  | clearing (h : Cleared isTmp dir dir')
  | merging (h : HalfMerged (dir.drop isTmp) dir')
  | logged (pending : Option (List Nat × List Nat)) (recovery : WalRecovery)
      (hpending : readPending (dir.drop isTmp) = .ok pending)
      (hlog : recover (FileOp.contentOf (merged dir pending) walFile) = .ok recovery)
      (h : dir' = cutLog (merged dir pending) recovery)

theorem wp_openWithOptions (options : DbOptions) (disk : Disk) (hids : DistinctIds disk.dir) :
    Wp (openWithOptions options)
      (fun db disk' => ∃ pending recovery,
        Opens disk.unlinkFails disk.dir pending recovery db.levels db.nextSstId ∧
        db.memtable = replay recovery.records ∧ db.options = options ∧
        db.fault = .new options.fault ∧ disk'.dir = cutLog (merged disk.dir pending) recovery)
      (fun _ disk' => Between disk.dir disk'.dir ∧
        (disk.stop = none → ∀ pending recovery levels next,
          ¬ Opens disk.unlinkFails disk.dir pending recovery levels next)) disk := by
  rw [openWithOptions]
  refine Wp.bind (Wp.of_eq_ok rfl ?_)
  rw [removeTmpFiles_eq]
  refine Wp.bind (((wp_removeListed isTmp 0 disk).and (along_removeWhere _ _ disk)).mono ?_ ?_)
  case refine_2 =>
    intro _ disk' h
    exact ⟨.clearing h.1.1, fun hnone _ _ _ _ hopens => h.1.2 hnone hopens.tmp⟩
  intro _ disk₁ h
  obtain ⟨⟨htmp, hdir₁⟩, hframe₁⟩ := h
  refine Wp.bind (((wp_finishPendingMerge disk₁).and (along_finishPendingMerge disk₁)).mono ?_ ?_)
  case refine_2 =>
    intro _ disk' h
    rw [hdir₁, hframe₁.unlinkFails] at h
    exact ⟨.merging h.1.1, fun hnone pending _ _ _ hopens =>
      h.1.2 (hframe₁.stop hnone) pending hopens.pending_eq hopens.goes⟩
  intro _ disk₂ h
  rw [hdir₁, hframe₁.unlinkFails] at h
  obtain ⟨⟨pending, hpending, hgoes, hdir₂⟩, hframe₂⟩ := h
  have hframe₂ := hframe₁.trans hframe₂
  have hdir₂ : disk₂.dir = merged disk.dir pending := hdir₂
  have hmerging : Between disk.dir disk₂.dir :=
    .merging (Or.inr ⟨pending, hpending, hdir₂ ▸ cleared_drop _ _, Or.inr hdir₂⟩)
  -- the marker decides what is there to load, so an opening that succeeds has the same one
  have hsame : ∀ pending' recovery levels next,
      Opens disk.unlinkFails disk.dir pending' recovery levels next → pending' = pending := by
    intro pending' recovery levels next hopens
    have heq := hopens.pending_eq
    rw [hpending] at heq
    exact (Except.ok.inj heq).symm
  refine Wp.bind (Wp.of_eq_ok rfl ?_)
  have hlisted : discoverSstables (disk₂.listing.order 2 disk₂.dir.keys) =
      discoverSstables disk₂.dir.keys := by
    have hperm := disk₂.listing.perm 2 disk₂.dir.keys
    have hsub : ∀ name ∈ disk₂.dir.keys, disk.dir.get? name ≠ none := by
      intro name hname
      have hne := SortedMap.mem_keys.mp hname
      rw [hdir₂] at hne
      rwa [get?_merged hne] at hne
    exact discoverSstables_congr hids (hperm.nodup_iff.mpr disk₂.dir.keys_nodup)
      disk₂.dir.keys_nodup (fun name hname => hsub name (hperm.mem_iff.mp hname)) hsub
      fun name _ => hperm.mem_iff
  rw [hlisted]
  refine Wp.bind ?_
  rw [Wp, loadTables_eq, hdir₂]
  cases htables : loadAll (merged disk.dir pending)
      (discoverSstables (merged disk.dir pending).keys) [[]] 0 with
  | error e =>
    refine ⟨hmerging, fun _ pending' recovery levels next hopens => ?_⟩
    have heq := hopens.tables
    rw [hsame _ _ _ _ hopens, htables] at heq
    cases heq
  | ok loaded =>
    obtain ⟨levels, next⟩ := loaded
    show Wp _ _ _ disk₂
    refine Wp.bind (((wp_recoverWal disk₂).and (along_recoverWal disk₂)).mono ?_ ?_)
    · intro memtable disk₃ h
      obtain ⟨⟨recovery, hlog, hmemtable, hcreate, hdir₃⟩, hframe₃⟩ := h
      rw [hdir₂] at hlog hcreate hdir₃
      refine Wp.bind (Disk.wp_perform (fun stop _ => ?_) fun cut hstop => ?_)
      · exact Wp.pure ⟨pending, recovery, ⟨htmp, hpending, hgoes, htables, hlog⟩, hmemtable, rfl,
          rfl, hcreate⟩
      · refine ⟨?_, fun hnone => absurd (hframe₃.stop (hframe₂.stop hnone)) hstop⟩
        · cases cut with
          | zero =>
            rcases hdir₃ with heq | heq
            · show Between disk.dir disk₃.dir
              rw [heq, ← hdir₂]
              exact hmerging
            · exact .logged pending recovery hpending hlog heq
          | succ cut => exact .logged pending recovery hpending hlog hcreate
    · intro _ disk' h
      obtain ⟨h, -⟩ := h
      rw [hdir₂] at h
      refine ⟨?_, fun hnone pending' recovery levels next hopens => ?_⟩
      · rcases h.1 with heq | ⟨recovery, hlog, heq⟩
        · rw [heq, ← hdir₂]
          exact hmerging
        · exact .logged pending recovery hpending hlog heq
      · have hlog := hopens.log
        rw [hsame _ _ _ _ hopens] at hlog
        exact h.2 (hframe₂.stop hnone) recovery hlog

/-! ## Opening again -/

theorem Dir.drop_eq_self {dir : Dir} {p : String → Bool}
    (h : ∀ name, p name = true → dir.get? name = none) : dir.drop p = dir := by
  refine SortedMap.ext_get? fun name => ?_
  rw [Dir.get?_drop]
  split
  · exact (h name ‹_›).symm
  · rfl

/-- There is nothing to clear away. -/
structure Clean (dir : Dir) : Prop where
  tmp : ∀ name, isTmp name = true → dir.get? name = none
  marker : dir.get? mergePendingFile = none

namespace Clean

variable {dir dir' : Dir}

theorem readPending_eq (h : Clean dir) : readPending dir = .ok none := by
  rw [readPending, h.marker]

theorem merged_eq (h : Clean dir) : merged dir none = dir := by
  rw [merged, Dir.drop_eq_self h.tmp]
  exact Dir.drop_eq_self fun _ hgoes => Bool.noConfusion hgoes

theorem merged {pending : Option (List Nat × List Nat)}
    (h : readPending (dir.drop isTmp) = .ok pending) : Clean (merged dir pending) := by
  have hgone : ∀ name, (dir.drop isTmp).get? name = none →
      (PebbleDB.merged dir pending).get? name = none := by
    intro name hnone
    rw [PebbleDB.merged, Dir.get?_drop]
    split
    · rfl
    · exact hnone
  constructor
  · intro name htmp
    exact hgone name (by rw [Dir.get?_drop, if_pos htmp])
  · cases pending with
    | none =>
      refine hgone _ ?_
      rw [readPending] at h
      split at h
      · assumption
      · split at h <;> cases h
    | some pending => rw [PebbleDB.merged, Dir.get?_drop, if_pos (goes_self _ _)]

theorem cutLog (h : Clean dir) (recovery : WalRecovery) : Clean (cutLog dir recovery) := by
  obtain ⟨-, -, hwal, -, hne⟩ := fixed_names
  constructor
  · intro name htmp
    rw [PebbleDB.cutLog, SortedMap.get?_insert, if_neg (by rintro rfl; rw [hwal] at htmp; cases htmp)]
    exact h.tmp name htmp
  · rw [PebbleDB.cutLog, SortedMap.get?_insert, if_neg hne.symm]
    exact h.marker

/-- A directory with nothing to clear away opens by its tables and its log. -/
theorem opens (h : Clean dir) (fails : String → Bool) {recovery : WalRecovery}
    {levels : List (List SSTable)} {next : Nat}
    (htables : loadAll dir (discoverSstables dir.keys) [[]] 0 = .ok (levels, next))
    (hlog : recover (FileOp.contentOf dir walFile) = .ok recovery) :
    Opens fails dir none recovery levels next := by
  have hdrop : dir.drop isTmp = dir := Dir.drop_eq_self h.tmp
  refine ⟨fun name hne htmp => absurd (h.tmp name htmp) hne, ?_, ?_, ?_, ?_⟩
  · rw [hdrop, h.readPending_eq]
  · exact fun _ _ hgoes => Bool.noConfusion hgoes
  · rw [h.merged_eq]
    exact htables
  · rw [h.merged_eq]
    exact hlog

end Clean

theorem cutLog_cutLog (dir : Dir) (recovery : WalRecovery) :
    cutLog (cutLog dir recovery) recovery = cutLog dir recovery := by
  refine SortedMap.ext_get? fun name => ?_
  simp only [cutLog, FileOp.contentOf, SortedMap.get?_insert, if_true, Option.getD_some,
    List.take_take, min_self]
  split <;> rfl

/-- The directory that an opening ends in. -/
theorem Opens.again {fails : String → Bool} {dir : Dir} {pending : Option (List Nat × List Nat)}
    {recovery : WalRecovery} {levels : List (List SSTable)} {next : Nat}
    (h : Opens fails dir pending recovery levels next) (hids : DistinctIds dir) :
    Opens fails (cutLog (merged dir pending) recovery) none recovery levels next := by
  have hclean := Clean.merged h.pending_eq
  have hwal := fixed_names.1
  have hget : ∀ name, parseSstableFileName name ≠ none →
      (cutLog (merged dir pending) recovery).get? name = (merged dir pending).get? name := by
    intro name hne
    rw [cutLog, SortedMap.get?_insert, if_neg (by rintro rfl; exact hne hwal)]
  have hsub : ∀ name, (merged dir pending).get? name ≠ none →
      (cutLog (merged dir pending) recovery).get? name ≠ none := by
    intro name hne
    rw [cutLog, SortedMap.get?_insert]
    split
    · exact Option.some_ne_none _
    · exact hne
  have hids' : DistinctIds (cutLog (merged dir pending) recovery) := by
    intro name name' id level level' hne hne' hparse hparse'
    rw [hget name (by rw [hparse]; exact Option.some_ne_none _)] at hne
    rw [hget name' (by rw [hparse']; exact Option.some_ne_none _)] at hne'
    exact hids name name' id level level' (get?_merged hne ▸ hne) (get?_merged hne' ▸ hne')
      hparse hparse'
  have hfound : discoverSstables (cutLog (merged dir pending) recovery).keys =
      discoverSstables (merged dir pending).keys := by
    refine discoverSstables_congr hids' (SortedMap.keys_nodup _) (SortedMap.keys_nodup _)
      (fun name hname => SortedMap.mem_keys.mp hname)
      (fun name hname => hsub name (SortedMap.mem_keys.mp hname)) fun name hne => ?_
    rw [SortedMap.mem_keys, SortedMap.mem_keys, hget name hne]
  refine (hclean.cutLog recovery).opens fails ?_ ?_
  · rw [hfound, @loadAll_congr (merged dir pending) _ _ fun found hfound => hget _ ?_]
    · exact h.tables
    · rw [(mem_discoverSstables.mp hfound).2]
      exact Option.some_ne_none _
  · rw [FileOp.contentOf, cutLog, SortedMap.get?_insert, if_pos rfl, Option.getD_some]
    exact (recover_take h.log).2

/-- No output of the marker is one of its inputs. -/
def MarkerDisjoint (dir : Dir) : Prop :=
  ∀ outputs inputs, readPending dir = .ok (some (outputs, inputs)) → ∀ id ∈ outputs, id ∉ inputs

theorem readPending_congr {dir dir' : Dir}
    (h : dir'.get? mergePendingFile = dir.get? mergePendingFile) :
    readPending dir' = readPending dir := by
  rw [readPending, readPending, h]

theorem readPending_drop (dir : Dir) : readPending (dir.drop isTmp) = readPending dir :=
  readPending_congr ((cleared_drop isTmp dir).eq_of_not fixed_names.2.2.2.1)

/-- As long as the marker is there, the same files go. -/
theorem goes_of_cleared {dir dir' : Dir} {pending : Option (List Nat × List Nat)}
    (hdisjoint : MarkerDisjoint dir) (hpending : readPending dir = .ok pending)
    (h : Cleared (goes dir pending) dir dir') : goes dir' pending = goes dir pending := by
  cases pending with
  | none => rfl
  | some pending =>
    obtain ⟨outputs, inputs⟩ := pending
    have htable : ∀ id ∈ outputs, hasTable dir' id = hasTable dir id := by
      intro id hid
      rw [Bool.eq_iff_iff, hasTable_iff, hasTable_iff]
      refine exists_congr fun name => exists_congr fun level => and_congr_left fun hparse => ?_
      refine ⟨fun hne => by rwa [h.eq_of_ne_none hne] at hne, fun hne => ?_⟩
      rw [h.eq_of_not]
      · exact hne
      · -- an output is no input, and it is not the marker either
        have hnot : name ≠ mergePendingFile := by
          rintro rfl
          rw [fixed_names.2.1] at hparse
          cases hparse
        have hin : isInput inputs name = false := by
          rw [isInput, hparse, Option.any_some, Bool.eq_false_iff]
          intro hcontains
          exact hdisjoint outputs inputs hpending id hid (List.contains_iff_mem.mp hcontains)
        rw [goes, decide_eq_false hnot, hin, Bool.and_false, Bool.false_or]
    funext name
    rw [goes, goes]
    congr 2
    rw [Bool.eq_iff_iff, List.all_eq_true, List.all_eq_true]
    exact forall₂_congr fun id hid => by rw [htable id hid]

/-- Wherever the opening was cut off, the directory it left opens with the same result. -/
theorem Opens.of_between {fails : String → Bool} {dir dir' : Dir}
    {pending : Option (List Nat × List Nat)} {recovery : WalRecovery}
    {levels : List (List SSTable)} {next : Nat}
    (h : Opens fails dir pending recovery levels next) (hids : DistinctIds dir)
    (hdisjoint : MarkerDisjoint dir) (hbetween : Between dir dir') :
    ∃ pending', Opens fails dir' pending' recovery levels next ∧
      cutLog (merged dir' pending') recovery = cutLog (merged dir pending) recovery := by
  have hsame : ∀ d, Cleared isTmp dir d → ∃ pending', Opens fails d pending' recovery levels next ∧
      cutLog (merged d pending') recovery = cutLog (merged dir pending) recovery := by
    intro d hcleared
    have hmerged : merged d pending = merged dir pending := by
      rw [merged, merged, hcleared.drop_eq]
    refine ⟨pending, ⟨hcleared.removable h.tmp, ?_, ?_, ?_, ?_⟩, ?_⟩
    · rw [hcleared.drop_eq]
      exact h.pending_eq
    · rw [hcleared.drop_eq]
      exact h.goes
    · rw [hmerged]
      exact h.tables
    · rw [hmerged]
      exact h.log
    · rw [hmerged]
  cases hbetween with
  | clearing hcleared => exact hsame dir' hcleared
  | merging hhalf =>
    rcases hhalf with rfl | ⟨pending', hpending', hcleared, hmarker⟩
    · exact hsame _ (cleared_drop isTmp dir)
    obtain rfl : pending' = pending := by
      rw [h.pending_eq] at hpending'
      exact (Except.ok.inj hpending').symm
    rcases hmarker with hmarker | rfl
    · have hdrop : dir'.drop isTmp = dir' := Dir.drop_eq_self fun name htmp => by
        rcases hcleared name with heq | hgone
        · rw [heq, Dir.get?_drop, if_pos htmp]
        · exact hgone.2
      have hgoes := goes_of_cleared (by
        intro outputs inputs hread
        rw [readPending_drop] at hread
        exact hdisjoint outputs inputs hread) h.pending_eq hcleared
      have hmerged : merged dir' pending' = merged dir pending' := by
        rw [merged, merged, hdrop, hgoes, hcleared.drop_eq]
      refine ⟨pending', ⟨?_, ?_, ?_, ?_, ?_⟩, by rw [hmerged]⟩
      · intro name hne htmp
        rw [← hdrop, Dir.get?_drop, if_pos htmp] at hne
        exact absurd rfl hne
      · rw [hdrop, readPending_congr hmarker]
        exact h.pending_eq
      · rw [hdrop, hgoes]
        exact hcleared.removable h.goes
      · rw [hmerged]
        exact h.tables
      · rw [hmerged]
        exact h.log
    · have hclean := Clean.merged h.pending_eq
      refine ⟨none, hclean.opens fails h.tables h.log, ?_⟩
      exact congrArg (fun d => cutLog d recovery) hclean.merged_eq
  | logged pending' recovery' hpending' hlog hdir =>
    obtain rfl : pending' = pending := by
      rw [h.pending_eq] at hpending'
      exact (Except.ok.inj hpending').symm
    obtain rfl : recovery' = recovery := by
      rw [h.log] at hlog
      exact (Except.ok.inj hlog).symm
    refine ⟨none, hdir ▸ h.again hids, ?_⟩
    rw [hdir, ((Clean.merged h.pending_eq).cutLog _).merged_eq, cutLog_cutLog]

/-! ## Repeating and restarting -/

theorem Opens.unique {fails : String → Bool} {dir : Dir}
    {pending pending' : Option (List Nat × List Nat)} {recovery recovery' : WalRecovery}
    {levels levels' : List (List SSTable)} {next next' : Nat}
    (h : Opens fails dir pending recovery levels next)
    (h' : Opens fails dir pending' recovery' levels' next') :
    pending' = pending ∧ recovery' = recovery ∧ levels' = levels ∧ next' = next := by
  have hpending := h'.pending_eq
  rw [h.pending_eq, Except.ok.injEq] at hpending
  subst hpending
  have hlog := h'.log
  rw [h.log, Except.ok.injEq] at hlog
  have htables := h'.tables
  rw [h.tables, Except.ok.injEq, Prod.mk.injEq] at htables
  exact ⟨rfl, hlog.symm, htables.1.symm, htables.2.symm⟩

theorem Disk.Steady.along_openWithOptions {P : FileOp → Prop} {S : Disk → Disk → Prop}
    (h : Disk.Steady P S) (hremove : ∀ name, P (.remove name))
    (hlen : ∀ name len, P (.setLen name len)) (hcreate : ∀ name, P (.create name))
    (options : DbOptions) : Along S (openWithOptions options) := by
  have hlist : ∀ i, Along S (Disk.readDir i) := fun i disk => h.refl disk
  have hload : ∀ founds levels next, Along S (loadTables founds levels next) :=
    fun founds levels next disk => by
      rw [Wp, loadTables_eq]
      exact Along.fromExcept h.refl _ disk
  rw [openWithOptions]
  refine h.bind (hlist 0) fun names => h.bind ?_ fun _ => ?_
  · rw [removeTmpFiles_eq]
    exact h.along_removeWhere hremove _ _
  refine h.bind (h.along_finishPendingMerge hremove) fun _ => h.bind (hlist 2) fun _ => ?_
  refine h.bind (hload _ _ _) fun loaded => h.bind (h.along_recoverWal hlen) fun _ => ?_
  exact h.bind (h.perform (hcreate _)) fun _ => .pure h.refl _

theorem along_openWithOptions (options : DbOptions) :
    Along Disk.Frame (openWithOptions options) :=
  Disk.Frame.steady.along_openWithOptions (fun _ => trivial) (fun _ _ => trivial)
    (fun _ => trivial) options

/-- Opening a directory that opens, without a stop. -/
theorem Opens.run {disk : Disk} {pending : Option (List Nat × List Nat)} {recovery : WalRecovery}
    {levels : List (List SSTable)} {next : Nat}
    (h : Opens disk.unlinkFails disk.dir pending recovery levels next)
    (hids : DistinctIds disk.dir) (hstop : disk.stop = none) (options : DbOptions) :
    ∃ disk', openWithOptions options disk =
        .ok ⟨replay recovery.records, levels, next, options, .new options.fault⟩ disk' ∧
      disk'.dir = cutLog (merged disk.dir pending) recovery := by
  have hwp := wp_openWithOptions options disk hids
  rw [Wp] at hwp
  split at hwp
  · rename_i db disk' hrun
    obtain ⟨pending', recovery', hopens, hmemtable, hoptions, hfault, hdir⟩ := hwp
    obtain ⟨rfl, rfl, hlevels, hnext⟩ := h.unique hopens
    refine ⟨disk', ?_, hdir⟩
    rw [hrun, ← hmemtable, ← hlevels, ← hnext, ← hfault, ← hoptions]
  · exact absurd h (hwp.2 hstop _ _ _ _)

/-- A file that is there, other than the log, was there before. -/
theorem Between.get?_eq {dir dir' : Dir} (h : Between dir dir') {name : String}
    (hwal : name ≠ walFile) (hne : dir'.get? name ≠ none) : dir'.get? name = dir.get? name := by
  cases h with
  | clearing h => exact h.eq_of_ne_none hne
  | merging h =>
    have hdrop := cleared_drop isTmp dir
    rcases h with rfl | ⟨_, _, h, _⟩
    · exact hdrop.eq_of_ne_none hne
    · have heq := h.eq_of_ne_none hne
      rw [heq]
      exact hdrop.eq_of_ne_none (heq ▸ hne)
  | logged pending recovery _ _ hdir =>
    have heq : dir'.get? name = (merged dir pending).get? name := by
      rw [hdir, cutLog, SortedMap.get?_insert, if_neg hwal]
    rw [heq]
    exact get?_merged (heq ▸ hne)

theorem Between.distinctIds {dir dir' : Dir} (h : Between dir dir') (hids : DistinctIds dir) :
    DistinctIds dir' := by
  intro name name' id level level' hne hne' hparse hparse'
  have hwal : ∀ {n l}, parseSstableFileName n = some (id, l) → n ≠ walFile := by
    rintro n l hp rfl
    rw [fixed_names.1] at hp
    cases hp
  refine hids name name' id level level' ?_ ?_ hparse hparse'
  · rw [← h.get?_eq (hwal hparse) hne]
    exact hne
  · rw [← h.get?_eq (hwal hparse') hne']
    exact hne'

theorem Between.markerDisjoint {dir dir' : Dir} (h : Between dir dir')
    (hdisjoint : MarkerDisjoint dir) : MarkerDisjoint dir' := by
  intro outputs inputs hread
  refine hdisjoint outputs inputs ?_
  rw [← hread]
  refine (readPending_congr (h.get?_eq fixed_names.2.2.2.2.symm fun hnone => ?_)).symm
  rw [readPending, hnone] at hread
  cases hread

/-- What opening reads from the directory is the same in both handles. -/
structure DbInner.SameContents (db db' : DbInner) : Prop where
  levels : db'.levels = db.levels
  memtable : db'.memtable = db.memtable
  nextSstId : db'.nextSstId = db.nextSstId

/-- Where opening a directory succeeds, opening it again gives the same and changes nothing, and so
does opening it after an opening that was cut off anywhere. -/
theorem open_repeats {options : DbOptions} {disk disk' : Disk} {db : DbInner}
    (hstop : disk.stop = none) (hids : DistinctIds disk.dir) (hdisjoint : MarkerDisjoint disk.dir)
    (hopen : openWithOptions options disk = .ok db disk') :
    (∀ options₂ listing, ∃ db₂ disk₂,
      openWithOptions options₂ { disk' with listing } = .ok db₂ disk₂ ∧
        db.SameContents db₂ ∧ disk₂.dir = disk'.dir) ∧
    (∀ options₁ listing₁ stop e disk₁,
      openWithOptions options₁ { disk with listing := listing₁, stop := some stop } =
        .error e disk₁ →
      ∀ options₂ listing₂, ∃ db₂ disk₂,
        openWithOptions options₂ { disk₁ with listing := listing₂, stop := none } =
          .ok db₂ disk₂ ∧
        db.SameContents db₂ ∧ disk₂.dir = disk'.dir) := by
  obtain ⟨pending, recovery, hopens, hmemtable, -, -, hdir⟩ :=
    (wp_openWithOptions options disk hids).ok_of_eq hopen
  have hframe : disk.Frame disk' := (along_openWithOptions options disk).ok_of_eq hopen
  constructor
  · intro options₂ listing
    have hagain := hopens.again hids
    have hbetween : Between disk.dir disk'.dir :=
      .logged pending recovery hopens.pending_eq hopens.log hdir
    rw [← hdir, ← hframe.unlinkFails] at hagain
    obtain ⟨disk₂, hrun, hdir₂⟩ := @Opens.run { disk' with listing } _ _ _ _ hagain
      (hbetween.distinctIds hids) (hframe.stop hstop) options₂
    refine ⟨_, disk₂, hrun, ⟨rfl, hmemtable.symm, rfl⟩, ?_⟩
    have hclean := (Clean.merged hopens.pending_eq).cutLog recovery
    rw [hdir₂, hdir, hclean.merged_eq, cutLog_cutLog]
  · intro options₁ listing₁ stop e disk₁ hrun options₂ listing₂
    have hframe₁ : Disk.Frame { disk with listing := listing₁, stop := some stop } disk₁ :=
      (along_openWithOptions options₁ _).exit_of_eq hrun
    have hbetween : Between disk.dir disk₁.dir :=
      ((wp_openWithOptions options₁ { disk with listing := listing₁, stop := some stop }
        hids).exit_of_eq hrun).1
    obtain ⟨pending', hopens', hcut⟩ := hopens.of_between hids hdisjoint hbetween
    have hfails : disk₁.unlinkFails = disk.unlinkFails := hframe₁.unlinkFails
    rw [← hfails] at hopens'
    obtain ⟨disk₂, hrun₂, hdir₂⟩ :=
      @Opens.run { disk₁ with listing := listing₂, stop := none } _ _ _ _ hopens'
        (hbetween.distinctIds hids) rfl options₂
    exact ⟨_, disk₂, hrun₂, ⟨rfl, hmemtable.symm, rfl⟩, (hdir₂.trans hcut).trans hdir.symm⟩

theorem distinctIds_of_keys {dir : Dir}
    (h : ∀ name ∈ dir.keys, ∀ name' ∈ dir.keys, parseSstableFileName name ≠ none →
      (parseSstableFileName name).map Prod.fst = (parseSstableFileName name').map Prod.fst →
      name = name') : DistinctIds dir := by
  intro name name' id level level' hne hne' hparse hparse'
  refine h name (SortedMap.mem_keys.mpr hne) name' (SortedMap.mem_keys.mpr hne') ?_ ?_
  · rw [hparse]
    exact Option.some_ne_none _
  · rw [hparse, hparse']
    rfl

/-- A directory after a merge that was cut off before its input was removed, with a temporary file
and a torn record at the end of the log. -/
def interruptedMerge : Disk where
  dir := .ofList [("sstable_L1_000001.sst", tableFile), ("sstable_L0_000000.sst", tableFile),
    (mergePendingFile, asBytes (markerText [1] [0])), ("sstable_L0_000002.sst.tmp", [1, 2]),
    (walFile, (WalRecord.set "k" "v").encode ++ [7])]
  log := []
  listing := ⟨fun _ names => names, fun _ _ => .refl _⟩
  unlinkFails := fun _ => false
  stop := none
where
  /-- The records `a ↦ 1`. -/
  tableFile : Bytes :=
    match @SSTable.writeSstable .ofSmall (.ofList [("a", .value "1")]) with
    | .ok file => file
    | .error _ => []

/-- Stopped behind its first removal, the opening of this directory can be taken up again. -/
theorem open_repeats_interruptedMerge : ∃ db disk' disk₁,
    openWithOptions .default interruptedMerge = .ok db disk' ∧
      disk'.dir.keys = ["sstable_L1_000001.sst", "wal.log"] ∧
      openWithOptions .default { interruptedMerge with stop := some ⟨1, 1⟩ } =
        .error .stopped disk₁ ∧
      ∃ db₂ disk₂, openWithOptions .default { disk₁ with stop := none } = .ok db₂ disk₂ ∧
        db.SameContents db₂ ∧ disk₂.dir = disk'.dir := by
  have hids : DistinctIds interruptedMerge.dir := distinctIds_of_keys (by decide +kernel)
  have hmarker : readPending interruptedMerge.dir = .ok (some ([1], [0])) := by decide +kernel
  have hdisjoint : MarkerDisjoint interruptedMerge.dir := by
    intro outputs inputs hread id hid
    rw [hmarker, Except.ok.injEq, Option.some.injEq, Prod.mk.injEq] at hread
    rw [← hread.1, List.mem_singleton] at hid
    rw [← hread.2, hid]
    decide
  have hopen : check (openWithOptions .default) interruptedMerge (fun _ disk' =>
      decide (disk'.dir.keys = ["sstable_L1_000001.sst", "wal.log"])) = true := by decide +kernel
  have hstop : checkExit (openWithOptions .default)
      { interruptedMerge with stop := some ⟨1, 1⟩ } (fun e _ => decide (e = .stopped)) = true := by
    decide +kernel
  obtain ⟨db, disk', hrun, hkeys⟩ := exists_of_check hopen
  obtain ⟨e, disk₁, hrun₁, he⟩ := exists_of_checkExit hstop
  obtain rfl := of_decide_eq_true he
  refine ⟨db, disk', disk₁, hrun, of_decide_eq_true hkeys, hrun₁, ?_⟩
  exact (open_repeats rfl hids hdisjoint hrun).2 .default interruptedMerge.listing _ _ _ hrun₁
    .default disk₁.listing

end PebbleDB
