import PebbleDB.Directory

/-!
# What a directory restores

`Restores` says of a directory which tables and which memtable the next opening gets out of it,
whether it ends a merge on the way or not. An opening of such a directory returns unless the process
stops in it, and then the directory restores the same (`Restores.wp_openWithOptions`).
-/

namespace PebbleDB

open EarlyExit Leveled

/-! ## The log -/

/-- The log holds these records, and behind them what an append left that was cut off. -/
structure LogHolds (files : String → Option Bytes) (rs : List WalRecord) (torn : Bytes) : Prop where
  fits : ∀ r ∈ rs, r.Fits
  tail : TornTail torn
  eq : (files walFile).getD [] = encodeAll rs ++ torn

namespace LogHolds

variable {files files' : String → Option Bytes} {rs : List WalRecord} {torn : Bytes}

theorem recover_eq (h : LogHolds files rs torn) :
    recover ((files walFile).getD []) = .ok ⟨rs, (encodeAll rs).length⟩ := by
  rw [h.eq, recover_encodeAll h.fits h.tail]

theorem congr (h : LogHolds files rs torn) (hwal : files' walFile = files walFile) :
    LogHolds files' rs torn := ⟨h.fits, h.tail, by rw [hwal]; exact h.eq⟩

end LogHolds

/-! ## Restoring -/

/-- The next opening of the directory finds these tables, and in the log this memtable. -/
structure Restores (dir : Dir) (tables : Set Placed) (memtable : SortedMap String MemtableEntry) :
    Prop where
  pending : ∃ pending, readPending dir = .ok pending ∧
    TableFiles (settled (merged dir pending)) tables
  distinct : DistinctIds dir
  disjoint : MarkerDisjoint dir
  log : ∃ rs torn, LogHolds (settled dir) rs torn ∧ replay rs = memtable

theorem drop_isTmp_congr {dir dir' : Dir} (h : settled dir' = settled dir) :
    dir'.drop isTmp = dir.drop isTmp := by
  refine SortedMap.ext_get? fun name => ?_
  rw [TableFiles.drop_isTmp, TableFiles.drop_isTmp, h]

theorem merged_congr {dir dir' : Dir} (h : settled dir' = settled dir)
    (pending : Option (List Nat × List Nat)) : merged dir' pending = merged dir pending := by
  rw [merged, merged, drop_isTmp_congr h]

theorem readPending_of_settled {dir dir' : Dir} (h : settled dir' = settled dir) :
    readPending dir' = readPending dir := by
  refine readPending_congr ?_
  rw [← settled_of_not_tmp isTmp_mergePendingFile, h, settled_of_not_tmp isTmp_mergePendingFile]

theorem readPending_marker {dir : Dir} {outputs inputs : List Nat}
    (hmarker : settled dir mergePendingFile = some (asBytes (markerText outputs inputs)))
    (houtputs : ∀ id ∈ outputs, id < 2 ^ 64) (hinputs : ∀ id ∈ inputs, id < 2 ^ 64) :
    readPending dir = .ok (some (outputs, inputs)) := by
  rw [readPending, ← settled_of_not_tmp isTmp_mergePendingFile, hmarker]
  simp only [fromUtf8_asBytes, parsePending_markerText houtputs hinputs]

theorem goes_walFile (dir : Dir) (pending : Option (List Nat × List Nat)) :
    goes dir pending walFile = false := by
  obtain ⟨hparse, -, -, -, hne⟩ := fixed_names
  cases pending with
  | none => rfl
  | some pending =>
    rw [goes, decide_eq_false hne, Bool.false_or, isInput, hparse, Option.any_none, Bool.and_false]

/-- Ending a merge leaves the log alone. -/
theorem contentOf_merged (dir : Dir) (pending : Option (List Nat × List Nat)) :
    FileOp.contentOf (merged dir pending) walFile = (settled dir walFile).getD [] := by
  rw [FileOp.contentOf, merged, Dir.get?_drop, goes_walFile, TableFiles.drop_isTmp]
  rfl

theorem distinctIds_congr {dir dir' : Dir}
    (h : ∀ name, parseSstableFileName name ≠ none → dir'.get? name ≠ none → dir.get? name ≠ none)
    (hids : DistinctIds dir) : DistinctIds dir' := by
  intro name name' id level level' hne hne' hparse hparse'
  have hsome : ∀ {n l}, parseSstableFileName n = some (id, l) → parseSstableFileName n ≠ none :=
    fun hp => by rw [hp]; exact Option.some_ne_none _
  exact hids name name' id level level' (h name (hsome hparse) hne) (h name' (hsome hparse') hne')
    hparse hparse'

namespace Restores

variable {dir dir' : Dir} {tables : Set Placed} {memtable : SortedMap String MemtableEntry}

/-- Temporary files do not matter. -/
theorem congr (h : Restores dir tables memtable) (hsettled : settled dir' = settled dir) :
    Restores dir' tables memtable := by
  obtain ⟨pending, hpending, hfiles⟩ := h.pending
  refine ⟨⟨pending, ?_, ?_⟩, distinctIds_congr (fun name hparse hne => ?_) h.distinct, ?_, ?_⟩
  · rw [readPending_of_settled hsettled, hpending]
  · rw [merged_congr hsettled]
    exact hfiles
  · rw [← TableFiles.settled_of_parse hparse] at hne ⊢
    rw [← hsettled]
    exact hne
  · intro outputs inputs hread
    rw [readPending_of_settled hsettled] at hread
    exact h.disjoint outputs inputs hread
  · rw [hsettled]
    exact h.log

/-- A directory without a marker. -/
theorem of_tables (h : TableFiles (settled dir) tables) (hmarker : settled dir mergePendingFile = none)
    {rs : List WalRecord} {torn : Bytes} (hlog : LogHolds (settled dir) rs torn)
    (hreplay : replay rs = memtable) : Restores dir tables memtable := by
  have hnone : readPending dir = .ok none := by
    rw [readPending, ← settled_of_not_tmp isTmp_mergePendingFile, hmarker]
  have hmerged : settled (merged dir none) = settled dir := by
    have hdrop : merged dir none = dir.drop isTmp :=
      Dir.drop_eq_self fun _ hgoes => Bool.noConfusion hgoes
    rw [hdrop, TableFiles.settled_drop_isTmp]
  refine ⟨⟨none, hnone, by rw [hmerged]; exact h⟩, h.distinctIds, ?_, rs, torn, hlog, hreplay⟩
  intro outputs inputs hread
  rw [hnone] at hread
  cases hread

/-- A directory with the marker of a merge: once the inputs are gone, it is done. -/
theorem of_marker (h : TableFiles (settled dir) tables) {outputs inputs : List Nat}
    (hmarker : settled dir mergePendingFile = some (asBytes (markerText outputs inputs)))
    (houtputs : ∀ id ∈ outputs, ∃ t ∈ tables, t.2.id = id)
    (hinputs : ∀ id ∈ inputs, id < 2 ^ 64) (hdisjoint : ∀ id ∈ outputs, id ∉ inputs)
    {rs : List WalRecord} {torn : Bytes} (hlog : LogHolds (settled dir) rs torn)
    (hreplay : replay rs = memtable) :
    Restores dir {t | t ∈ tables ∧ t.2.id ∉ inputs} memtable := by
  have hfits : ∀ id ∈ outputs, id < 2 ^ 64 := by
    intro id hid
    obtain ⟨t, ht, rfl⟩ := houtputs id hid
    have := h.fits t ht
    omega
  have hread := readPending_marker hmarker hfits hinputs
  have hall : outputs.all (hasTable (dir.drop isTmp)) = true := by
    rw [List.all_eq_true]
    intro id hid
    obtain ⟨t, ht, rfl⟩ := houtputs id hid
    refine hasTable_iff.mpr ⟨t.2.path, t.1, ?_, h.parse_path ht⟩
    rw [TableFiles.drop_isTmp]
    exact h.file_ne_none ht
  -- of the table files, the inputs go
  have hmerged : ∀ name, parseSstableFileName name ≠ none →
      settled (merged dir (some (outputs, inputs))) name =
        if isInput inputs name then none else settled dir name := by
    intro name hparse
    have hne : name ≠ mergePendingFile := by
      rintro rfl
      exact hparse fixed_names.2.1
    rw [TableFiles.settled_of_parse hparse, merged, Dir.get?_drop, TableFiles.drop_isTmp, goes, hall,
      decide_eq_false hne, Bool.false_or, Bool.true_and]
  have hleft : ∀ name, parseSstableFileName name ≠ none →
      settled (merged dir (some (outputs, inputs))) name = settled dir name ∨
        settled (merged dir (some (outputs, inputs))) name = none := by
    intro name hparse
    rw [hmerged name hparse]
    split
    · exact Or.inr rfl
    · exact Or.inl rfl
  refine ⟨⟨some (outputs, inputs), hread, ?_⟩, h.distinctIds, ?_, rs, torn, hlog, hreplay⟩
  · convert h.restrict hleft using 1
    ext t
    refine and_congr_right fun ht => ?_
    have hparse := h.parse_path ht
    have hin : isInput inputs t.2.path = true ↔ t.2.id ∈ inputs := by
      rw [isInput, hparse]
      exact List.contains_iff_mem
    rw [hmerged _ (by rw [hparse]; exact Option.some_ne_none _), ← hin]
    constructor
    · intro hnot
      rw [if_neg hnot]
      exact h.file_ne_none ht
    · intro hne hgone
      rw [if_pos hgone] at hne
      exact hne rfl
  · intro outputs' inputs' hread'
    rw [hread, Except.ok.injEq, Option.some.injEq, Prod.mk.injEq] at hread'
    rw [← hread'.1, ← hread'.2]
    exact hdisjoint

/-- Such a directory opens. -/
theorem opens (h : Restores dir tables memtable) {fails : String → Bool}
    (hfails : ∀ name, fails name = false) :
    ∃ pending recovery levels next, Opens fails dir pending recovery levels next ∧
      Loaded levels next ∧ {t | t ∈ tablesFrom 0 levels} = tables ∧
      replay recovery.records = memtable ∧
      ∃ rs torn, LogHolds (settled dir) rs torn ∧ recovery = ⟨rs, (encodeAll rs).length⟩ := by
  obtain ⟨pending, hpending, hfiles⟩ := h.pending
  obtain ⟨rs, torn, hlog, hreplay⟩ := h.log
  have hpending' : readPending (dir.drop isTmp) = .ok pending := by
    rw [readPending_drop]
    exact hpending
  have hclean := Clean.merged hpending'
  obtain ⟨levels, next, hall, hloaded, hset⟩ := hfiles.loadAll_eq
  rw [Dir.drop_eq_self hclean.tmp] at hall
  refine ⟨pending, ⟨rs, (encodeAll rs).length⟩, levels, next,
    ⟨fun _ _ _ => hfails _, hpending', fun _ _ _ => hfails _, hall, ?_⟩, hloaded, hset, hreplay,
    rs, torn, hlog, rfl⟩
  rw [contentOf_merged]
  exact hlog.recover_eq

end Restores

/-! ## Opening -/

/-- The directory of an open handle: no merge is pending, and no append was cut off. -/
structure Stands (files : String → Option Bytes) (tables : Set Placed)
    (memtable : SortedMap String MemtableEntry) : Prop where
  tables : TableFiles files tables
  marker : files mergePendingFile = none
  log : ∃ rs, LogHolds files rs [] ∧ replay rs = memtable

theorem Stands.restores {dir : Dir} {tables : Set Placed}
    {memtable : SortedMap String MemtableEntry} (h : Stands (settled dir) tables memtable) :
    Restores dir tables memtable := by
  obtain ⟨rs, hlog, hreplay⟩ := h.log
  exact .of_tables h.tables h.marker hlog hreplay

theorem settled_cutLog (dir : Dir) (recovery : WalRecovery) :
    settled (cutLog dir recovery) = Function.update (settled dir) walFile
      (some ((FileOp.contentOf dir walFile).take recovery.validLen)) :=
  settled_insert fixed_names.2.2.1 _

/-- Cutting the log leaves the tables and the marker alone. -/
theorem TableFiles.cutLog {dir : Dir} {tables : Set Placed} (h : TableFiles (settled dir) tables)
    (hmarker : settled dir mergePendingFile = none) (recovery : WalRecovery) :
    TableFiles (settled (PebbleDB.cutLog dir recovery)) tables ∧
      settled (PebbleDB.cutLog dir recovery) mergePendingFile = none := by
  obtain ⟨hparse, -, -, -, hne⟩ := fixed_names
  rw [settled_cutLog]
  refine ⟨h.congr fun name hname => ?_, ?_⟩
  · rw [Function.update_of_ne]
    rintro rfl
    exact hname hparse
  · rw [Function.update_of_ne hne.symm, hmarker]

/-- The directory that an opening ends in. -/
theorem stands_cutLog {dir : Dir} {tables : Set Placed}
    {pending : Option (List Nat × List Nat)} (hpending : readPending (dir.drop isTmp) = .ok pending)
    (hfiles : TableFiles (settled (merged dir pending)) tables) {rs : List WalRecord} {torn : Bytes}
    (hlog : LogHolds (settled dir) rs torn) :
    Stands (settled (cutLog (merged dir pending) ⟨rs, (encodeAll rs).length⟩)) tables
      (replay rs) := by
  have hmarker : settled (merged dir pending) mergePendingFile = none := by
    rw [settled_of_not_tmp isTmp_mergePendingFile]
    exact (Clean.merged hpending).marker
  obtain ⟨htables, hmarker⟩ := hfiles.cutLog hmarker ⟨rs, (encodeAll rs).length⟩
  refine ⟨htables, hmarker, rs, ⟨hlog.fits, tornTail_nil, ?_⟩, rfl⟩
  rw [settled_cutLog, Function.update_self, Option.getD_some, contentOf_merged, hlog.eq,
    List.take_left, List.append_nil]

namespace Restores

variable {dir dir' : Dir} {tables : Set Placed} {memtable : SortedMap String MemtableEntry}

/-- Wherever an opening is cut off, the directory restores the same. -/
theorem of_between (h : Restores dir tables memtable) (hbetween : Between dir dir') :
    Restores dir' tables memtable := by
  obtain ⟨pending, recovery, levels, next, hopens, -, -, hreplay, rs, torn, hlog, rfl⟩ :=
    h.opens (fun _ => rfl : ∀ name, (fun _ => false) name = false)
  obtain ⟨pending', hopens', hcut⟩ := hopens.of_between h.distinct h.disjoint hbetween
  have hfiles : TableFiles (settled (PebbleDB.merged dir pending)) tables := by
    obtain ⟨p, hread, hfiles⟩ := h.pending
    have heq := hopens.pending_eq
    rw [readPending_drop, hread, Except.ok.injEq] at heq
    exact heq ▸ hfiles
  -- apart from the log, both end in the same directory
  have hmerged : ∀ name, name ≠ walFile →
      (PebbleDB.merged dir' pending').get? name = (PebbleDB.merged dir pending).get? name := by
    intro name hne
    have heq := congrArg (fun d : Dir => d.get? name) hcut
    simpa only [cutLog, SortedMap.get?_insert, if_neg hne] using heq
  refine ⟨⟨pending', ?_, hfiles.congr fun name hname => ?_⟩, hbetween.distinctIds h.distinct,
    hbetween.markerDisjoint h.disjoint, ?_⟩
  · rw [← readPending_drop]
    exact hopens'.pending_eq
  · rw [TableFiles.settled_of_parse hname, TableFiles.settled_of_parse hname]
    refine hmerged name ?_
    rintro rfl
    exact hname fixed_names.1
  · cases hbetween with
    | clearing hcleared =>
      refine ⟨rs, torn, hlog.congr ?_, hreplay⟩
      rw [← TableFiles.drop_isTmp, hcleared.drop_eq, TableFiles.drop_isTmp]
    | merging hhalf =>
      have hwal : dir'.get? walFile = (dir.drop isTmp).get? walFile := by
        rcases hhalf with rfl | ⟨pending, -, hcleared, -⟩
        · rfl
        · refine hcleared.eq_of_not ?_
          exact goes_walFile _ _
      refine ⟨rs, torn, hlog.congr ?_, hreplay⟩
      rw [settled_of_not_tmp fixed_names.2.2.1, hwal, TableFiles.drop_isTmp]
    | logged pending'' recovery hpending hrecover hdir =>
      rw [contentOf_merged, hlog.recover_eq, Except.ok.injEq] at hrecover
      have hpendings : pending'' = pending := by
        have heq := hopens.pending_eq
        rw [hpending, Except.ok.injEq] at heq
        exact heq
      rw [hdir, ← hrecover, hpendings]
      obtain ⟨rs', hlog', hreplay'⟩ := (stands_cutLog hopens.pending_eq hfiles hlog).log
      exact ⟨rs', [], hlog', hreplay'.trans hreplay⟩

/-- Opening finds what the directory restores, unless the process stops in it; then the directory
still restores the same. -/
theorem wp_openWithOptions {disk : Disk} (h : Restores disk.dir tables memtable)
    (hfails : ∀ name, disk.unlinkFails name = false) (options : DbOptions) :
    Wp (openWithOptions options)
      (fun db disk' => Loaded db.levels db.nextSstId ∧ {t | t ∈ db.tables} = tables ∧
        db.memtable = memtable ∧ Stands (settled disk'.dir) tables memtable)
      (fun _ disk' => disk.stop ≠ none ∧ Restores disk'.dir tables memtable) disk := by
  obtain ⟨pending, recovery, levels, next, hopens, hloaded, hset, hreplay, rs, torn, hlog, rfl⟩ :=
    h.opens hfails
  refine (PebbleDB.wp_openWithOptions options disk h.distinct).mono ?_ ?_
  · rintro db disk' ⟨pending', recovery, hopens', hmemtable, -, -, hdir⟩
    obtain ⟨rfl, rfl, hlevels, hnext⟩ := hopens.unique hopens'
    obtain ⟨p, hread, hfiles⟩ := h.pending
    have heq := hopens.pending_eq
    rw [readPending_drop, hread, Except.ok.injEq] at heq
    rw [hlevels, hnext, DbInner.tables, hlevels, hmemtable, hdir, hreplay]
    refine ⟨hloaded, hset, rfl, ?_⟩
    have hstands := stands_cutLog hopens.pending_eq (heq ▸ hfiles) hlog
    rwa [hreplay] at hstands
  · rintro e disk' ⟨hbetween, hcomplete⟩
    exact ⟨fun hnone => hcomplete hnone _ _ _ _ hopens, h.of_between hbetween⟩

end Restores

end PebbleDB
