import PebbleDB.JobReads
import PebbleDB.Opening

/-!
# The tables of a directory

A directory without a marker opens as the set of the tables in its files (`TableFiles.opens`): the
reader finds each of them by its name, in ascending id order, and puts it back into its level.
-/

namespace PebbleDB

open EarlyExit Leveled

/-! ## Loading -/

/-- What the loop of `open` over the tables builds up. -/
structure Loaded (levels : List (List SSTable)) (next : Nat) : Prop where
  ascending : Ascending levels
  below : ∀ t ∈ tablesFrom 0 levels, t.2.id < next
  zero : levels ≠ []

theorem loaded_nil : Loaded [[]] 0 where
  ascending := by
    intro files hfiles
    rw [List.mem_singleton.mp hfiles]
    exact List.Pairwise.nil
  below := fun t ht => by cases ht
  zero := List.cons_ne_nil _ _

theorem pushTable_eq_some {levels : List (List SSTable)} {level i : Nat} {sst : SSTable}
    {files : List SSTable} :
    (pushTable levels level sst)[i]? = some files ↔
      (levels ++ List.replicate (level + 1 - levels.length) [])[i]?.map
        (fun files => if level = i then files ++ [sst] else files) = some files := by
  rw [pushTable, List.getElem?_modify]
  cases (levels ++ List.replicate (level + 1 - levels.length) [])[i]? <;> simp

/-- A level after the missing ones have been added: one that was there, or an empty one. -/
theorem getElem?_extended {levels : List (List SSTable)} {n i : Nat} {files : List SSTable}
    (h : (levels ++ List.replicate n [])[i]? = some files) :
    levels[i]? = some files ∨ files = [] := by
  rw [List.getElem?_append] at h
  split at h
  · exact Or.inl h
  · exact Or.inr (List.eq_of_mem_replicate (List.mem_of_getElem? h))

theorem mem_tables_pushTable {levels : List (List SSTable)} {level : Nat} {sst : SSTable}
    {t : Placed} :
    t ∈ tablesFrom 0 (pushTable levels level sst) ↔ t ∈ tablesFrom 0 levels ∨ t = (level, sst) := by
  simp only [mem_tablesFrom, pushTable_eq_some, Option.map_eq_some_iff, Nat.zero_add]
  constructor
  · rintro ⟨i, _, ⟨files, hfiles, rfl⟩, hlevel, hmem⟩
    have hold : t.2 ∈ files → ∃ i files, levels[i]? = some files ∧ t.1 = i ∧ t.2 ∈ files := by
      intro hmem
      rcases getElem?_extended hfiles with hfiles | rfl
      · exact ⟨i, files, hfiles, hlevel, hmem⟩
      · exact absurd hmem List.not_mem_nil
    split at hmem
    · rename_i heq
      rcases List.mem_append.mp hmem with hmem | hmem
      · exact Or.inl (hold hmem)
      · exact Or.inr (Prod.ext (hlevel.trans heq.symm) (List.mem_singleton.mp hmem))
    · exact Or.inl (hold hmem)
  · rintro (⟨i, files, hfiles, hlevel, hmem⟩ | rfl)
    · have hlt := (List.getElem?_eq_some_iff.mp hfiles).1
      refine ⟨i, _, ⟨files, by rw [List.getElem?_append_left hlt, hfiles], rfl⟩, hlevel, ?_⟩
      split
      · exact List.mem_append_left _ hmem
      · exact hmem
    · have hlt : level < (levels ++ List.replicate (level + 1 - levels.length) []).length := by
        rw [List.length_append, List.length_replicate]
        omega
      refine ⟨level, _, ⟨_, List.getElem?_eq_getElem hlt, rfl⟩, rfl, ?_⟩
      rw [if_pos rfl]
      exact List.mem_append_right _ List.mem_cons_self

theorem Loaded.push {levels : List (List SSTable)} {next : Nat} (h : Loaded levels next)
    (level : Nat) {sst : SSTable} (hid : next ≤ sst.id) :
    Loaded (pushTable levels level sst) (sst.id + 1) where
  ascending := by
    intro files hmem
    obtain ⟨i, hi⟩ := List.getElem?_of_mem hmem
    obtain ⟨old, hold, rfl⟩ := Option.map_eq_some_iff.mp (pushTable_eq_some.mp hi)
    have hsorted : old.Pairwise (fun a b => a.id < b.id) ∧ ∀ a ∈ old, a.id < sst.id := by
      rcases getElem?_extended hold with hold | rfl
      · refine ⟨h.ascending old (List.mem_of_getElem? hold), fun a ha => ?_⟩
        have hbelow := h.below (i, a) (mem_tablesFrom.mpr ⟨i, old, hold, by simp, ha⟩)
        exact lt_of_lt_of_le hbelow hid
      · exact ⟨List.Pairwise.nil, fun a ha => absurd ha List.not_mem_nil⟩
    split
    · refine List.pairwise_append.mpr ⟨hsorted.1, List.pairwise_singleton _ _, ?_⟩
      intro a ha b hb
      rw [List.mem_singleton.mp hb]
      exact hsorted.2 a ha
    · exact hsorted.1
  below := by
    intro t ht
    rcases mem_tables_pushTable.mp ht with ht | rfl
    · have := h.below t ht
      omega
    · exact Nat.lt_succ_self _
  zero := by
    intro hnil
    have hlen := congrArg List.length hnil
    rw [pushTable, List.length_modify, List.length_append, List.length_replicate] at hlen
    simp only [List.length_nil] at hlen
    omega

/-- The found file loads. -/
def Discovered.Loads (dir : Dir) (found : Discovered) (sst : SSTable) : Prop :=
  ∃ data, dir.get? found.name = some data ∧ SSTable.load found.id found.name data = .ok sst

/-- The loop puts each found table into its level. -/
theorem loadAll_eq {dir : Dir} {founds : List Discovered} {levels : List (List SSTable)}
    {next : Nat} (hloaded : Loaded levels next) (hsorted : founds.Pairwise fun a b => a.id < b.id)
    (hnext : ∀ found ∈ founds, next ≤ found.id ∧ found.id + 1 < 2 ^ 64)
    (hloads : ∀ found ∈ founds, ∃ sst, found.Loads dir sst) :
    ∃ levels' next', loadAll dir founds levels next = .ok (levels', next') ∧
      Loaded levels' next' ∧ ∀ t, t ∈ tablesFrom 0 levels' ↔ t ∈ tablesFrom 0 levels ∨
        ∃ found ∈ founds, found.level = t.1 ∧ found.Loads dir t.2 := by
  induction founds generalizing levels next with
  | nil => exact ⟨levels, next, rfl, hloaded, fun t => by simp⟩
  | cons found founds ih =>
    obtain ⟨sst, data, hdata, hload⟩ := hloads found List.mem_cons_self
    obtain ⟨hle, hfits⟩ := hnext found List.mem_cons_self
    obtain ⟨hid, -, -⟩ := SSTable.load_eq_ok hload
    have hbump : bumpId found.id next = .ok (found.id + 1) := by
      rw [bumpId, max_eq_left hle, if_pos hfits]
    have hpushed := hloaded.push found.level (hid ▸ hle)
    rw [hid] at hpushed
    obtain ⟨levels', next', hrest, hloaded', hmem⟩ := ih hpushed hsorted.of_cons
      (fun f hf => ⟨List.rel_of_pairwise_cons hsorted hf,
        (hnext f (List.mem_cons_of_mem _ hf)).2⟩)
      (fun f hf => hloads f (List.mem_cons_of_mem _ hf))
    refine ⟨levels', next', ?_, hloaded', fun t => ?_⟩
    · rw [loadAll, hdata]
      simp only [bind, Except.bind, hload, hbump, hrest]
    · rw [hmem, mem_tables_pushTable, List.exists_mem_cons_iff, or_assoc]
      refine or_congr_right (or_congr_left ⟨?_, ?_⟩)
      · rintro rfl
        exact ⟨rfl, data, hdata, hload⟩
      · rintro ⟨hlevel, data', hdata', hload'⟩
        rw [hdata, Option.some.injEq] at hdata'
        rw [← hdata', hload, Except.ok.injEq] at hload'
        exact Prod.ext hlevel.symm hload'.symm

/-! ## The tables in the files -/

/-- The files with the names of tables hold these tables, and no others. -/
structure TableFiles (files : String → Option Bytes) (tables : Set Placed) : Prop where
  level : ∀ t ∈ tables, t.1 < 2 ^ 32
  fits : ∀ t ∈ tables, t.2.id + 1 < 2 ^ 64
  path : ∀ t ∈ tables, t.2.path = sstableFileName t.1 t.2.id
  stored : ∀ t ∈ tables, t.2.StoredIn files
  distinct : ∀ s ∈ tables, ∀ t ∈ tables, s.2.id = t.2.id → s = t
  complete : ∀ name, files name ≠ none → parseSstableFileName name ≠ none →
    ∃ t ∈ tables, t.2.path = name

namespace TableFiles

variable {dir : Dir} {files : String → Option Bytes} {tables : Set Placed}

theorem parse_path (h : TableFiles files tables) {t : Placed} (ht : t ∈ tables) :
    parseSstableFileName t.2.path = some (t.2.id, t.1) := by
  have hfits := h.fits t ht
  rw [h.path t ht, parse_sstableFileName (h.level t ht) (by omega)]

theorem file_ne_none (h : TableFiles files tables) {t : Placed} (ht : t ∈ tables) :
    files t.2.path ≠ none := by
  obtain ⟨data, hdata, -⟩ := h.stored t ht
  rw [hdata]
  exact Option.some_ne_none _

/-- Tables with the same file are the same. -/
theorem eq_of_path (h : TableFiles files tables) {s t : Placed} (hs : s ∈ tables) (ht : t ∈ tables)
    (heq : s.2.path = t.2.path) : s = t := by
  have hparse := h.parse_path hs
  rw [heq, h.parse_path ht, Option.some.injEq, Prod.mk.injEq] at hparse
  exact h.distinct s hs t ht hparse.1.symm

theorem ne_walFile (h : TableFiles files tables) {t : Placed} (ht : t ∈ tables) :
    t.2.path ≠ walFile := by
  intro heq
  have hparse := h.parse_path ht
  rw [heq, fixed_names.1] at hparse
  cases hparse

theorem ne_mergePendingFile (h : TableFiles files tables) {t : Placed} (ht : t ∈ tables) :
    t.2.path ≠ mergePendingFile := by
  intro heq
  have hparse := h.parse_path ht
  rw [heq, fixed_names.2.1] at hparse
  cases hparse

/-- Only the files with the names of tables matter. -/
theorem congr {files' : String → Option Bytes} (h : TableFiles files tables)
    (heq : ∀ name, parseSstableFileName name ≠ none → files' name = files name) :
    TableFiles files' tables where
  level := h.level
  fits := h.fits
  path := h.path
  stored t ht := by
    obtain ⟨data, hdata, hload⟩ := h.stored t ht
    refine ⟨data, ?_, hload⟩
    rw [heq _ (by rw [h.parse_path ht]; exact Option.some_ne_none _)]
    exact hdata
  distinct := h.distinct
  complete name hne hparse := h.complete name (heq name hparse ▸ hne) hparse

/-- Added files join the tables, if their ids are new. -/
theorem added {files' : String → Option Bytes} {level : Nat} {outs : List SSTable}
    (h : TableFiles files tables) (hlevel : level < 2 ^ 32)
    (hadded : Added level outs files files') (hfits : ∀ o ∈ outs, o.id + 1 < 2 ^ 64)
    (hinjective : ∀ a ∈ outs, ∀ b ∈ outs, a.id = b.id → a = b)
    (hnew : ∀ t ∈ tables, ∀ o ∈ outs, t.2.id ≠ o.id) :
    TableFiles files' (tables ∪ placed level outs) := by
  have hparse : ∀ o ∈ outs, parseSstableFileName o.path = some (o.id, level) := by
    intro o ho
    have := hfits o ho
    rw [hadded.path o ho, parse_sstableFileName hlevel (by omega)]
  refine ⟨?_, ?_, ?_, ?_, ?_, ?_⟩
  · rintro t (ht | ⟨heq, -⟩)
    · exact h.level t ht
    · rw [heq]
      exact hlevel
  · rintro t (ht | ⟨-, ho⟩)
    · exact h.fits t ht
    · exact hfits t.2 ho
  · rintro t (ht | ⟨heq, ho⟩)
    · exact h.path t ht
    · rw [heq]
      exact hadded.path t.2 ho
  · rintro t (ht | ⟨-, ho⟩)
    · obtain ⟨data, hdata, hload⟩ := h.stored t ht
      refine ⟨data, ?_, hload⟩
      rw [hadded.others]
      · exact hdata
      · intro o ho heq
        have hid := hparse o ho
        rw [heq, h.parse_path ht, Option.some.injEq, Prod.mk.injEq] at hid
        exact hnew t ht o ho hid.1
    · exact hadded.stored t.2 ho
  · rintro s (hs | ⟨hslevel, hs⟩) t (ht | ⟨htlevel, ht⟩) heq
    · exact h.distinct s hs t ht heq
    · exact absurd heq (hnew s hs t.2 ht)
    · exact absurd heq.symm (hnew t ht s.2 hs)
    · exact Prod.ext (hslevel.trans htlevel.symm) (hinjective s.2 hs t.2 ht heq)
  · intro name hne hname
    by_cases hout : ∃ o ∈ outs, o.path = name
    · obtain ⟨o, ho, hpath⟩ := hout
      exact ⟨(level, o), Or.inr ⟨rfl, ho⟩, hpath⟩
    · push Not at hout
      rw [hadded.others name hout] at hne
      obtain ⟨t, ht, hpath⟩ := h.complete name hne hname
      exact ⟨t, Or.inl ht, hpath⟩

/-- Where some files are gone, the tables are those whose files are left. -/
theorem restrict {files' : String → Option Bytes} (h : TableFiles files tables)
    (hleft : ∀ name, parseSstableFileName name ≠ none →
      files' name = files name ∨ files' name = none) :
    TableFiles files' {t | t ∈ tables ∧ files' t.2.path ≠ none} where
  level t ht := h.level t ht.1
  fits t ht := h.fits t ht.1
  path t ht := h.path t ht.1
  stored := by
    rintro t ⟨ht, hne⟩
    obtain ⟨data, hdata, hload⟩ := h.stored t ht
    have hparse : parseSstableFileName t.2.path ≠ none := by
      rw [h.parse_path ht]
      exact Option.some_ne_none _
    exact ⟨data, ((hleft _ hparse).resolve_right hne).trans hdata, hload⟩
  distinct s hs t ht := h.distinct s hs.1 t ht.1
  complete := by
    intro name hne hname
    have hfile := (hleft name hname).resolve_right hne
    obtain ⟨t, ht, rfl⟩ := h.complete name (hfile ▸ hne) hname
    exact ⟨t, ⟨ht, hne⟩, rfl⟩

/-- Files were added, and of some older tables the files are gone. -/
theorem left {files' added : String → Option Bytes} {level : Nat} {outs : List SSTable}
    {inputs : List Placed} (h : TableFiles files tables) (hinputs : ∀ i ∈ inputs, i ∈ tables)
    (hlevel : level < 2 ^ 32) (hadded : Added level outs files added)
    (hfits : ∀ o ∈ outs, o.id + 1 < 2 ^ 64)
    (hinjective : ∀ a ∈ outs, ∀ b ∈ outs, a.id = b.id → a = b)
    (hnew : ∀ t ∈ tables, ∀ o ∈ outs, t.2.id ≠ o.id)
    (hleft : ∀ name, parseSstableFileName name ≠ none → files' name = added name ∨
      (files' name = none ∧ ∃ i ∈ inputs, i.2.path = name)) :
    TableFiles files' {t | t ∈ tables ∪ placed level outs ∧ files' t.2.path ≠ none} ∧
      ∀ t ∈ tables \ {t | t ∈ inputs} ∪ placed level outs, files' t.2.path ≠ none := by
  have hall := h.added hlevel hadded hfits hinjective hnew
  refine ⟨hall.restrict fun name hparse => (hleft name hparse).imp id And.left, fun t ht => ?_⟩
  have hmem : t ∈ tables ∪ placed level outs := ht.imp And.left id
  have hparse : parseSstableFileName t.2.path ≠ none := by
    rw [hall.parse_path hmem]
    exact Option.some_ne_none _
  rcases hleft t.2.path hparse with heq | ⟨-, i, hi, hpath⟩
  · rw [heq]
    exact hall.file_ne_none hmem
  · -- the file of this table is not that of an input
    obtain rfl := hall.eq_of_path (Or.inl (hinputs i hi)) hmem hpath
    rcases ht with ⟨-, hnot⟩ | ⟨-, ho⟩
    · exact absurd hi hnot
    · exact absurd rfl (hnew i (hinputs i hi) i.2 ho)

theorem settled_of_parse {name : String} (h : parseSstableFileName name ≠ none) :
    settled dir name = dir.get? name := by
  obtain ⟨⟨id, level⟩, hparse⟩ := Option.ne_none_iff_exists'.mp h
  exact settled_of_not_tmp (isTmp_eq_false_of_parse hparse)

theorem distinctIds (h : TableFiles (settled dir) tables) : DistinctIds dir := by
  intro name name' id level level' hne hne' hparse hparse'
  have hsome : ∀ {n l}, parseSstableFileName n = some (id, l) → parseSstableFileName n ≠ none :=
    fun hp => by rw [hp]; exact Option.some_ne_none _
  rw [← settled_of_parse (hsome hparse)] at hne
  rw [← settled_of_parse (hsome hparse')] at hne'
  obtain ⟨s, hs, rfl⟩ := h.complete name hne (hsome hparse)
  obtain ⟨t, ht, rfl⟩ := h.complete name' hne' (hsome hparse')
  rw [h.parse_path hs, Option.some.injEq, Prod.mk.injEq] at hparse
  rw [h.parse_path ht, Option.some.injEq, Prod.mk.injEq] at hparse'
  rw [h.distinct s hs t ht (hparse.1.trans hparse'.1.symm)]

theorem drop_isTmp (name : String) : (dir.drop isTmp).get? name = settled dir name :=
  Dir.get?_drop dir isTmp name

theorem settled_drop_isTmp : settled (dir.drop isTmp) = settled dir := by
  funext name
  rw [settled, drop_isTmp, settled]
  split <;> rfl

/-- The loop of `open` over the tables finds these tables. -/
theorem loadAll_eq (h : TableFiles (settled dir) tables) :
    ∃ levels next, loadAll (dir.drop isTmp) (discoverSstables (dir.drop isTmp).keys) [[]] 0 =
        .ok (levels, next) ∧
      Loaded levels next ∧ {t | t ∈ tablesFrom 0 levels} = tables := by
  have hids : DistinctIds (dir.drop isTmp) := distinctIds (settled_drop_isTmp ▸ h)
  have hsorted := pairwise_discoverSstables hids (dir.drop isTmp).keys_nodup
    fun name hname => SortedMap.mem_keys.mp hname
  -- each found file is the file of a table
  have hfound : ∀ found : Discovered, found ∈ discoverSstables (dir.drop isTmp).keys ↔
      ∃ t ∈ tables, found = ⟨t.2.id, t.1, t.2.path⟩ := by
    intro found
    rw [mem_discoverSstables, SortedMap.mem_keys, drop_isTmp]
    constructor
    · rintro ⟨hne, hparse⟩
      obtain ⟨t, ht, hpath⟩ := h.complete found.name hne (by rw [hparse]; exact Option.some_ne_none _)
      rw [← hpath, h.parse_path ht, Option.some.injEq, Prod.mk.injEq] at hparse
      obtain ⟨id, level, name⟩ := found
      simp only at hparse hpath
      exact ⟨t, ht, by rw [hparse.1, hparse.2, hpath]⟩
    · rintro ⟨t, ht, rfl⟩
      obtain ⟨data, hdata, -⟩ := h.stored t ht
      exact ⟨by rw [hdata]; exact Option.some_ne_none _, h.parse_path ht⟩
  have hloads : ∀ t ∈ tables, Discovered.Loads (dir.drop isTmp) ⟨t.2.id, t.1, t.2.path⟩ t.2 := by
    intro t ht
    obtain ⟨data, hdata, hload⟩ := h.stored t ht
    exact ⟨data, by rw [drop_isTmp]; exact hdata, hload⟩
  obtain ⟨levels, next, hall, hloaded, hmem⟩ := PebbleDB.loadAll_eq loaded_nil hsorted
    (fun found hmem => by
      obtain ⟨t, ht, rfl⟩ := (hfound found).mp hmem
      exact ⟨Nat.zero_le _, h.fits t ht⟩)
    (fun found hmem => by
      obtain ⟨t, ht, rfl⟩ := (hfound found).mp hmem
      exact ⟨t.2, hloads t ht⟩)
  refine ⟨levels, next, hall, hloaded, Set.ext fun t => ?_⟩
  rw [Set.mem_ofPred_eq, hmem]
  constructor
  · rintro (ht | ⟨found, hmem, hlevel, data, hdata, hload⟩)
    · cases ht
    · obtain ⟨s, hs, rfl⟩ := (hfound found).mp hmem
      obtain ⟨data', hdata', hload'⟩ := hloads s hs
      rw [hdata, Option.some.injEq] at hdata'
      rw [← hdata', hload, Except.ok.injEq] at hload'
      have heq : t = s := Prod.ext hlevel.symm hload'
      exact heq ▸ hs
  · intro ht
    exact Or.inr ⟨_, (hfound _).mpr ⟨t, ht, rfl⟩, rfl, hloads t ht⟩

/-- A directory without a marker opens as its tables and its log. -/
theorem opens (h : TableFiles (settled dir) tables) {fails : String → Bool}
    (htmp : Removable fails isTmp dir) (hmarker : settled dir mergePendingFile = none)
    {recovery : WalRecovery} (hlog : recover ((settled dir walFile).getD []) = .ok recovery) :
    ∃ levels next, Opens fails dir none recovery levels next ∧ Loaded levels next ∧
      {t | t ∈ tablesFrom 0 levels} = tables := by
  obtain ⟨levels, next, hall, hloaded, hset⟩ := h.loadAll_eq
  have hclean : Clean (dir.drop isTmp) := by
    refine ⟨fun name hname => ?_, ?_⟩
    · rw [Dir.get?_drop, if_pos hname]
    · rw [drop_isTmp]
      exact hmarker
  have hopens := hclean.opens fails hall (show recover ((((dir.drop isTmp).get? walFile).getD [])) =
    .ok recovery by rw [drop_isTmp]; exact hlog)
  have hdrop : (dir.drop isTmp).drop isTmp = dir.drop isTmp := Dir.drop_eq_self hclean.tmp
  have hmerged : merged (dir.drop isTmp) none = merged dir none := by rw [merged, merged, hdrop]
  refine ⟨levels, next, ⟨htmp, ?_, ?_, ?_, ?_⟩, hloaded, hset⟩
  · exact hclean.readPending_eq
  · exact fun _ _ hgoes => Bool.noConfusion hgoes
  · rw [← hmerged]
    exact hopens.tables
  · rw [← hmerged]
    exact hopens.log

end TableFiles

end PebbleDB
