import PebbleDB.CrashRun

/-!
# What failed calls leave behind

A handle is used on after a call that failed. From then on its directory may hold table files that
the handle does not know, may lack the files of tables that it does know, and may have the marker of
a merge that the handle has not made (`Shelf`). The next opening still reads what the handle answers,
but for the keys of failed calls (`Recoverable`), and the parts of a call keep it so; a job does if
it starts in a directory that is `Clear` for it.
-/

namespace PebbleDB

open EarlyExit Leveled

/-! ## The files -/

/-- The marker of the directory, if it has one, is that of a merge whose outputs are there and whose
inputs have these ids. -/
inductive Marked (files : String → Option Bytes) (stored : Set Placed) : List Nat → Prop where
  | clear (h : files mergePendingFile = none) : Marked files stored []
  | pending (outputs inputs : List Nat)
      (h : files mergePendingFile = some (asBytes (markerText outputs inputs)))
      (there : ∀ id ∈ outputs, ∃ t ∈ stored, t.2.id = id) (fits : ∀ id ∈ inputs, id < 2 ^ 64)
      (disjoint : ∀ id ∈ outputs, id ∉ inputs) : Marked files stored inputs

/-- The table files of the directory hold the tables `stored`. The ids of `gone` are those of the
inputs of a pending merge. -/
structure Shelf (w : World) (stored : Set Placed) (gone : List Nat) : Prop where
  tables : TableFiles w.files stored
  marker : Marked w.files stored gone
  named : ∀ t ∈ w.inner.tables,
    t.1 < 2 ^ 32 ∧ t.2.id + 1 < 2 ^ 64 ∧ t.2.path = sstableFileName t.1 t.2.id
  known : ∀ s ∈ stored, ∀ t ∈ w.inner.tables, s.2.id = t.2.id → s = t
  below : ∀ t ∈ stored, t.2.id < w.inner.nextSstId
  past : ∀ id ∈ gone, id < w.inner.nextSstId
  own : ∀ t ∈ stored, t.2.id ∈ gone → t ∈ w.inner.tables

/-- The tables that are left when the pending merge is ended. -/
def loaded (stored : Set Placed) (gone : List Nat) : Set Placed :=
  {t | t ∈ stored ∧ t.2.id ∉ gone}

theorem loaded_nil_eq (stored : Set Placed) : loaded stored [] = stored := by
  ext t
  simp [loaded]

namespace Shelf

variable {w w' : World} {stored : Set Placed} {gone : List Nat}

theorem restores (h : Shelf w stored gone) {rs : List WalRecord} (hlog : LogHolds w.files rs []) :
    Restores w.disk.dir (loaded stored gone) (replay rs) := by
  have htables := h.tables
  cases h.marker with
  | clear hnone =>
    rw [loaded_nil_eq]
    exact .of_tables htables hnone hlog rfl
  | pending outputs inputs hmarker hthere hfits hdisjoint =>
    exact .of_marker htables hmarker hthere hfits hdisjoint hlog rfl

/-- Only the log may have changed, and only the counter of the handle. -/
theorem of_files (h : Shelf w stored gone) (htables : w'.inner.tables = w.inner.tables)
    (hnext : w.inner.nextSstId ≤ w'.inner.nextSstId)
    (hfiles : ∀ name, name ≠ walFile → w'.files name = w.files name) : Shelf w' stored gone := by
  have hmarker : w'.files mergePendingFile = w.files mergePendingFile :=
    hfiles _ fixed_names.2.2.2.2.symm
  refine ⟨h.tables.congr fun name hname => hfiles name ?_, ?_, ?_, ?_, ?_, ?_, ?_⟩
  · rintro rfl
    exact hname fixed_names.1
  · cases h.marker with
    | clear hnone => exact .clear (hmarker.trans hnone)
    | pending outputs inputs hsome hthere hfits hdisjoint =>
      exact .pending outputs _ (hmarker.trans hsome) hthere hfits hdisjoint
  · rw [htables]
    exact h.named
  · rw [htables]
    exact h.known
  · exact fun t ht => (h.below t ht).trans_le hnext
  · exact fun id hid => (h.past id hid).trans_le hnext
  · rw [htables]
    exact h.own

theorem id_ne (h : Shelf w stored gone) {next : Nat} {outs : List SSTable}
    (hids : NewIds w.inner.nextSstId next outs) : ∀ t ∈ stored, ∀ o ∈ outs, t.2.id ≠ o.id :=
  fun t ht o ho => ((h.below t ht).trans_le (hids.fresh o ho)).ne

/-- What is known about the tables of the handle, when it has got some of the new ones. -/
theorem named_of_added (h : Shelf w stored gone) {level : Nat} {outs : List SSTable}
    {files : String → Option Bytes} (hlevel : level < 2 ^ 32) (hadded : Added level outs w.files files)
    (hids : NewIds w.inner.nextSstId w'.inner.nextSstId outs)
    (hsub : ∀ t ∈ w'.inner.tables, t ∈ w.inner.tables ∨ t ∈ placed level outs) :
    ∀ t ∈ w'.inner.tables,
      t.1 < 2 ^ 32 ∧ t.2.id + 1 < 2 ^ 64 ∧ t.2.path = sstableFileName t.1 t.2.id := by
  intro t ht
  rcases hsub t ht with ht | ⟨heq, ho⟩
  · exact h.named t ht
  · rw [heq]
    exact ⟨hlevel, hids.fits t.2 ho, hadded.path t.2 ho⟩

theorem known_of_added (h : Shelf w stored gone) (hready : Ready w.inner) {level : Nat}
    {outs : List SSTable} (hids : NewIds w.inner.nextSstId w'.inner.nextSstId outs)
    (hsub : ∀ t ∈ w'.inner.tables, t ∈ w.inner.tables ∨ t ∈ placed level outs) :
    ∀ s ∈ stored ∪ placed level outs, ∀ t ∈ w'.inner.tables, s.2.id = t.2.id → s = t := by
  rintro s (hs | ⟨hslevel, hs⟩) t ht heq
  · rcases hsub t ht with ht | ⟨-, ho⟩
    · exact h.known s hs t ht heq
    · exact absurd heq (h.id_ne hids s hs t.2 ho)
  · rcases hsub t ht with ht | ⟨htlevel, ho⟩
    · exact absurd heq.symm ((hready.numbered.below t ht).trans_le (hids.fresh s.2 hs)).ne
    · exact Prod.ext (hslevel.trans htlevel.symm) (hids.injective hs ho heq)

theorem below_of_added (h : Shelf w stored gone) {level : Nat} {outs : List SSTable}
    (hnext : w.inner.nextSstId ≤ w'.inner.nextSstId)
    (hids : NewIds w.inner.nextSstId w'.inner.nextSstId outs) :
    ∀ t ∈ stored ∪ placed level outs, t.2.id < w'.inner.nextSstId := by
  rintro t (ht | ⟨-, ho⟩)
  · exact (h.below t ht).trans_le hnext
  · exact hids.below t.2 ho

/-- New table files, of which the handle may have got to know some. -/
theorem added (h : Shelf w stored gone) (hready : Ready w.inner) {level : Nat} {outs : List SSTable}
    (hlevel : level < 2 ^ 32) (hids : NewIds w.inner.nextSstId w'.inner.nextSstId outs)
    (hadded : Added level outs w.files w'.files)
    (hnext : w.inner.nextSstId ≤ w'.inner.nextSstId)
    (hkeep : ∀ t ∈ w.inner.tables, t ∈ w'.inner.tables)
    (hsub : ∀ t ∈ w'.inner.tables, t ∈ w.inner.tables ∨ t ∈ placed level outs) :
    Shelf w' (stored ∪ placed level outs) gone := by
  have htables := h.tables.added hlevel hadded hids.fits (fun a ha b hb => hids.injective ha hb)
    (h.id_ne hids)
  have hmarker : w'.files mergePendingFile = w.files mergePendingFile :=
    Mirrored.others_eq hadded htables fixed_names.2.1
  refine ⟨htables, ?_, h.named_of_added hlevel hadded hids hsub, h.known_of_added hready hids hsub,
    h.below_of_added hnext hids, fun id hid => (h.past id hid).trans_le hnext, ?_⟩
  · cases h.marker with
    | clear hnone => exact .clear (hmarker.trans hnone)
    | pending outputs inputs hsome hthere hfits hdisjoint =>
      refine .pending outputs _ (hmarker.trans hsome) (fun id hid => ?_) hfits hdisjoint
      obtain ⟨t, ht, heq⟩ := hthere id hid
      exact ⟨t, Or.inl ht, heq⟩
  · rintro t (ht | ⟨-, ho⟩) hgone
    · exact hkeep t (h.own t ht hgone)
    · have := hids.fresh t.2 ho
      have := h.past _ hgone
      omega

theorem loaded_added (h : Shelf w stored gone) {level next : Nat} {outs : List SSTable}
    (hids : NewIds w.inner.nextSstId next outs) :
    loaded (stored ∪ placed level outs) gone = loaded stored gone ∪ placed level outs := by
  ext t
  constructor
  · rintro ⟨ht | ho, hnot⟩
    · exact Or.inl ⟨ht, hnot⟩
    · exact Or.inr ho
  · rintro (⟨ht, hnot⟩ | ⟨hlevel, ho⟩)
    · exact ⟨Or.inl ht, hnot⟩
    · refine ⟨Or.inr ⟨hlevel, ho⟩, fun hgone => ?_⟩
      have := hids.fresh t.2 ho
      have := h.past _ hgone
      omega

/-- The file of the memtable is there, whether the handle knows it or not. -/
theorem written [BloomSizing] (h : Shelf w stored gone) (hready : Ready w.inner) {w₁ : World}
    {sst : SSTable}
    (hwrote : Wrote 0 (w.inner.memtable.map toSstEntry) w w₁ sst) (hframe : w₁.Frame w')
    (hkeep : ∀ t ∈ w.inner.tables, t ∈ w'.inner.tables)
    (hsub : ∀ t ∈ w'.inner.tables, t ∈ w.inner.tables ∨ t = (0, sst))
    (hfiles : ∀ name, name ≠ walFile → w'.files name = w₁.files name) :
    Shelf w' (stored ∪ {(0, sst)}) gone ∧
      loaded (stored ∪ {(0, sst)}) gone = loaded stored gone ∪ {(0, sst)} ∧
      w₁.files walFile = w.files walFile := by
  have houts := hwrote.outputs []
  have hnext : w₁.inner.nextSstId ≤ w'.inner.nextSstId := hframe.nextSstId
  have hids := houts.ids.mono hnext
  -- the handle of the end with the files before the log is cut
  have hshelf : Shelf ⟨w'.inner, w₁.disk⟩ (stored ∪ placed 0 [sst]) gone := by
    refine h.added hready (Nat.two_pow_pos 32) hids houts.added ?_ hkeep fun t ht => ?_
    · have := hwrote.nextSstId
      show w.inner.nextSstId ≤ w'.inner.nextSstId
      omega
    · rw [placed_singleton]
      exact hsub t ht
  have hwal : w₁.files walFile = w.files walFile :=
    Mirrored.others_eq houts.added hshelf.tables fixed_names.1
  have hloaded : loaded (stored ∪ placed 0 [sst]) gone = loaded stored gone ∪ placed 0 [sst] :=
    h.loaded_added hids
  rw [placed_singleton] at hshelf hloaded
  exact ⟨hshelf.of_files rfl le_rfl hfiles, hloaded, hwal⟩

/-! ### A job -/

section Job

variable {job : CompactionJob} {outs : List SSTable} {added : String → Option Bytes}

/-- A table with the id of an input is the input. -/
theorem mem_inputs_of_id (h : Shelf w stored gone) (hin : ∀ i ∈ job.inputs, i ∈ stored) {next : Nat}
    (hids : NewIds w.inner.nextSstId next outs) :
    ∀ t ∈ stored ∪ placed job.outputLevel outs,
      t.2.id ∈ job.inputs.map (fun input => input.2.id) → t ∈ job.inputs := by
  intro t ht hid
  obtain ⟨i, hi, heq⟩ := List.mem_map.mp hid
  rcases ht with ht | ⟨-, ho⟩
  · exact h.tables.distinct i (hin i hi) t ht heq ▸ hi
  · exact absurd heq (h.id_ne hids i (hin i hi) t.2 ho)

theorem id_notMem_inputs (h : Shelf w stored gone) (hin : ∀ i ∈ job.inputs, i ∈ stored) {next : Nat}
    (hids : NewIds w.inner.nextSstId next outs) :
    ∀ o ∈ outs, o.id ∉ job.inputs.map fun input => input.2.id := by
  intro o ho hid
  obtain ⟨i, hi, heq⟩ := List.mem_map.mp hid
  exact h.id_ne hids i (hin i hi) o ho heq

/-- From the marker of a job on: the next opening has the outputs in the place of the inputs. -/
theorem merged (h : Shelf w stored gone) (hready : Ready w.inner) (hfit : Fitting w.inner job)
    (hin : ∀ i ∈ job.inputs, i ∈ stored)
    (hids : NewIds w.inner.nextSstId w'.inner.nextSstId outs)
    (hnext : w.inner.nextSstId ≤ w'.inner.nextSstId)
    (hadded : Added job.outputLevel outs w.files added)
    (hleft : ∀ name, name ≠ mergePendingFile → w'.files name = added name ∨
      (w'.files name = none ∧ ∃ i ∈ job.inputs, i.2.path = name))
    (hsub : ∀ t ∈ w'.inner.tables, t ∈ w.inner.tables ∨ t ∈ placed job.outputLevel outs)
    (hmarker : (w'.files mergePendingFile = some (markerBytes job outs) ∧
        ∀ i ∈ job.inputs, w'.files i.2.path ≠ none → i ∈ w'.inner.tables) ∨
      (w'.files mergePendingFile = none ∧ ∀ i ∈ job.inputs, w'.files i.2.path = none)) :
    ∃ stored' gone', Shelf w' stored' gone' ∧
      loaded stored' gone' = stored \ {t | t ∈ job.inputs} ∪ placed job.outputLevel outs := by
  have hinjective : ∀ a ∈ outs, ∀ b ∈ outs, a.id = b.id → a = b := fun a ha b hb =>
    hids.injective ha hb
  have hne := h.id_ne hids
  have hparsed : ∀ name, parseSstableFileName name ≠ none → w'.files name = added name ∨
      (w'.files name = none ∧ ∃ i ∈ job.inputs, i.2.path = name) := by
    intro name hparse
    apply hleft name
    rintro rfl
    exact hparse fixed_names.2.1
  obtain ⟨htables, hstay⟩ := h.tables.left hin hfit.target_lt hadded hids.fits hinjective hne hparsed
  have hnamed := h.named_of_added hfit.target_lt hadded hids hsub
  have hknown := h.known_of_added hready hids hsub
  have hbelow : ∀ t ∈ stored ∪ placed job.outputLevel outs, t.2.id < w'.inner.nextSstId :=
    h.below_of_added hnext hids
  have hinput := h.mem_inputs_of_id hin hids
  have hout := h.id_notMem_inputs hin hids
  rcases hmarker with ⟨hsome, hown⟩ | ⟨hnone, hgone⟩
  · refine ⟨_, job.inputs.map fun input => input.2.id,
      ⟨htables, ?_, hnamed, fun s hs => hknown s hs.1, fun t ht => hbelow t ht.1, ?_, ?_⟩, ?_⟩
    · refine .pending (outs.map SSTable.id) _ hsome (fun id hid => ?_) (fun id hid => ?_)
        fun id hid => ?_
      · obtain ⟨o, ho, rfl⟩ := List.mem_map.mp hid
        have hplaced : (job.outputLevel, o) ∈ placed job.outputLevel outs := ⟨rfl, ho⟩
        exact ⟨_, ⟨Or.inr hplaced, hstay _ (Or.inr hplaced)⟩, rfl⟩
      · obtain ⟨i, hi, rfl⟩ := List.mem_map.mp hid
        have := h.tables.fits i (hin i hi)
        omega
      · obtain ⟨o, ho, rfl⟩ := List.mem_map.mp hid
        exact hout o ho
    · intro id hid
      obtain ⟨i, hi, rfl⟩ := List.mem_map.mp hid
      exact (h.below i (hin i hi)).trans_le hnext
    · intro t ht hid
      have hi := hinput t ht.1 hid
      exact hown t hi ht.2
    · ext t
      constructor
      · rintro ⟨⟨ht | ht, -⟩, hnot⟩
        · exact Or.inl ⟨ht, fun hi => hnot (List.mem_map_of_mem (f := fun i => i.2.id) hi)⟩
        · exact Or.inr ht
      · intro ht
        refine ⟨⟨ht.imp And.left id, hstay t ht⟩, fun hid => ?_⟩
        rcases ht with ⟨ht, hnot⟩ | ho
        · exact hnot (hinput t (Or.inl ht) hid)
        · exact hout t.2 ho.2 hid
  · refine ⟨_, [], ⟨htables, .clear hnone, hnamed, fun s hs => hknown s hs.1,
      fun t ht => hbelow t ht.1, fun id hid => ?_, fun t _ hid => ?_⟩, ?_⟩
    · exact absurd hid List.not_mem_nil
    · exact absurd hid List.not_mem_nil
    · rw [loaded_nil_eq]
      ext t
      constructor
      · rintro ⟨ht | ht, hfile⟩
        · exact Or.inl ⟨ht, fun hi => hfile (hgone t hi)⟩
        · exact Or.inr ht
      · exact fun ht => ⟨ht.imp And.left id, hstay t ht⟩

end Job

end Shelf

/-! ## The reads of the next handle -/

/-- The tables and the log that the next opening finds read like the map, but for the keys in
`dirty`. A record of the log is in the memtable of the handle; an entry of the memtable that is not
in the log is in a file in front of all the tables. -/
structure Agrees (dirty : Set String) (m : Contents) (db : DbInner) (tables : Set Placed)
    (log : SortedMap String MemtableEntry) : Prop where
  sound : ∀ t ∈ tables, t.2.Sound
  reads : ∀ key, key ∉ dirty → ∀ r, Reads (copies tables key) r →
    DbInner.answer (log.get? key) r = m key
  logged : ∀ key, key ∉ dirty → ∀ entry, log.get? key = some entry →
    db.memtable.get? key = some entry
  front : ∀ key, db.memtable.get? key ≠ none → log.get? key = none →
    ∃ t ∈ tables, t ∉ db.tables ∧ t.1 = 0 ∧ t.2.entries.get? key ≠ none

theorem Answers.eq_answer {db : DbInner} {m : Contents} (h : Answers db m) (hready : Ready db)
    (key : String) :
    m key = DbInner.answer (db.memtable.get? key) (lookup db.levels key) := by
  have hget := h key
  rw [DbInner.get_eq_answer hready.sound, Except.ok.injEq] at hget
  exact hget.symm

namespace Agrees

variable {dirty : Set String} {m : Contents} {db db' : DbInner} {tables : Set Placed}
  {log log' : SortedMap String MemtableEntry}

theorem mono {dirty' : Set String} (h : Agrees dirty m db tables log) (hsub : dirty ⊆ dirty') :
    Agrees dirty' m db tables log where
  sound := h.sound
  reads key hkey := h.reads key fun hin => hkey (hsub hin)
  logged key hkey := h.logged key fun hin => hkey (hsub hin)
  front := h.front

theorem log_eq_none (h : Agrees dirty m db tables log) {key : String} (hkey : key ∉ dirty)
    (hmem : db.memtable.get? key = none) : log.get? key = none := by
  by_contra hsome
  obtain ⟨entry, hentry⟩ := Option.ne_none_iff_exists'.mp hsome
  rw [h.logged key hkey entry hentry] at hmem
  cases hmem

/-- Only the memtable and the tables of the handle matter. -/
theorem of_sameData (h : Agrees dirty m db tables log) (hdata : db.SameData db') :
    Agrees dirty m db' tables log where
  sound := h.sound
  reads := h.reads
  logged := by
    rw [hdata.memtable]
    exact h.logged
  front := by
    rw [hdata.memtable, DbInner.mem_tables_congr hdata.levels]
    exact h.front

/-! ### Logging -/

section Log

variable {key : String} {entry : MemtableEntry}

/-- The record is in the log and in the memtable. -/
theorem logged_both (h : Agrees dirty m db tables log)
    (hmemtable : db'.memtable = db.memtable.insert key entry) (htables : db'.tables = db.tables) :
    Agrees (dirty \ {key}) (Function.update m key (MemtableIterator.valueOf entry)) db' tables
      (log.insert key entry) := by
  refine ⟨h.sound, fun k hk r hr => ?_, fun k hk e he => ?_, fun k hne hnone => ?_⟩
  · rw [SortedMap.get?_insert, Function.update_apply]
    by_cases heq : k = key
    · rw [if_pos heq, if_pos heq]
      rfl
    · rw [if_neg heq, if_neg heq]
      exact h.reads k (fun hin => hk ⟨hin, heq⟩) r hr
  · rw [hmemtable, SortedMap.get?_insert]
    rw [SortedMap.get?_insert] at he
    by_cases heq : k = key
    · rw [if_pos heq] at he ⊢
      exact he
    · rw [if_neg heq] at he ⊢
      exact h.logged k (fun hin => hk ⟨hin, heq⟩) e he
  · rw [SortedMap.get?_insert] at hnone
    rw [hmemtable, SortedMap.get?_insert] at hne
    by_cases heq : k = key
    · rw [if_pos heq] at hnone
      cases hnone
    · rw [if_neg heq] at hnone hne
      rw [htables]
      exact h.front k hne hnone

/-- The record is in the log only. -/
theorem logged_alone (h : Agrees dirty m db tables log) :
    Agrees (insert key dirty) m db tables (log.insert key entry) := by
  refine ⟨h.sound, fun k hk r hr => ?_, fun k hk e he => ?_, fun k hne hnone => ?_⟩
  · rw [SortedMap.get?_insert, if_neg fun heq => hk (Or.inl heq)]
    exact h.reads k (fun hin => hk (Or.inr hin)) r hr
  · rw [SortedMap.get?_insert, if_neg fun heq => hk (Or.inl heq)] at he
    exact h.logged k (fun hin => hk (Or.inr hin)) e he
  · rw [SortedMap.get?_insert] at hnone
    split at hnone
    · cases hnone
    · exact h.front k hne hnone

end Log

/-! ### Flushing -/

section Flush

variable {sst : SSTable}

/-- A file of the memtable in front of the tables; the log is as it was, or empty. -/
theorem written (h : Agrees dirty m db tables log) (hready : Ready db) (hanswers : Answers db m)
    (hholds : sst.Holds (db.memtable.map toSstEntry)) (hnew : ∀ t ∈ tables, t.2.id < sst.id)
    (hunknown : (0, sst) ∉ db.tables)
    (hlog : ∀ key entry, log'.get? key = some entry → log.get? key = some entry) :
    Agrees dirty m db (tables ∪ {(0, sst)}) log' := by
  have hentry : ∀ key, sst.entries.get? key = (db.memtable.get? key).map toSstEntry := by
    intro key
    rw [hholds.entries_eq, SortedMap.get?_map]
  refine ⟨?_, fun key hkey r hr => ?_, fun key hkey e he => h.logged key hkey e (hlog key e he),
    fun key hne _ => ?_⟩
  · rintro t (ht | rfl)
    · exact h.sound t ht
    · exact hholds.sound
  · rw [copies_union] at hr
    cases hmem : db.memtable.get? key with
    | none =>
      -- the file does not have the key, and neither does the log
      have hnone := h.log_eq_none hkey hmem
      have hnone' : log'.get? key = none := by
        by_contra hsome
        obtain ⟨e, he⟩ := Option.ne_none_iff_exists'.mp hsome
        rw [hlog key e he] at hnone
        cases hnone
      have hempty : copies {(0, sst)} key = ∅ :=
        copiesIn_singleton_none (by rw [hentry, hmem]; rfl)
      rw [hempty, Set.union_empty] at hr
      have hanswer := h.reads key hkey r hr
      rw [hnone']
      rwa [hnone] at hanswer
    | some entry =>
      have hvalue : m key = MemtableIterator.valueOf entry := by
        rw [hanswers.eq_answer hready, hmem]
        rfl
      have hsingle : copies {(0, sst)} key = {⟨0, sst.id, toSstEntry entry⟩} :=
        copiesIn_singleton_some (by rw [hentry, hmem]; rfl)
      rw [hsingle] at hr
      have htop : Top (copies tables key ∪ {⟨0, sst.id, toSstEntry entry⟩})
          ⟨0, sst.id, toSstEntry entry⟩ := by
        refine Top.of_newest rfl ?_
        rintro a ⟨t, ht, -, hid, -⟩ -
        rw [← hid]
        exact hnew t ht
      have hread : r = some (toSstEntry entry) := hr.unique ⟨_, htop, rfl⟩
      rw [hvalue, hread]
      cases hlog' : log'.get? key with
      | none => cases entry <;> rfl
      | some e =>
        have hsame := h.logged key hkey e (hlog key e hlog')
        rw [hmem, Option.some.injEq] at hsame
        rw [hsame]
        rfl
  · refine ⟨(0, sst), Or.inr rfl, hunknown, rfl, ?_⟩
    rw [hentry]
    simpa using hne

/-- The memtable of the handle is emptied, as the log has been. -/
theorem of_empty (h : Agrees dirty m db tables ∅) (hmemtable : db'.memtable = ∅) :
    Agrees dirty m db' tables ∅ where
  sound := h.sound
  reads := h.reads
  logged key _ entry hentry := by
    rw [SortedMap.get?_empty] at hentry
    cases hentry
  front key hne := by
    rw [hmemtable] at hne
    exact absurd (SortedMap.get?_empty key) hne

end Flush

/-! ### Compaction -/

section Job

variable {job : CompactionJob} {outs : List SSTable}

/-- Where the log has the key, its record is the answer. -/
theorem answer_of_log (h : Agrees dirty m db tables log) (hready : Ready db) (hanswers : Answers db m)
    {key : String} (hkey : key ∉ dirty) {entry : MemtableEntry}
    (hentry : log.get? key = some entry) (r : Option SSTableEntry) :
    DbInner.answer (log.get? key) r = m key := by
  rw [hanswers.eq_answer hready, h.logged key hkey entry hentry, hentry]
  rfl

/-- Outputs of a job, on top of all the tables of the handle. -/
theorem outputs (h : Agrees dirty m db tables log) (hready : Ready db) (hanswers : Answers db m)
    (hin : ∀ t ∈ db.tables, t ∈ tables) (hfit : Fitting db job)
    (hholds : List.Forall₂ SSTable.Holds outs (job.chunks.take outs.length)) :
    Agrees dirty m db (tables ∪ placed job.outputLevel outs) log := by
  have hkept : ∀ key, ∀ o ∈ outs, ∀ r, o.entries.get? key = some r → job.kept.get? key = some r :=
    fun key o ho r hr => get?_kept_of_take hholds ho hr
  refine ⟨?_, fun key hkey r hr => ?_, h.logged, fun key hne hnone => ?_⟩
  · rintro t (ht | ⟨-, ho⟩)
    · exact h.sound t ht
    · exact sound_of_holds hholds t.2 ho
  · cases hlog : log.get? key with
    | some entry =>
      rw [← hlog]
      exact h.answer_of_log hready hanswers hkey hlog r
    | none =>
      rw [copies_union] at hr
      rcases hr.union_cases with hr | ⟨o, ho, htop, rfl⟩
      · rw [← hlog]
        exact h.reads key hkey r hr
      · cases hmem : db.memtable.get? key with
        | some entry =>
          -- a file of the memtable is above the outputs
          obtain ⟨t, ht, -, hzero, hentry⟩ := h.front key (by simp [hmem]) hlog
          obtain ⟨record, hrecord⟩ := Option.ne_none_iff_exists'.mp hentry
          have hcopy : (⟨t.1, t.2.id, record⟩ : Copy SSTableEntry) ∈ copies tables key :=
            ⟨t, ht, rfl, rfl, hrecord⟩
          have hle := htop.level_le (Or.inl hcopy)
          obtain ⟨s, ⟨hlevel, -⟩, hs, -⟩ := ho
          have := hfit.target_pos
          simp only at hle
          omega
        | none =>
          have hlookup := reads_lookup hready.numbered.ascending key
          have hunion := hfit.union hready.numbered (hkept key) (hready.shadowed key)
          have hsub : copies {t | t ∈ db.tables} key ∪ copies (placed job.outputLevel outs) key ⊆
              copies tables key ∪ copies (placed job.outputLevel outs) key :=
            Set.union_subset_union_left _ (copiesIn_mono hin)
          have hread : Reads (copies ({t | t ∈ db.tables} ∪ placed job.outputLevel outs) key)
              (some o.record) := by
            rw [copies_union]
            exact ⟨o, htop.of_subset hsub (Or.inr ho), rfl⟩
          rw [hanswers.eq_answer hready, hmem, hunion.2 hlookup hread]
  · obtain ⟨t, ht, hunknown, hzero, hentry⟩ := h.front key hne hnone
    exact ⟨t, Or.inl ht, hunknown, hzero, hentry⟩

/-- The outputs in the place of the inputs, where all files that the handle does not know are in
front of its tables. -/
theorem merged (h : Agrees dirty m db tables log) (hready : Ready db) (hanswers : Answers db m)
    (hin : ∀ t ∈ db.tables, t ∈ tables) (hfit : Fitting db job)
    (hholds : List.Forall₂ SSTable.Holds outs job.chunks)
    (hfront : ∀ t ∈ tables, t ∉ db.tables →
      t.1 = 0 ∧ ∀ s ∈ db.tables, s.1 = 0 → s.2.id < t.2.id)
    (hmemtable : db'.memtable = db.memtable)
    (hsub : ∀ t ∈ db'.tables, t ∈ db.tables ∨ t ∈ placed job.outputLevel outs) :
    Agrees dirty m db' (tables \ {t | t ∈ job.inputs} ∪ placed job.outputLevel outs) log := by
  have htables : tables = {t | t ∈ db.tables} ∪ (tables \ {t | t ∈ db.tables}) :=
    (Set.union_sdiff_cancel hin).symm
  have hmerged : tables \ {t | t ∈ job.inputs} ∪ placed job.outputLevel outs =
      ({t | t ∈ db.tables} \ {t | t ∈ job.inputs} ∪ placed job.outputLevel outs) ∪
        (tables \ {t | t ∈ db.tables}) := by
    ext t
    constructor
    · rintro (⟨ht, hnot⟩ | ho)
      · by_cases hknown : t ∈ db.tables
        · exact Or.inl (Or.inl ⟨hknown, hnot⟩)
        · exact Or.inr ⟨ht, hknown⟩
      · exact Or.inl (Or.inr ho)
    · rintro ((⟨ht, hnot⟩ | ho) | ⟨ht, hnot⟩)
      · exact Or.inl ⟨hin t ht, hnot⟩
      · exact Or.inr ho
      · exact Or.inl ⟨ht, fun hi => hnot (hfit.mem_tables hi)⟩
  have hpos := hfit.target_pos
  refine ⟨?_, fun key hkey r hr => ?_, ?_, fun key hne hnone => ?_⟩
  · rintro t (⟨ht, -⟩ | ⟨-, ho⟩)
    · exact h.sound t ht
    · exact sound_of_holds hholds t.2 ho
  · cases hlog : log.get? key with
    | some entry =>
      rw [← hlog]
      exact h.answer_of_log hready hanswers hkey hlog r
    | none =>
      have hhides : ∀ F : Set Placed, (∀ s ∈ F, s ∈ db.tables ∨ s.1 ≠ 0) →
          ∀ o ∈ copies (tables \ {t | t ∈ db.tables}) key, Hides o (copies F key) := by
        rintro F hF o ⟨t, ⟨ht, hnot⟩, hlevel, hid, -⟩ b ⟨s, hs, hslevel, hsid, -⟩
        obtain ⟨hzero, hnew⟩ := hfront t ht hnot
        simp only at hlevel hid hslevel hsid
        rcases Nat.eq_zero_or_pos s.1 with hszero | hspos
        · have hlt := hnew s ((hF s hs).resolve_right fun hne => hne hszero) hszero
          exact Or.inr ⟨by omega, by omega⟩
        · exact Or.inl (by omega)
      rw [hmerged, copies_union] at hr
      have hlookup := reads_lookup hready.numbered.ascending key
      have hbehind : ∀ s ∈ {t | t ∈ db.tables} \ {t | t ∈ job.inputs} ∪ placed job.outputLevel outs,
          s ∈ db.tables ∨ s.1 ≠ 0 := by
        rintro s (⟨hs, -⟩ | ⟨hlevel, -⟩)
        · exact Or.inl hs
        · exact Or.inr (by omega)
      rcases hr.of_front (C := copies {t | t ∈ db.tables} key) (hhides _ hbehind)
        (hhides _ fun s hs => Or.inl hs) with hr | ⟨hempty, hr⟩
      · rw [← copies_union, ← htables] at hr
        rw [← hlog]
        exact h.reads key hkey r hr
      · have hread : Reads (copies tables key) (lookup db.levels key) := by
          rw [htables, copies_union, hempty, Set.union_empty]
          exact hlookup
        have hdone := hfit.done hready.numbered (fun r => exists_output_iff hholds)
          (hready.shadowed key)
        rw [← h.reads key hkey _ hread, hlog]
        exact hdone.2 hlookup hr
  · rw [hmemtable]
    exact h.logged
  · rw [hmemtable] at hne
    obtain ⟨t, ht, hunknown, hzero, hentry⟩ := h.front key hne hnone
    refine ⟨t, Or.inl ⟨ht, fun hi => hunknown (hfit.mem_tables hi)⟩, fun hin' => ?_, hzero, hentry⟩
    rcases hsub t hin' with hknown | ⟨hlevel, -⟩
    · exact hunknown hknown
    · omega

end Job

end Agrees

/-! ## The invariant -/

/-- The handle answers like the map, and so does the one that is opened next, but for the keys in
`dirty`. -/
structure Recoverable (dirty : Set String) (m : Contents) (w : World) : Prop where
  ready : Ready w.inner
  answers : Answers w.inner m
  fails : ∀ name, w.disk.unlinkFails name = false
  stop : w.disk.stop = none
  directory : ∃ stored gone rs, Shelf w stored gone ∧ LogHolds w.files rs [] ∧
    Agrees dirty m w.inner (loaded stored gone) (replay rs)

section Steps

variable {dirty : Set String} {m : Contents} {w w' : World}

theorem Live.recoverable (h : Live m w) (hstop : w.disk.stop = none) : Recoverable ∅ m w := by
  obtain ⟨htables, hmarker, rs, hlog, hreplay⟩ := h.stands
  have hreading := h.reading
  refine ⟨h.ready, h.answers, h.fails, hstop, {t | t ∈ w.inner.tables}, [], rs,
    ⟨htables, .clear hmarker, fun t ht => ?_, h.ready.numbered.distinct, h.ready.numbered.below,
      fun id hid => ?_, fun t ht _ => ht⟩, hlog, ?_⟩
  · exact ⟨htables.level t ht, htables.fits t ht, htables.path t ht⟩
  · exact absurd hid List.not_mem_nil
  · rw [loaded_nil_eq, hreplay]
    refine ⟨hreading.sound, fun key _ r hr => hreading.reads key r hr,
      fun key _ entry hentry => hentry,
      fun key hne hnone => absurd hnone hne⟩

namespace Recoverable

theorem mono {dirty' : Set String} (h : Recoverable dirty m w) (hsub : dirty ⊆ dirty') :
    Recoverable dirty' m w := by
  obtain ⟨stored, gone, rs, hshelf, hlog, hagrees⟩ := h.directory
  exact ⟨h.ready, h.answers, h.fails, h.stop, stored, gone, rs, hshelf, hlog, hagrees.mono hsub⟩

/-- What the frame of a part of a call leaves to prove. -/
theorem of_frame (h : Recoverable dirty m w) (hframe : w.Frame w') {dirty' : Set String}
    {m' : Contents} (hready : Ready w'.inner) (hanswers : Answers w'.inner m')
    (hdirectory : ∃ stored gone rs, Shelf w' stored gone ∧ LogHolds w'.files rs [] ∧
      Agrees dirty' m' w'.inner (loaded stored gone) (replay rs)) : Recoverable dirty' m' w' := by
  refine ⟨hready, hanswers, fun name => ?_, hframe.disk.stop h.stop, hdirectory⟩
  rw [hframe.disk.unlinkFails]
  exact h.fails name

/-- Nothing has changed but the counters. -/
theorem of_same (h : Recoverable dirty m w) (hframe : w.Frame w') (hdata : w.inner.SameData w'.inner)
    (hfiles : w'.files = w.files) : Recoverable dirty m w' := by
  obtain ⟨stored, gone, rs, hshelf, hlog, hagrees⟩ := h.directory
  have hpreserved := h.ready.of_sameData hdata hframe.nextSstId
  exact h.of_frame hframe hpreserved.ready (h.answers.of_preserved hpreserved)
    ⟨stored, gone, rs, hshelf.of_files (DbInner.mem_tables_congr hdata.levels) hframe.nextSstId
      fun name _ => by rw [hfiles], hlog.congr (by rw [hfiles]), hagrees.of_sameData hdata⟩

/-- The next opening succeeds and answers like the map. -/
theorem opens (h : Recoverable dirty m w) (options : DbOptions) (listing : Listing) :
    ∃ db disk', openWithOptions options (w.disk.under listing none) = .ok db disk' ∧
      ∀ key, key ∉ dirty → db.get key = .ok (m key) := by
  obtain ⟨stored, gone, rs, hshelf, hlog, hagrees⟩ := h.directory
  have hrestores : Restores (w.disk.under listing none).dir _ _ := hshelf.restores hlog
  have hopen := hrestores.wp_openWithOptions h.fails options
  rw [Wp] at hopen
  split at hopen
  · obtain ⟨hloaded, htables, hmemtable, -⟩ := hopen
    refine ⟨_, _, ‹_›, fun key hkey => ?_⟩
    have hsound : DbInner.Sound _ := fun t ht => hagrees.sound t (htables ▸ ht)
    have hread := reads_lookup hloaded.ascending key
    rw [DbInner.get_eq_answer hsound, hmemtable]
    exact congrArg _ (hagrees.reads key hkey _ (htables ▸ hread))
  · exact absurd rfl hopen.1

/-! ### Logging -/

section Log

variable {record : WalRecord} {key : String} {entry : MemtableEntry}

/-- A log with one more record, read by a handle that has the same tables. -/
theorem appended (h : Recoverable dirty m w) (hframe : w.Frame w') (hrecord : record.Fits)
    (hreplay : ∀ memtable, replayRecord memtable record = memtable.insert key entry)
    (htables : w'.inner.tables = w.inner.tables)
    (hfiles : w'.files = PebbleDB.appended w.files record.encode) {dirty' : Set String}
    {m' : Contents} (hready : Ready w'.inner) (hanswers : Answers w'.inner m')
    (hagrees : ∀ {tables log}, Agrees dirty m w.inner tables log →
      Agrees dirty' m' w'.inner tables (log.insert key entry)) : Recoverable dirty' m' w' := by
  obtain ⟨stored, gone, rs, hshelf, hlog, hold⟩ := h.directory
  refine h.of_frame hframe hready hanswers ⟨stored, gone, rs ++ [record],
    hshelf.of_files htables hframe.nextSstId fun name hne => ?_, ?_, ?_⟩
  · rw [hfiles, appended_of_ne hne]
  · rw [hfiles]
    exact hlog.concat hrecord
  · rw [replay_concat, hreplay]
    exact hagrees hold

theorem of_logged (h : Recoverable dirty m w) (hrecord : record.Fits)
    (hreplay : ∀ memtable, replayRecord memtable record = memtable.insert key entry)
    (hlogged : Logged record key entry w w') (hframe : w.Frame w') :
    Recoverable (dirty \ {key}) (Function.update m key (MemtableIterator.valueOf entry)) w' := by
  obtain ⟨hready, hanswers⟩ := Holding.logged ⟨h.ready, h.answers⟩ hlogged
  exact h.appended hframe hrecord hreplay hlogged.sameTables hlogged.files hready hanswers
    fun hagrees => hagrees.logged_both hlogged.memtable hlogged.sameTables

/-- While the process does not stop, a record is appended as a whole or not at all. -/
theorem wp_logRecord_whole (record : WalRecord) (key : String) (entry : MemtableEntry)
    (hstop : w.disk.stop = none) :
    Wp (logRecord record key entry) (fun _ _ => True)
      (fun _ w' => w'.files = w.files ∨ w'.files = PebbleDB.appended w.files record.encode) w := by
  rw [logRecord]
  refine Wp.bind ((wp_passed _ w).mono (fun _ w₁ hpass₁ => ?_) fun _ w' hpass => Or.inl hpass.files)
  have hrest : ∀ w₂ : World, w₂.files = PebbleDB.appended w.files record.encode →
      Wp (hit .afterWalAppend >>= fun _ => hit .afterWalFsync >>= fun _ =>
          update (fun db => { db with memtable := db.memtable.insert key entry }) >>= fun _ =>
          hit .afterMemtableUpdate)
        (fun _ _ => True)
        (fun _ w' => w'.files = w.files ∨ w'.files = PebbleDB.appended w.files record.encode)
        w₂ := by
    intro w₂ hfiles₂
    refine Wp.bind ((wp_passed _ w₂).mono (fun _ w₃ hpass₃ => ?_) fun _ w' hpass =>
      Or.inr (hpass.files.trans hfiles₂))
    have hfiles₃ := hpass₃.files.trans hfiles₂
    refine Wp.bind ((wp_passed _ w₃).mono (fun _ w₄ hpass₄ => ?_) fun _ w' hpass =>
      Or.inr (hpass.files.trans hfiles₃))
    have hfiles₄ := hpass₄.files.trans hfiles₃
    refine Wp.bind (Wp.modify ?_)
    exact (wp_passed _ _).mono (fun _ _ _ => trivial) fun _ w' hpass =>
      Or.inr (hpass.files.trans hfiles₄)
  rw [appendRecord]
  refine Wp.bind (Wp.ite (fun _ => Wp.throw (Or.inl hpass₁.files)) fun _ => ?_)
  refine Wp.onPart (Disk.wp_perform (fun stop _ => hrest _ ?_) fun cut hne => ?_)
  · show settled ((FileOp.append walFile record.encode).apply w₁.disk.dir) = _
    rw [settled_append, hpass₁.disk]
  · exact absurd (hpass₁.disk ▸ hstop) hne

theorem wp_logRecord (h : Recoverable dirty m w) (hrecord : record.Fits)
    (hreplay : ∀ memtable, replayRecord memtable record = memtable.insert key entry) :
    Wp (logRecord record key entry)
      (fun _ w' =>
        Recoverable (dirty \ {key}) (Function.update m key (MemtableIterator.valueOf entry)) w')
      (fun _ w' => Recoverable (insert key dirty) m w' ∨
        Recoverable (insert key dirty) (Function.update m key (MemtableIterator.valueOf entry)) w')
      w := by
  have hsub : dirty ⊆ insert key dirty := Set.subset_insert _ _
  refine ((PebbleDB.wp_logRecord record key entry w).and
    ((wp_logRecord_whole record key entry h.stop).and (along_logRecord record key entry w))).mono ?_ ?_
  · rintro _ w' ⟨hlogged, -, hframe⟩
    exact h.of_logged hrecord hreplay hlogged hframe
  · rintro _ w' ⟨hexit, hwhole, hframe⟩
    cases hexit with
    | logged hdone =>
      exact Or.inr ((h.of_logged hrecord hreplay hdone hframe).mono
        (Set.sdiff_subset.trans hsub))
    | cut hdata hnext _ =>
      left
      rcases hwhole with hfiles | hfiles
      · exact (h.of_same hframe hdata hfiles).mono hsub
      · have hpreserved := h.ready.of_sameData hdata hnext.ge
        exact h.appended hframe hrecord hreplay (DbInner.mem_tables_congr hdata.levels) hfiles
          hpreserved.ready (h.answers.of_preserved hpreserved)
          fun hagrees => hagrees.logged_alone.of_sameData hdata

end Log

/-! ### Flushing -/

section Flush

variable [BloomSizing] {w₁ : World} {sst : SSTable}

/-- The file of the memtable is there, and the handle does not know it. The log is as before or
empty. -/
theorem of_written (h : Recoverable dirty m w)
    (hwrote : Wrote 0 (w.inner.memtable.map toSstEntry) w w₁ sst) (hfits : w₁.disk.Fits)
    (hframe₁ : w₁.Frame w') (hframe : w.Frame w') (hdata : w.inner.SameData w'.inner)
    (hfiles : w'.files = w₁.files ∨ w'.files = Function.update w₁.files walFile (some [])) :
    Recoverable dirty m w' := by
  obtain ⟨stored, gone, rs, hshelf, hlog, hagrees⟩ := h.directory
  have htables : w'.inner.tables = w.inner.tables := DbInner.mem_tables_congr hdata.levels
  have hpreserved := h.ready.of_sameData hdata hframe.nextSstId
  have hother : ∀ name, name ≠ walFile → w'.files name = w₁.files name := by
    intro name hne
    rcases hfiles with heq | heq
    · rw [heq]
    · rw [heq, Function.update_of_ne hne]
  obtain ⟨hshelf', hloaded, hwal⟩ := hshelf.written h.ready hwrote hframe₁
    (fun t ht => htables ▸ ht) (fun t ht => Or.inl (htables ▸ ht)) hother
  have hagrees' : ∀ log' : SortedMap String MemtableEntry,
      (∀ key entry, log'.get? key = some entry → (replay rs).get? key = some entry) →
      Agrees dirty m w'.inner (loaded (stored ∪ {(0, sst)}) gone) log' := by
    intro log' hsub
    have hfresh := hwrote.id.ge
    rw [hloaded]
    refine (hagrees.written h.ready h.answers (hwrote.holds hfits) (fun t ht => ?_) (fun hin => ?_)
      hsub).of_sameData hdata
    · exact (hshelf.below t ht.1).trans_le hfresh
    · exact absurd ((h.ready.numbered.below _ hin).trans_le hfresh) (lt_irrefl _)
  refine h.of_frame hframe hpreserved.ready (h.answers.of_preserved hpreserved) ?_
  rcases hfiles with heq | heq
  · exact ⟨_, gone, rs, hshelf', hlog.congr (by rw [heq, hwal]), hagrees' _ fun _ _ => id⟩
  · refine ⟨_, gone, [], hshelf', ⟨by simp, tornTail_nil, ?_⟩, hagrees' _ fun key entry hentry => ?_⟩
    · rw [heq, Function.update_self]
      rfl
    · cases hentry

/-- The file of the memtable is a table of the handle. -/
theorem of_flushDone (h : Recoverable dirty m w) (hdone : FlushDone w w' sst) (hframe : w.Frame w')
    (hfits : w'.disk.Fits) : Recoverable dirty m w' := by
  obtain ⟨stored, gone, rs, hshelf, hlog, hagrees⟩ := h.directory
  have hflushed := hdone.flushed hfits
  have hpreserved := h.ready.flushDone hdone hfits
  have hmem := fun t => hflushed.mem_tables h.ready.zero (t := t)
  obtain ⟨w₁, hwrote, hframe₁, hfiles⟩ := hdone.wrote
  obtain ⟨hshelf', hloaded, -⟩ := hshelf.written h.ready hwrote hframe₁
    (fun t ht => (hmem t).mpr (Or.inl ht)) (fun t ht => (hmem t).mp ht)
    fun name hne => by rw [hfiles, Function.update_of_ne hne]
  refine h.of_frame hframe hpreserved.ready (h.answers.of_preserved hpreserved)
    ⟨_, gone, [], hshelf', ⟨by simp, tornTail_nil, ?_⟩, ?_⟩
  · rw [hfiles, Function.update_self]
    rfl
  · rw [hloaded]
    refine Agrees.of_empty (hagrees.written h.ready h.answers hflushed.holds (fun t ht => ?_)
      (fun hin => ?_) fun key entry hentry => ?_) hdone.memtable
    · exact (hshelf.below t ht.1).trans_le hflushed.fresh
    · exact absurd ((h.ready.numbered.below _ hin).trans_le hflushed.fresh) (lt_irrefl _)
    · cases hentry

theorem wp_flushTable (h : Recoverable dirty m w) :
    Wp flushTable (fun _ w' => w'.disk.Fits → Recoverable dirty m w')
      (fun _ w' => w'.disk.Fits → Recoverable dirty m w') w := by
  refine ((PebbleDB.wp_flushTable w).and (along_flushTable w)).mono ?_ ?_
  · rintro _ w' ⟨⟨sst, hdone⟩, hframe⟩ hfits
    exact h.of_flushDone hdone hframe hfits
  · rintro _ w' ⟨hexit, hframe⟩ hfits
    cases hexit with
    | writing hdata hfiles =>
      rcases hfiles with hfiles | hadded
      · exact h.of_same hframe hdata hfiles
      · obtain ⟨sst, hwrote⟩ := hadded.exists_wrote hfits
        exact h.of_written hwrote hfits (.refl _) hframe hdata (Or.inl rfl)
    | written sst w₁ hwrote hdata hframe₁ hfiles =>
      exact h.of_written hwrote (hframe₁.disk.fits hfits) hframe₁ hframe hdata hfiles
    | flushed sst hdone => exact h.of_flushDone hdone hframe hfits

end Flush

end Recoverable

end Steps

/-! ## Compaction -/

/-- The directory has the files of all tables of the handle, and no merge is pending that would
remove one of them. -/
structure Clear (w : World) : Prop where
  present : ∀ t ∈ w.inner.tables, w.disk.dir.get? t.2.path ≠ none
  unmarked : ∀ outputs inputs, readPending w.disk.dir = .ok (some (outputs, inputs)) →
    ∀ t ∈ w.inner.tables, t.2.id ∉ inputs

/-- The table files that the handle does not know are files of level zero, newer than those that it
knows. -/
def UnknownInFront (w : World) : Prop :=
  ∀ name id level, w.disk.dir.get? name ≠ none → parseSstableFileName name = some (id, level) →
    (∀ t ∈ w.inner.tables, t.2.path ≠ name) →
    level = 0 ∧ ∀ t ∈ w.inner.tables, t.1 = 0 → t.2.id < id

namespace Shelf

variable {w : World} {stored : Set Placed} {gone : List Nat}

theorem parse_path (h : Shelf w stored gone) {t : Placed} (ht : t ∈ w.inner.tables) :
    parseSstableFileName t.2.path = some (t.2.id, t.1) := by
  obtain ⟨hlevel, hfits, hpath⟩ := h.named t ht
  rw [hpath, parse_sstableFileName hlevel (by omega)]

theorem mem_of_clear (h : Shelf w stored gone) (hclear : Clear w) :
    ∀ t ∈ w.inner.tables, t ∈ stored := by
  intro t ht
  have hparse := h.parse_path ht
  have hsome : parseSstableFileName t.2.path ≠ none := by
    rw [hparse]
    exact Option.some_ne_none _
  have hfile : w.files t.2.path ≠ none := by
    rw [World.files, TableFiles.settled_of_parse hsome]
    exact hclear.present t ht
  obtain ⟨s, hs, hpath⟩ := h.tables.complete _ hfile hsome
  have hparse' := h.tables.parse_path hs
  rw [hpath, hparse, Option.some.injEq, Prod.mk.injEq] at hparse'
  exact h.known s hs t ht hparse'.1.symm ▸ hs

/-- A pending merge, if there is one, has no inputs left. -/
theorem loaded_of_clear (h : Shelf w stored gone) (hclear : Clear w) :
    loaded stored gone = stored := by
  have htables := h.tables
  have hnot : ∀ t ∈ w.inner.tables, t.2.id ∉ gone := by
    cases h.marker with
    | clear _ => exact fun t _ => List.not_mem_nil
    | pending outputs _ hmarker hthere hfits _ =>
      refine hclear.unmarked outputs gone (readPending_marker hmarker (fun id hid => ?_) hfits)
      obtain ⟨t, ht, rfl⟩ := hthere id hid
      have := htables.fits t ht
      omega
  ext t
  exact ⟨And.left, fun ht => ⟨ht, fun hgone => hnot t (h.own t ht hgone) hgone⟩⟩

theorem front_of_unknownInFront (h : Shelf w stored gone) (hfront : UnknownInFront w) :
    ∀ t ∈ stored, t ∉ w.inner.tables →
      t.1 = 0 ∧ ∀ s ∈ w.inner.tables, s.1 = 0 → s.2.id < t.2.id := by
  intro t ht hunknown
  have hparse := h.tables.parse_path ht
  have hsome : parseSstableFileName t.2.path ≠ none := by
    rw [hparse]
    exact Option.some_ne_none _
  refine hfront t.2.path t.2.id t.1 ?_ hparse fun s hs hpath => ?_
  · rw [← TableFiles.settled_of_parse hsome]
    exact h.tables.file_ne_none ht
  · have hparse' := h.parse_path hs
    rw [hpath, hparse, Option.some.injEq, Prod.mk.injEq] at hparse'
    exact hunknown (h.known t ht s hs hparse'.1 ▸ hs)

end Shelf

section Job

variable [BloomSizing]

/-- `execute_job` up to `write_pending_merge`. -/
def CompactionJob.stage (job : CompactionJob) : OpM (List SSTable) := do
  let outputs ← writeOutputs job
  hit .afterCompactionOutputCreation
  return outputs

/-- `execute_job` from `write_pending_merge` on. -/
def CompactionJob.install (job : CompactionJob) (outputs : List SSTable) : OpM Unit := do
  onDisk (writePendingMerge (outputs.map SSTable.id) (job.inputs.map fun input => input.2.id))
  deleteInputs job.inputs
  hit .afterObsoleteFileDelete
  hit .beforeMetadataUpdate
  update fun db => db.applyJob job outputs
  hit .afterMetadataUpdate
  onDisk clearPendingMerge

theorem executeJob_eq (job : CompactionJob) : executeJob job = job.stage >>= job.install := by
  simp only [executeJob, CompactionJob.stage, CompactionJob.install, bind_assoc, pure_bind]

/-- The directory in which a job can start. What a failed job has left there does no harm to a job
that does not get to its marker. -/
structure ClearFor (job : CompactionJob) (w : World) : Prop extends Clear w where
  front : ∀ outputs w', job.stage w = .ok outputs w' → UnknownInFront w

theorem wp_stage {job : CompactionJob} (hlevel : job.outputLevel < 2 ^ 32)
    (hsound : ∀ input ∈ job.inputs, input.2.Sound)
    (w : World) :
    Wp job.stage (fun _ _ => True)
      (fun _ w' => w.inner.SameData w'.inner ∧
        (w'.disk.Fits → ∃ outs, Outputs job.outputLevel job.chunks w w' outs)) w := by
  rw [CompactionJob.stage, writeOutputs_eq job hsound]
  refine Wp.bind ((wp_writeAll hlevel job.chunks w).mono ?_ fun _ _ hexit => hexit)
  rintro outs w₁ ⟨hdata, -, houts⟩
  exact Wp.bind ((wp_passed _ w₁).mono (fun _ _ _ => Wp.pure trivial) fun _ w' hpass =>
    ⟨hdata.trans hpass.data, fun _ => ⟨outs, houts.mono hpass.files hpass.frame⟩⟩)

end Job

namespace Recoverable

variable {dirty : Set String} {m : Contents} {w w' : World} {job : CompactionJob}

/-- The first outputs of a job are there. -/
theorem of_outputs (h : Recoverable dirty m w) (hfit : Fitting w.inner job) (hclear : Clear w)
    {outs : List SSTable} (houts : Outputs job.outputLevel job.chunks w w' outs)
    (hdata : w.inner.SameData w'.inner) (hframe : w.Frame w') (hfits : w'.disk.Fits) :
    Recoverable dirty m w' := by
  obtain ⟨stored, gone, rs, hshelf, hlog, hagrees⟩ := h.directory
  have htables : w'.inner.tables = w.inner.tables := DbInner.mem_tables_congr hdata.levels
  have hpreserved := h.ready.of_sameData hdata hframe.nextSstId
  have hshelf' := hshelf.added h.ready hfit.target_lt houts.ids houts.added hframe.nextSstId
    (fun t ht => htables ▸ ht) fun t ht => Or.inl (htables ▸ ht)
  have hwal := Mirrored.others_eq houts.added hshelf'.tables fixed_names.1
  refine h.of_frame hframe hpreserved.ready (h.answers.of_preserved hpreserved)
    ⟨_, gone, rs, hshelf', hlog.congr hwal, ?_⟩
  rw [hshelf.loaded_added houts.ids]
  refine (hagrees.outputs h.ready h.answers (fun t ht => ?_) hfit (houts.holds hfits)).of_sameData
    hdata
  rw [hshelf.loaded_of_clear hclear]
  exact hshelf.mem_of_clear hclear t ht

/-- The marker of a job is there, or the job is done. -/
theorem of_marked (h : Recoverable dirty m w) (hfit : Fitting w.inner job) (hclear : Clear w)
    (hfront : UnknownInFront w) {outs : List SSTable} (hcomplete : Complete job w w' outs)
    {added : String → Option Bytes} (hadded : Added job.outputLevel outs w.files added)
    (hleft : ∀ name, name ≠ mergePendingFile → w'.files name = added name ∨
      (w'.files name = none ∧ ∃ i ∈ job.inputs, i.2.path = name))
    (hpreserved : Preserved w.inner w'.inner) (hmemtable : w'.inner.memtable = w.inner.memtable)
    (hsub : ∀ t ∈ w'.inner.tables, t ∈ w.inner.tables ∨ t ∈ placed job.outputLevel outs)
    (hmarker : (w'.files mergePendingFile = some (markerBytes job outs) ∧
        ∀ i ∈ job.inputs, w'.files i.2.path ≠ none → i ∈ w'.inner.tables) ∨
      (w'.files mergePendingFile = none ∧ ∀ i ∈ job.inputs, w'.files i.2.path = none))
    (hframe : w.Frame w') (hfits : w'.disk.Fits) : Recoverable dirty m w' := by
  obtain ⟨stored, gone, rs, hshelf, hlog, hagrees⟩ := h.directory
  have hin := hshelf.mem_of_clear hclear
  have hinputs : ∀ i ∈ job.inputs, i ∈ stored := fun i hi => hin i (hfit.mem_tables hi)
  obtain ⟨stored', gone', hshelf', hloaded⟩ := hshelf.merged h.ready hfit hinputs hcomplete.ids
    hframe.nextSstId hadded hleft hsub hmarker
  rw [hshelf.loaded_of_clear hclear] at hagrees
  have hwal : w'.files walFile = w.files walFile := by
    rcases hleft walFile fixed_names.2.2.2.2 with heq | ⟨-, i, hi, hpath⟩
    · rw [heq]
      exact Mirrored.others_eq hadded (hshelf.tables.added hfit.target_lt hadded hcomplete.ids.fits
        (fun a ha b hb => hcomplete.ids.injective ha hb) (hshelf.id_ne hcomplete.ids)) fixed_names.1
    · exact absurd hpath (hshelf.tables.ne_walFile (hinputs i hi))
  refine h.of_frame hframe hpreserved.ready (h.answers.of_preserved hpreserved)
    ⟨stored', gone', rs, hshelf', hlog.congr hwal, ?_⟩
  rw [hloaded]
  exact hagrees.merged h.ready h.answers hin hfit (hcomplete.holds hfits)
    (hshelf.front_of_unknownInFront hfront) hmemtable hsub

theorem path_ne_marker (h : Recoverable dirty m w) :
    ∀ t ∈ w.inner.tables, t.2.path ≠ mergePendingFile := by
  intro t ht heq
  obtain ⟨stored, gone, rs, hshelf, -, -⟩ := h.directory
  have hparse := hshelf.parse_path ht
  rw [heq, fixed_names.2.1] at hparse
  cases hparse

/-- The marker is there, and some inputs are gone. -/
theorem of_markedFiles (h : Recoverable dirty m w) (hfit : Fitting w.inner job) (hclear : Clear w)
    (hfront : UnknownInFront w) {outs : List SSTable} (hcomplete : Complete job w w' outs)
    (hfiles : MarkedFiles job outs w.files w'.files) (hdata : w.inner.SameData w'.inner)
    (hframe : w.Frame w') (hfits : w'.disk.Fits) : Recoverable dirty m w' := by
  have htables : w'.inner.tables = w.inner.tables := DbInner.mem_tables_congr hdata.levels
  obtain ⟨hmarker, added, hadded, hleft⟩ :=
    hfiles.left fun i hi => h.path_ne_marker i (hfit.mem_tables hi)
  refine h.of_marked hfit hclear hfront hcomplete hadded hleft
    (h.ready.of_sameData hdata hframe.nextSstId) hdata.memtable
    (fun t ht => Or.inl (htables ▸ ht)) (Or.inl ⟨hmarker, fun i hi _ => ?_⟩) hframe hfits
  rw [htables]
  exact hfit.mem_tables hi

/-- The handle has the outputs in the place of the inputs, and the inputs are gone. -/
theorem of_emptiedFiles (h : Recoverable dirty m w) (hfit : Fitting w.inner job) (hclear : Clear w)
    (hfront : UnknownInFront w) {outs : List SSTable} (hcomplete : Complete job w w' outs)
    (hdata : Applied job outs w.inner w'.inner) {emptied : String → Option Bytes}
    (hemptied : EmptiedFiles job outs w emptied)
    (hfiles : w'.files = emptied ∨ w'.files = Function.update emptied mergePendingFile none)
    (hframe : w.Frame w') (hfits : w'.disk.Fits) : Recoverable dirty m w' := by
  have hne : ∀ i ∈ job.inputs, i.2.path ≠ mergePendingFile := fun i hi =>
    h.path_ne_marker i (hfit.mem_tables hi)
  obtain ⟨hmarked, hgone⟩ := hemptied
  obtain ⟨hmarker, added, hadded, hleft⟩ := hmarked.left hne
  have hother : ∀ name, name ≠ mergePendingFile → w'.files name = emptied name := by
    intro name hname
    rcases hfiles with heq | heq
    · rw [heq]
    · rw [heq, Function.update_of_ne hname]
  have hnone : ∀ i ∈ job.inputs, w'.files i.2.path = none := fun i hi => by
    rw [hother _ (hne i hi)]
    exact hgone i hi (h.fails _)
  refine h.of_marked hfit hclear hfront hcomplete hadded (fun name hname => ?_)
    (h.ready.applied hfit hdata hcomplete hframe hfits) hdata.memtable (fun t ht => ?_) ?_ hframe
    hfits
  · rw [hother name hname]
    exact hleft name hname
  · rw [DbInner.mem_tables_congr hdata.levels] at ht
    have hset := @setOf_mem_tables_applyJob w.inner job outs h.ready.numbered hfit
    have hin : t ∈ {t | t ∈ (w.inner.applyJob job outs).tables} := ht
    rw [hset] at hin
    exact hin.imp And.left id
  · rcases hfiles with heq | heq
    · exact Or.inl ⟨by rw [heq, hmarker], fun i hi hsome => absurd (hnone i hi) hsome⟩
    · exact Or.inr ⟨by rw [heq, Function.update_self], hnone⟩

theorem wp_job [BloomSizing] (h : Recoverable dirty m w) (hissued : Issued w.inner job)
    (hstart : ClearFor job w) :
    Wp (executeJob job) (fun _ w' => w'.disk.Fits → Recoverable dirty m w')
      (fun _ w' => w'.disk.Fits → Recoverable dirty m w') w := by
  have hfit := hissued.fitting h.ready.numbered h.ready.sound
  have hsound : ∀ input ∈ job.inputs, input.2.Sound := fun input hinput =>
    h.ready.sound input (hfit.mem_tables hinput)
  have hclear := hstart.toClear
  cases hstage : job.stage w with
  | error e w' =>
    have hrun : executeJob job w = .error e w' := by
      rw [executeJob_eq]
      exact bind_of_error hstage
    have hframe : w.Frame w' := (along_executeJob job w).exit_of_eq hrun
    obtain ⟨hdata, houts⟩ := (wp_stage hfit.target_lt hsound w).exit_of_eq hstage
    refine Wp.of_eq_error hrun fun hfits => ?_
    obtain ⟨outs, houts⟩ := houts hfits
    exact h.of_outputs hfit hclear houts hdata hframe hfits
  | ok outputs w₁ =>
    have hfront := hstart.front outputs w₁ hstage
    refine ((wp_executeJob hfit.target_lt hsound w).and (along_executeJob job w)).mono ?_ ?_
    · rintro _ w' ⟨⟨outs, hdata, hcomplete, emptied, hemptied, hfiles⟩, hframe⟩ hfits
      exact h.of_emptiedFiles hfit hclear hfront hcomplete hdata hemptied (Or.inr hfiles) hframe hfits
    · rintro _ w' ⟨hexit, hframe⟩ hfits
      cases hexit with
      | writing hdata houts =>
        obtain ⟨outs, houts⟩ := houts hfits
        exact h.of_outputs hfit hclear houts hdata hframe hfits
      | marked outs hdata hcomplete hfiles =>
        exact h.of_markedFiles hfit hclear hfront hcomplete hfiles hdata hframe hfits
      | applied outs hdata hcomplete hfiles =>
        rcases hfiles with hemptied | ⟨emptied, hemptied, hfiles⟩
        · exact h.of_emptiedFiles hfit hclear hfront hcomplete hdata hemptied (Or.inl rfl) hframe
            hfits
        · exact h.of_emptiedFiles hfit hclear hfront hcomplete hdata hemptied (Or.inr hfiles) hframe
            hfits

end Recoverable

end PebbleDB
