import PebbleDB.Iter
import PebbleDB.Lib.Overlay
import PebbleDB.SSTableReading

/-!
# What the iterators read

`LawfulCursor` is the contract of a cursor over a finite map: after each call the records still
to be read are known. Memtable and table cursors keep it, and so does a merge of lawful cursors,
over the overlay of their maps (`MergeIterator.lawful`). Hidden tombstones are left out of that
map, not skipped one by one in the proofs that use it.
-/

namespace PebbleDB

theorem forall₂_append_split {α β : Type} {R : α → β → Prop} {l₁ l₂ : List α} {l : List β}
    (h : List.Forall₂ R (l₁ ++ l₂) l) :
    ∃ m₁ m₂, List.Forall₂ R l₁ m₁ ∧ List.Forall₂ R l₂ m₂ ∧ l = m₁ ++ m₂ := by
  induction l₁ generalizing l with
  | nil => exact ⟨[], l, List.Forall₂.nil, h, rfl⟩
  | cons a l₁ ih =>
    obtain ⟨b, l', hab, h', rfl⟩ := List.forall₂_cons_left_iff.mp h
    obtain ⟨m₁, m₂, h₁, h₂, rfl⟩ := ih h'
    exact ⟨b :: m₁, m₂, List.Forall₂.cons hab h₁, h₂, rfl⟩

theorem exists_of_forall₂ {α β : Type} {R : α → β → Prop} {l : List α} {m : List β}
    (h : List.Forall₂ R l m) {b : β} (hb : b ∈ m) : ∃ a ∈ l, R a b := by
  induction h with
  | nil => simp at hb
  | cons hab _ ih =>
    rcases List.mem_cons.mp hb with rfl | hb
    · exact ⟨_, List.mem_cons_self, hab⟩
    · obtain ⟨a, ha, hab⟩ := ih hb
      exact ⟨a, List.mem_cons_of_mem _ ha, hab⟩

/-- A cursor's view of its records: a key, and its value or none for a tombstone. -/
abbrev Records := SortedMap String (Option String)

open StorageIterator in
/-- `Over c m`: the cursor `c` reads the map `m`. `At c m l`: it is positioned, and `l` is what is
left to be read. -/
class LawfulCursor (σ : Type) [StorageIterator σ] where
  Over : σ → Records → Prop
  At : σ → Records → List (String × Option String) → Prop
  over_of_at {c m l} : At c m l → Over c m
  key_eq {c m l} : At c m l → key c = l.head?.map Prod.fst
  value_eq {c m l} : At c m l → value c = l.head?.bind Prod.snd
  valid_eq {c m l} : At c m l → valid c = l.head?.isSome
  seekToFirst_at {c m} : Over c m → ∃ c', seekToFirst c = .ok c' ∧ At c' m m.entries
  seek_at {c m} (target : String) : Over c m → ∃ c', seek c target = .ok c' ∧
    At c' m (m.entries.filter fun e => decide (target ≤ e.1))
  advance_at {c m l} : At c m l → ∃ c', advance c = .ok c' ∧ At c' m l.tail
  size_le {c m} : Over c m → m.size ≤ bound c

/-! ## Memtable -/

namespace MemtableIterator

/-- The position, `none` past the end, leaves the records `l`. -/
def Positioned (it : MemtableIterator) (l : List (String × Option String)) : Prop :=
  match it.pos with
  | none => l = []
  | some pos => pos < it.entries.length ∧ l = it.entries.drop pos

theorem positioned_of_drop (entries : List (String × Option String)) (pos : Nat) :
    Positioned ⟨entries, if pos < entries.length then some pos else none⟩ (entries.drop pos) := by
  rw [Positioned]
  split
  · rename_i hnone
    have : ¬ pos < entries.length := by
      intro hlt
      simp [hlt] at hnone
    exact List.drop_of_length_le (Nat.not_lt.mp this)
  · rename_i p hsome
    have hlt : pos < entries.length := by
      by_contra hnot
      simp [hnot] at hsome
    simp only [hlt, if_true, Option.some.injEq] at hsome
    subst hsome
    exact ⟨hlt, rfl⟩

theorem Positioned.head? {it : MemtableIterator} {l : List (String × Option String)}
    (h : it.Positioned l) : (it.pos.bind fun pos => it.entries[pos]?) = l.head? := by
  rw [Positioned] at h
  cases hpos : it.pos with
  | none =>
    simp only [hpos] at h
    simp [h]
  | some pos =>
    simp only [hpos] at h
    simp [h.2, List.head?_drop]

instance lawful : LawfulCursor MemtableIterator where
  Over it m := it.entries = m.entries
  At it m l := it.entries = m.entries ∧ it.Positioned l
  over_of_at h := h.1
  key_eq h := by
    show MemtableIterator.key _ = _
    rw [MemtableIterator.key, h.2.head?]
  value_eq h := by
    show MemtableIterator.value _ = _
    rw [MemtableIterator.value, h.2.head?]
  valid_eq := by
    intro it m l h
    show it.pos.isSome = _
    have hpos := h.2
    rw [← hpos.head?]
    rw [Positioned] at hpos
    cases hp : it.pos with
    | none => rfl
    | some pos =>
      simp only [hp] at hpos
      simp [hpos.1]
  seekToFirst_at := by
    intro it m h
    refine ⟨_, rfl, h, ?_⟩
    have := positioned_of_drop it.entries 0
    rw [List.drop_zero, h] at this
    rw [MemtableIterator.seekToFirst, h]
    cases hm : m.entries with
    | nil => rfl
    | cons e l => simpa [hm] using this
  seek_at := by
    intro it m target h
    refine ⟨_, rfl, h, ?_⟩
    have := positioned_of_drop it.entries (partitionPoint target it.entries)
    rw [h, partitionPoint, ← SortedMap.filter_le_eq_drop m.sorted] at this
    rw [MemtableIterator.seek, h]
    exact this
  advance_at := by
    intro it m l h
    refine ⟨_, rfl, ?_, ?_⟩
    · rw [MemtableIterator.advance]
      split <;> exact h.1
    · have hpos := h.2
      rw [Positioned] at hpos
      rw [MemtableIterator.advance]
      cases hp : it.pos with
      | none =>
        simp only [hp] at hpos
        subst hpos
        rfl
      | some pos =>
        simp only [hp] at hpos
        rw [hpos.2, List.tail_drop]
        exact positioned_of_drop it.entries (pos + 1)
  size_le h := by
    show SortedMap.size _ ≤ List.length _
    rw [h, SortedMap.size]

end MemtableIterator

/-! ## Table -/

/-- The value of a record, none for a tombstone. -/
def SSTableEntry.value? : SSTableEntry → Option String
  | .value v => some v
  | .tombstone => none

/-- The records of a table or a part of one. -/
def recordsOf (block : Block) : List (String × Option String) :=
  block.map fun r => (r.1, r.2.value?)

namespace SSTableIterator

variable {it : SSTableIterator} {blocks : List Block}

/-- The cursor stands in block number `it.block` and holds its records. -/
structure Loaded (it : SSTableIterator) (blocks : List Block) : Prop where
  stores : it.sst.Stores blocks
  entries : it.entries = (blocks[it.block]?).getD []

/-- What is left to be read. -/
def rest (it : SSTableIterator) (blocks : List Block) : Block :=
  it.entries.drop it.index ++ (blocks.drop (it.block + 1)).flatten

/-- The cursor stands on a record, or in the last block. -/
def Settled (it : SSTableIterator) (blocks : List Block) : Prop :=
  it.index < it.entries.length ∨ blocks.length ≤ it.block + 1

theorem Loaded.loadBlock (h : it.Loaded blocks) (block : Nat) :
    (it.loadBlock block).Loaded blocks :=
  ⟨h.stores, by simp [SSTableIterator.loadBlock, h.stores.readBlock]⟩

theorem rest_loadBlock (h : it.sst.Stores blocks) (block : Nat) :
    (it.loadBlock block).rest blocks = (blocks.drop block).flatten := by
  simp only [rest, SSTableIterator.loadBlock, h.readBlock, List.drop_zero]
  by_cases hlt : block < blocks.length
  · rw [List.drop_eq_getElem_cons hlt, List.getElem?_eq_getElem hlt]
    rfl
  · rw [List.getElem?_eq_none (by omega), List.drop_of_length_le (by omega),
      List.drop_of_length_le (by omega)]
    rfl

/-- `ensure_entry` goes past used-up blocks and loses no record. -/
theorem Loaded.ensureEntryLoop_eq (h : it.Loaded blocks) {fuel : Nat}
    (hfuel : blocks.length < fuel + it.block) (hpos : 0 < fuel) :
    ∃ found it', ensureEntryLoop fuel it = .ok (found, it') ∧ it'.Loaded blocks ∧
      it'.Settled blocks ∧ it'.rest blocks = it.rest blocks := by
  induction fuel generalizing it with
  | zero => omega
  | succ fuel ih =>
    rw [ensureEntryLoop, h.stores.blockCount]
    split
    · rename_i hused
      split
      · rename_i hlast
        exact ⟨false, it, rfl, h, Or.inr hlast, rfl⟩
      · rename_i hmore
        obtain ⟨found, it', hok, hloaded, hsettled, hrest⟩ := ih (h.loadBlock (it.block + 1))
          (by simp only [SSTableIterator.loadBlock]; omega) (by omega)
        refine ⟨found, it', hok, hloaded, hsettled, ?_⟩
        rw [hrest, rest_loadBlock h.stores, rest, List.drop_of_length_le hused, List.nil_append]
    · rename_i hinside
      exact ⟨true, it, rfl, h, Or.inl (Nat.not_le.mp hinside), rfl⟩

theorem Loaded.ensureEntry_eq (h : it.Loaded blocks) :
    ∃ found it', it.ensureEntry = .ok (found, it') ∧ it'.Loaded blocks ∧
      it'.Settled blocks ∧ it'.rest blocks = it.rest blocks :=
  h.ensureEntryLoop_eq (by rw [h.stores.blockCount]; omega) (by omega)

/-- A settled cursor stands on the first record that is left. -/
theorem Settled.getElem?_index (h : it.Settled blocks) :
    it.entries[it.index]? = (it.rest blocks).head? := by
  rw [rest, List.head?_append, List.head?_drop]
  rcases h with hlt | hlast
  · rw [List.getElem?_eq_getElem hlt]
    rfl
  · rw [List.drop_of_length_le hlast]
    simp

/-- The records before the block that `find_block` chooses are smaller than the target, and those
after it larger. -/
theorem rest_findBlock (h : it.sst.Stores blocks) (target : String) :
    ∃ block, it.sst.findBlock target = some block ∧
      (({ it.loadBlock block with
          index := partitionPoint target (it.loadBlock block).entries } : SSTableIterator).rest
            blocks) =
        blocks.flatten.filter fun r => decide (target ≤ r.1) := by
  rcases h.findBlock_eq target with ⟨hnil, hblock⟩ | ⟨before, block, after, hsplit, hblock, hlt, hgt⟩
  · subst hnil
    refine ⟨0, hblock, ?_⟩
    simp [rest, SSTableIterator.loadBlock, h.readBlock]
  · refine ⟨before.length, hblock, ?_⟩
    have hsorted := h.sorted
    rw [hsplit, List.flatten_append, List.flatten_cons] at hsorted
    have hentries : (it.loadBlock before.length).entries = block := by
      simp [SSTableIterator.loadBlock, h.readBlock, hsplit]
    have hafter : blocks.drop (before.length + 1) = after := by
      rw [hsplit, ← List.drop_drop, List.drop_left]
      rfl
    have hbefore : (before.flatten.filter fun r => decide (target ≤ r.1)) = [] :=
      List.filter_eq_nil_iff.mpr fun r hr => by simpa using hlt r hr
    have hrest : (after.flatten.filter fun r => decide (target ≤ r.1)) = after.flatten :=
      List.filter_eq_self.mpr fun r hr => by simpa using (hgt r hr).le
    rw [rest]
    simp only [hentries]
    rw [show (it.loadBlock before.length).block = before.length from rfl, hafter, hsplit,
      List.flatten_append, List.flatten_cons, List.filter_append, List.filter_append, hbefore,
      hrest, SortedMap.filter_le_eq_drop hsorted.append_right.append_left]
    rfl

instance lawful : LawfulCursor SSTableIterator where
  Over it m := ∃ blocks, it.sst.Stores blocks ∧ recordsOf blocks.flatten = m.entries
  At it m l := ∃ blocks, it.Loaded blocks ∧ it.Settled blocks ∧
    recordsOf blocks.flatten = m.entries ∧ l = recordsOf (it.rest blocks)
  over_of_at := by
    rintro it m l ⟨blocks, hloaded, -, hm, -⟩
    exact ⟨blocks, hloaded.stores, hm⟩
  key_eq := by
    rintro it m l ⟨blocks, -, hsettled, -, rfl⟩
    show SSTableIterator.key it = _
    rw [SSTableIterator.key, hsettled.getElem?_index, recordsOf, List.head?_map, Option.map_map]
    rfl
  value_eq := by
    rintro it m l ⟨blocks, -, hsettled, -, rfl⟩
    show SSTableIterator.value it = _
    rw [SSTableIterator.value, hsettled.getElem?_index, recordsOf, List.head?_map]
    rcases (it.rest blocks).head? with _ | ⟨k, v | _⟩ <;> rfl
  valid_eq := by
    rintro it m l ⟨blocks, -, hsettled, -, rfl⟩
    show decide _ = _
    rw [recordsOf, List.head?_map, ← hsettled.getElem?_index, Option.isSome_map,
      Bool.eq_iff_iff, decide_eq_true_iff]
    simp
  seekToFirst_at := by
    rintro it m ⟨blocks, hstores, hm⟩
    have hloaded : (it.loadBlock 0).Loaded blocks :=
      ⟨hstores, by simp [SSTableIterator.loadBlock, hstores.readBlock]⟩
    obtain ⟨found, it', hok, hloaded', hsettled, hrest⟩ := hloaded.ensureEntry_eq
    refine ⟨it', ?_, blocks, hloaded', hsettled, hm, ?_⟩
    · show SSTableIterator.seekToFirst it = _
      rw [SSTableIterator.seekToFirst, hok]
      rfl
    · rw [hrest, rest_loadBlock hstores, List.drop_zero, hm]
  seek_at := by
    rintro it m target ⟨blocks, hstores, hm⟩
    obtain ⟨block, hfind, hrest⟩ := rest_findBlock hstores target
    have hloaded : SSTableIterator.Loaded { it.loadBlock block with
        index := partitionPoint target (it.loadBlock block).entries } blocks :=
      ⟨hstores, by simp [SSTableIterator.loadBlock, hstores.readBlock]⟩
    obtain ⟨found, it', hok, hloaded', hsettled, hrest'⟩ := hloaded.ensureEntry_eq
    refine ⟨it', ?_, blocks, hloaded', hsettled, hm, ?_⟩
    · show SSTableIterator.seek it target = _
      rw [SSTableIterator.seek, hfind]
      simp only [Option.getD_some, hok]
      rfl
    · rw [hrest', hrest, ← hm, recordsOf, recordsOf, List.filter_map]
      rfl
  advance_at := by
    rintro it m l ⟨blocks, hloaded, hsettled, hm, rfl⟩
    by_cases hlt : it.index < it.entries.length
    · have hloaded' : SSTableIterator.Loaded { it with index := it.index + 1 } blocks :=
        ⟨hloaded.stores, hloaded.entries⟩
      obtain ⟨found, it', hok, hloaded'', hsettled', hrest⟩ := hloaded'.ensureEntry_eq
      refine ⟨it', ?_, blocks, hloaded'', hsettled', hm, ?_⟩
      · show SSTableIterator.advance it = _
        rw [SSTableIterator.advance, if_pos hlt, hok]
        rfl
      · rw [hrest, rest, rest, List.drop_eq_getElem_cons hlt]
        rfl
    · obtain ⟨found, it', hok, hloaded'', hsettled', hrest⟩ := hloaded.ensureEntry_eq
      refine ⟨it', ?_, blocks, hloaded'', hsettled', hm, ?_⟩
      · show SSTableIterator.advance it = _
        rw [SSTableIterator.advance, if_neg hlt, hok]
        rfl
      · have hlast := hsettled.resolve_left hlt
        rw [hrest, rest, List.drop_of_length_le (Nat.not_lt.mp hlt), List.drop_of_length_le hlast]
        rfl
  size_le := by
    rintro it m ⟨blocks, hstores, hm⟩
    show m.size ≤ it.sst.recordCount
    rw [hstores.recordCount, SortedMap.size, ← hm, recordsOf, List.length_map]

end SSTableIterator

instance ChildIterator.lawful : LawfulCursor ChildIterator where
  Over
    | .memtable it, m => LawfulCursor.Over it m
    | .sstable it, m => LawfulCursor.Over it m
  At
    | .memtable it, m, l => LawfulCursor.At it m l
    | .sstable it, m, l => LawfulCursor.At it m l
  over_of_at {c _ _} h := by cases c <;> exact LawfulCursor.over_of_at h
  key_eq {c _ _} h := by
    cases c with
    | memtable it => exact MemtableIterator.lawful.key_eq h
    | sstable it => exact SSTableIterator.lawful.key_eq h
  value_eq {c _ _} h := by
    cases c with
    | memtable it => exact MemtableIterator.lawful.value_eq h
    | sstable it => exact SSTableIterator.lawful.value_eq h
  valid_eq {c _ _} h := by
    cases c with
    | memtable it => exact MemtableIterator.lawful.valid_eq h
    | sstable it => exact SSTableIterator.lawful.valid_eq h
  seekToFirst_at {c _} h := by
    cases c with
    | memtable it =>
      obtain ⟨it', hok, hat⟩ := LawfulCursor.seekToFirst_at h
      exact ⟨.memtable it', congrArg (Except.map _) hok, hat⟩
    | sstable it =>
      obtain ⟨it', hok, hat⟩ := LawfulCursor.seekToFirst_at h
      exact ⟨.sstable it', congrArg (Except.map _) hok, hat⟩
  seek_at {c _} target h := by
    cases c with
    | memtable it =>
      obtain ⟨it', hok, hat⟩ := LawfulCursor.seek_at target h
      exact ⟨.memtable it', congrArg (Except.map _) hok, hat⟩
    | sstable it =>
      obtain ⟨it', hok, hat⟩ := LawfulCursor.seek_at target h
      exact ⟨.sstable it', congrArg (Except.map _) hok, hat⟩
  advance_at {c _ _} h := by
    cases c with
    | memtable it =>
      obtain ⟨it', hok, hat⟩ := LawfulCursor.advance_at h
      exact ⟨.memtable it', congrArg (Except.map _) hok, hat⟩
    | sstable it =>
      obtain ⟨it', hok, hat⟩ := LawfulCursor.advance_at h
      exact ⟨.sstable it', congrArg (Except.map _) hok, hat⟩
  size_le {c _} h := by
    cases c with
    | memtable it => exact MemtableIterator.lawful.size_le h
    | sstable it => exact SSTableIterator.lawful.size_le h

/-! ## Merge -/

namespace MergeIterator

variable {σ : Type} [StorageIterator σ]

/-- The child at number `source` is the first with the least key. -/
structure Least (children : List σ) (key : String) (source : Nat) : Prop where
  split : ∃ before child after, children = before ++ child :: after ∧ before.length = source ∧
    StorageIterator.key child = some key ∧
    ∀ c ∈ before, StorageIterator.key c ≠ some key
  le : ∀ c ∈ children, ∀ k, StorageIterator.key c = some k → key ≤ k

/-- What `smallest` has found after the children `done`. -/
def Best (done : List σ) : Option (String × Nat) → Prop
  | none => ∀ c ∈ done, StorageIterator.key c = none
  | some (key, source) => Least done key source

theorem Least.append {done : List σ} {key : String} {source : Nat} (h : Least done key source)
    {child : σ} (hle : ∀ k, StorageIterator.key child = some k → key ≤ k) :
    Least (done ++ [child]) key source := by
  obtain ⟨before, c, after, rfl, hsource, hkey, hfirst⟩ := h.split
  refine ⟨⟨before, c, after ++ [child], by simp, hsource, hkey, hfirst⟩, fun c hc k hk => ?_⟩
  rcases List.mem_append.mp hc with hc | hc
  · exact h.le c hc k hk
  · rw [List.mem_singleton.mp hc] at hk
    exact hle k hk

/-- A child with a strictly smaller key takes over. -/
theorem least_of_lt {done : List σ} {child : σ} {key : String}
    (hkey : StorageIterator.key child = some key)
    (hlt : ∀ c ∈ done, ∀ k, StorageIterator.key c = some k → key < k) :
    Least (done ++ [child]) key done.length := by
  refine ⟨⟨done, child, [], rfl, rfl, hkey, fun c hc heq => ?_⟩, fun c hc k hk => ?_⟩
  · exact lt_irrefl _ (hlt c hc key heq)
  · rcases List.mem_append.mp hc with hc | hc
    · exact (hlt c hc k hk).le
    · rw [List.mem_singleton.mp hc, hkey] at hk
      exact (Option.some.inj hk).le

theorem best_smallestLoop (children done : List σ) (best : Option (String × Nat))
    (h : Best done best) : Best (done ++ children) (smallestLoop children done.length best) := by
  induction children generalizing done best with
  | nil => simpa [smallestLoop] using h
  | cons child children ih =>
    have hnext : ∀ best', Best (done ++ [child]) best' →
        Best (done ++ child :: children) (smallestLoop children (done.length + 1) best') := by
      intro best' h'
      have := ih (done ++ [child]) best' h'
      rwa [List.append_assoc, List.singleton_append, List.length_append, List.length_singleton]
        at this
    rw [smallestLoop]
    cases hkey : StorageIterator.key child with
    | none =>
      refine hnext best ?_
      cases best with
      | none =>
        intro c hc
        rcases List.mem_append.mp hc with hc | hc
        · exact h c hc
        · rw [List.mem_singleton.mp hc, hkey]
      | some b => exact Least.append h fun k hk => by simp [hkey] at hk
    | some key =>
      cases best with
      | none =>
        refine hnext (some (key, done.length)) (least_of_lt hkey fun c hc k hk => ?_)
        rw [h c hc] at hk
        cases hk
      | some b =>
        obtain ⟨bestKey, bestSource⟩ := b
        by_cases hle : bestKey ≤ key
        · simp only [hle, if_true]
          refine hnext _ (Least.append h fun k hk => ?_)
          rw [hkey] at hk
          exact Option.some.inj hk ▸ hle
        · simp only [hle, if_false]
          exact hnext (some (key, done.length)) (least_of_lt hkey fun c hc k hk =>
            lt_of_lt_of_le (not_le.mp hle) (Least.le h c hc k hk))

theorem best_smallest (it : MergeIterator σ) : Best it.children it.smallest := by
  have := best_smallestLoop it.children [] none (by simp [Best])
  simpa [smallest] using this

/-! ### Positions of the children -/

variable [LawfulCursor σ]

/-- Every child is left with the records whose key satisfies `P`. -/
def AllAt (P : String → Bool) (children : List σ) (ms : List Records) : Prop :=
  List.Forall₂ (fun c m => LawfulCursor.At c m (m.entries.filter fun e => P e.1)) children ms

/-- Every child reads its map. -/
def AllOver (children : List σ) (ms : List Records) : Prop :=
  List.Forall₂ LawfulCursor.Over children ms

theorem AllAt.allOver {P : String → Bool} {children : List σ} {ms : List Records}
    (h : AllAt P children ms) : AllOver children ms :=
  h.imp fun _ _ hat => LawfulCursor.over_of_at hat

theorem AllOver.moveAll_eq {children : List σ} {ms : List Records} (h : AllOver children ms)
    {f : σ → Res σ} {P : String → Bool}
    (hmove : ∀ {c : σ} {m : Records}, LawfulCursor.Over c m → ∃ c', f c = .ok c' ∧
      LawfulCursor.At c' m (m.entries.filter fun e => P e.1)) :
    ∃ children', moveAll f children = .ok children' ∧ AllAt P children' ms := by
  induction h with
  | nil => exact ⟨[], rfl, List.Forall₂.nil⟩
  | cons hover _ ih =>
    obtain ⟨c', hc', hat⟩ := hmove hover
    obtain ⟨children', hchildren, hall⟩ := ih
    refine ⟨c' :: children', ?_, List.Forall₂.cons hat hall⟩
    rw [moveAll, hc']
    simp only [bind, Except.bind, hchildren]
    rfl

/-- The state of one child when `key` is passed, all that is left being at least `key`. -/
theorem skip_child {P : String → Bool} {key : String} {c : σ} {m : Records}
    (hat : LawfulCursor.At c m (m.entries.filter fun e => P e.1))
    (hle : ∀ k, P k = true → m.get? k ≠ none → key ≤ k) :
    ∃ c', skipChild key c = .ok c' ∧
      LawfulCursor.At c' m (m.entries.filter fun e => P e.1 && decide (key < e.1)) := by
  have hkey := LawfulCursor.key_eq hat
  rw [skipChild]
  by_cases hk : StorageIterator.key c = some key
  · rw [if_pos hk]
    obtain ⟨c', hc', hat'⟩ := LawfulCursor.advance_at hat
    refine ⟨c', hc', ?_⟩
    rw [hk] at hkey
    obtain ⟨⟨k, v⟩, hhead, rfl⟩ := Option.map_eq_some_iff.mp hkey.symm
    obtain ⟨hv, hP, hmin⟩ := SortedMap.head_filter_eq_some hhead
    rwa [SortedMap.filter_eq_cons hv hP hmin, List.tail_cons] at hat'
  · rw [if_neg hk]
    refine ⟨c, rfl, ?_⟩
    rw [← SortedMap.filter_eq_filter_lt]
    · exact hat
    · intro k hP hne
      refine lt_of_le_of_ne (hle k hP hne) ?_
      rintro rfl
      obtain ⟨v, hv⟩ := Option.ne_none_iff_exists'.mp hne
      rw [SortedMap.filter_eq_cons hv hP hle] at hkey
      exact hk hkey

theorem AllAt.skipKeyLoop_eq {P : String → Bool} (key : String) {children : List σ}
    {ms : List Records} (h : AllAt P children ms)
    (hle : ∀ m ∈ ms, ∀ k, P k = true → m.get? k ≠ none → key ≤ k) :
    ∃ children', skipKeyLoop key children = .ok children' ∧
      AllAt (fun k => P k && decide (key < k)) children' ms := by
  induction h with
  | nil => exact ⟨[], rfl, List.Forall₂.nil⟩
  | cons hat _ ih =>
    obtain ⟨c', hc', hat'⟩ := skip_child hat (hle _ List.mem_cons_self)
    obtain ⟨children', hchildren, hall⟩ := ih fun m hm => hle m (List.mem_cons_of_mem _ hm)
    refine ⟨c' :: children', ?_, List.Forall₂.cons hat' hall⟩
    rw [skipKeyLoop, hc']
    simp only [bind, Except.bind, hchildren]
    rfl

/-- A child that still has `k` stands at or before it. -/
theorem key_le_of_at {P : String → Bool} {c : σ} {m : Records} {k : String}
    (hat : LawfulCursor.At c m (m.entries.filter fun e => P e.1)) (hP : P k = true)
    (hne : m.get? k ≠ none) : ∃ k', StorageIterator.key c = some k' ∧ k' ≤ k := by
  have hkey := LawfulCursor.key_eq hat
  cases hhead : (m.entries.filter fun e => P e.1).head? with
  | none => exact absurd (SortedMap.head_filter_eq_none hhead k hP) hne
  | some e =>
    rw [hhead] at hkey
    exact ⟨e.1, hkey, (SortedMap.head_filter_eq_some hhead).2.2 k hP hne⟩

/-- What `smallest` finds: the least key left in the overlay, with its value in the child that
comes first. -/
theorem AllAt.smallest_eq_some {P : String → Bool} {it : MergeIterator σ} {ms : List Records}
    (h : AllAt P it.children ms) {key : String} {source : Nat}
    (hsmallest : it.smallest = some (key, source)) :
    ∃ child v, it.children[source]? = some child ∧ StorageIterator.value child = v ∧
      P key = true ∧ (SortedMap.overlay ms).get? key = some v ∧
      ∀ k, P k = true → (SortedMap.overlay ms).get? k ≠ none → key ≤ k := by
  have hbest := best_smallest it
  rw [hsmallest] at hbest
  obtain ⟨before, child, after, hsplit, hsource, hkey, hfirst⟩ := hbest.split
  rw [hsplit] at h
  obtain ⟨msBefore, msRest, hbefore, hrest, rfl⟩ := forall₂_append_split h
  obtain ⟨m, msAfter, hat, -, rfl⟩ := List.forall₂_cons_left_iff.mp hrest
  obtain ⟨⟨k, v⟩, hhead, rfl⟩ :=
    Option.map_eq_some_iff.mp ((LawfulCursor.key_eq hat).symm.trans hkey)
  obtain ⟨hv, hP, -⟩ := SortedMap.head_filter_eq_some hhead
  refine ⟨child, v, ?_, ?_, hP, SortedMap.get?_overlay_of_first (fun n hn => ?_) hv, ?_⟩
  · rw [hsplit, ← hsource]
    simp
  · rw [LawfulCursor.value_eq hat, hhead]
    rfl
  · -- an earlier child with the key would stand on it
    by_contra hne
    obtain ⟨c, hc, hcat⟩ := exists_of_forall₂ hbefore hn
    obtain ⟨k', hk', hle⟩ := key_le_of_at hcat hP hne
    have hge := hbest.le c (by rw [hsplit]; simp [hc]) k' hk'
    rw [le_antisymm hle hge] at hk'
    exact hfirst c hc hk'
  · intro k' hP' hne
    obtain ⟨n, hn, hnk⟩ : ∃ n ∈ msBefore ++ m :: msAfter, n.get? k' ≠ none := by
      by_contra hall
      refine hne (SortedMap.get?_overlay_eq_none_iff.mpr fun n hn => ?_)
      by_contra hnk
      exact hall ⟨n, hn, hnk⟩
    obtain ⟨c, hc, hcat⟩ := exists_of_forall₂ h hn
    obtain ⟨k'', hk'', hle⟩ := key_le_of_at hcat hP' hnk
    exact (hbest.le c (by rw [hsplit]; exact hc) k'' hk'').trans hle

theorem AllAt.smallest_eq_none {P : String → Bool} {it : MergeIterator σ} {ms : List Records}
    (h : AllAt P it.children ms) (hsmallest : it.smallest = none) (k : String)
    (hP : P k = true) : (SortedMap.overlay ms).get? k = none := by
  have hbest := best_smallest it
  rw [hsmallest] at hbest
  refine SortedMap.get?_overlay_eq_none_iff.mpr fun m hm => ?_
  by_contra hne
  obtain ⟨c, hc, hcat⟩ := exists_of_forall₂ h hm
  obtain ⟨k', hk', -⟩ := key_le_of_at hcat hP hne
  rw [hbest c hc] at hk'
  cases hk'

/-! ### The merged cursor -/

/-- What a merge shows of the overlay of its children. -/
def shown (keepTombstones : Bool) (m : Records) : Records :=
  m.filter fun e => keepTombstones || e.2.isSome

/-- The current entry is the first one of `l`, with the number of a child that has its value. -/
def Current (it : MergeIterator σ) (l : List (String × Option String)) : Prop :=
  match l with
  | [] => it.current = none
  | (key, v) :: _ => ∃ source child, it.current = some ⟨key, source⟩ ∧
      it.children[source]? = some child ∧ StorageIterator.value child = v

/-- The children are left with the keys in `P`, the merge with `l`, and the first key of `l` is
the least one left in any child. -/
structure Reads (it : MergeIterator σ) (m : Records) (l : List (String × Option String))
    (ms : List Records) (P : String → Bool) : Prop where
  children : AllAt P it.children ms
  map : m = shown it.keepTombstones (SortedMap.overlay ms)
  rest : l = m.entries.filter fun e => P e.1
  least : ∀ key v l', l = (key, v) :: l' →
    ∀ k, P k = true → (SortedMap.overlay ms).get? k ≠ none → key ≤ k
  current : it.Current l

theorem get?_shown {keep : Bool} {m : Records} {k : String} {v : Option String} :
    (shown keep m).get? k = some v ↔ m.get? k = some v ∧ (keep || v.isSome) = true :=
  SortedMap.mem_entries_filter

theorem get?_shown_ne_none {keep : Bool} {m : Records} {k : String}
    (h : (shown keep m).get? k ≠ none) : m.get? k ≠ none := by
  obtain ⟨v, hv⟩ := Option.ne_none_iff_exists'.mp h
  rw [(get?_shown.mp hv).1]
  exact Option.some_ne_none v

/-- `normalize` stops on the first record that is shown, or at the end. -/
theorem AllAt.normalizeLoop_eq {P : String → Bool} {it : MergeIterator σ} {ms : List Records}
    (h : AllAt P it.children ms) {fuel : Nat}
    (hfuel : ((SortedMap.overlay ms).entries.filter fun e => P e.1).length < fuel) :
    ∃ it' P', normalizeLoop fuel it = .ok it' ∧ it'.keepTombstones = it.keepTombstones ∧
      it'.Reads (shown it.keepTombstones (SortedMap.overlay ms))
        ((shown it.keepTombstones (SortedMap.overlay ms)).entries.filter fun e => P e.1) ms P' := by
  induction fuel generalizing it P with
  | zero => omega
  | succ fuel ih =>
    rw [normalizeLoop]
    cases hsmallest : it.smallest with
    | none =>
      have hnil : ((shown it.keepTombstones (SortedMap.overlay ms)).entries.filter
          fun e => P e.1) = [] := by
        refine List.filter_eq_nil_iff.mpr fun e he hP => ?_
        have hget := SortedMap.mem_entries.mp (show (e.1, e.2) ∈ _ from he)
        rw [get?_shown, h.smallest_eq_none hsmallest e.1 hP] at hget
        exact nomatch hget.1
      exact ⟨{ it with current := none }, P, rfl, rfl, h, rfl, rfl, by rw [hnil]; simp,
        by rw [hnil]; rfl⟩
    | some best =>
      obtain ⟨key, source⟩ := best
      obtain ⟨child, v, hchild, hvalue, hP, hget, hle⟩ := h.smallest_eq_some hsmallest
      have hchildValue : it.childValue source = .ok v := by
        rw [childValue, hchild]
        exact congrArg Except.ok hvalue
      simp only [hchildValue, bind, Except.bind]
      by_cases hshow : (it.keepTombstones || v.isSome) = true
      · rw [if_pos hshow]
        have hcons := SortedMap.filter_eq_cons
          (get?_shown.mpr ⟨hget, hshow⟩ : (shown it.keepTombstones _).get? key = some v) hP
          fun k hk hne => hle k hk (get?_shown_ne_none hne)
        refine ⟨_, P, rfl, rfl, h, rfl, rfl, ?_, ?_⟩
        · rw [hcons]
          rintro key' v' l' heq
          simp only [List.cons.injEq, Prod.mk.injEq] at heq
          rw [← heq.1.1]
          exact hle
        · rw [hcons]
          exact ⟨source, child, rfl, hchild, hvalue⟩
      · rw [if_neg hshow]
        obtain ⟨children', hskip, hall⟩ := h.skipKeyLoop_eq key fun m hm k hk hne =>
          hle k hk fun hnone => hne (SortedMap.get?_overlay_eq_none_iff.mp hnone m hm)
        have hshorter := SortedMap.filter_eq_cons hget hP hle
        rw [hshorter, List.length_cons] at hfuel
        obtain ⟨it', P', hok, hkeep, hreads⟩ := @ih _ { it with children := children' } hall
          (by omega)
        refine ⟨it', P', ?_, hkeep, ?_⟩
        · rw [skipKey, hskip]
          exact hok
        · rwa [SortedMap.filter_eq_filter_lt (k := key)]
          intro k hk hne
          refine lt_of_le_of_ne (hle k hk (get?_shown_ne_none hne)) ?_
          rintro rfl
          obtain ⟨v', hv'⟩ := Option.ne_none_iff_exists'.mp hne
          obtain ⟨hv', hshow'⟩ := get?_shown.mp hv'
          rw [hget] at hv'
          cases hv'
          exact hshow hshow'

theorem AllOver.bound_ge {children : List σ} {ms : List Records} (h : AllOver children ms) :
    (SortedMap.overlay ms).size ≤ (children.map StorageIterator.bound).sum := by
  refine (SortedMap.size_overlay_le ms).trans ?_
  induction h with
  | nil => exact Nat.le_refl _
  | cons hover _ ih =>
    have := LawfulCursor.size_le hover
    simp only [List.map_cons, List.sum_cons]
    omega

theorem AllAt.normalize_eq {P : String → Bool} (it : MergeIterator σ) {ms : List Records}
    (h : AllAt P it.children ms) :
    ∃ it' P', it.normalize = .ok it' ∧ it'.keepTombstones = it.keepTombstones ∧
      it'.Reads (shown it.keepTombstones (SortedMap.overlay ms))
        ((shown it.keepTombstones (SortedMap.overlay ms)).entries.filter fun e => P e.1) ms P' := by
  refine h.normalizeLoop_eq ?_
  have hbound := h.allOver.bound_ge
  have hfilter := List.length_filter_le (fun e => P e.1) (SortedMap.overlay ms).entries
  rw [SortedMap.size] at hbound
  rw [bound]
  omega

/-- A merge of lawful cursors is a lawful cursor over what it shows of the overlay. -/
instance lawful : LawfulCursor (MergeIterator σ) where
  Over it m := ∃ ms, AllOver it.children ms ∧ m = shown it.keepTombstones (SortedMap.overlay ms)
  At it m l := ∃ ms P, it.Reads m l ms P
  over_of_at := by
    rintro it m l ⟨ms, P, h⟩
    exact ⟨ms, h.children.allOver, h.map⟩
  key_eq := by
    rintro it m l ⟨ms, P, h⟩
    have hcurrent := h.current
    show it.current.map CurrentEntry.key = _
    cases l with
    | nil => exact congrArg _ hcurrent
    | cons e l =>
      obtain ⟨source, child, hcur, -⟩ := hcurrent
      rw [hcur]
      rfl
  value_eq := by
    rintro it m l ⟨ms, P, h⟩
    have hcurrent := h.current
    show (it.current.bind fun current => it.children[current.source]?.bind _) = _
    cases l with
    | nil => rw [show it.current = none from hcurrent]; rfl
    | cons e l =>
      obtain ⟨source, child, hcur, hchild, hvalue⟩ := hcurrent
      rw [hcur]
      simp only [Option.bind_some, hchild, hvalue, List.head?_cons]
  valid_eq := by
    rintro it m l ⟨ms, P, h⟩
    have hcurrent := h.current
    show it.current.isSome = _
    cases l with
    | nil => rw [show it.current = none from hcurrent]; rfl
    | cons e l =>
      obtain ⟨source, child, hcur, -⟩ := hcurrent
      rw [hcur]
      rfl
  seekToFirst_at := by
    rintro it m ⟨ms, hover, rfl⟩
    obtain ⟨children, hmove, hall⟩ := hover.moveAll_eq (P := fun _ => true) fun hc => by
      obtain ⟨c', hc', hat⟩ := LawfulCursor.seekToFirst_at hc
      exact ⟨c', hc', by rwa [List.filter_true]⟩
    obtain ⟨it', P', hok, -, hreads⟩ :=
      AllAt.normalize_eq { it with children := children } hall
    rw [List.filter_true] at hreads
    refine ⟨it', ?_, ms, P', hreads⟩
    show MergeIterator.seekToFirst it = _
    rw [MergeIterator.seekToFirst, hmove]
    exact hok
  seek_at := by
    rintro it m target ⟨ms, hover, rfl⟩
    obtain ⟨children, hmove, hall⟩ := hover.moveAll_eq
      (f := fun child => StorageIterator.seek child target)
      (P := fun k => decide (target ≤ k)) fun hc => LawfulCursor.seek_at target hc
    obtain ⟨it', P', hok, -, hreads⟩ :=
      AllAt.normalize_eq { it with children := children } hall
    refine ⟨it', ?_, ms, P', hreads⟩
    show MergeIterator.seek it target = _
    rw [MergeIterator.seek, hmove]
    exact hok
  advance_at := by
    rintro it m l ⟨ms, P, h⟩
    have hcurrent := h.current
    cases l with
    | nil =>
      refine ⟨it, ?_, ms, P, h⟩
      show MergeIterator.advance it = _
      rw [MergeIterator.advance, show it.current = none from hcurrent]
    | cons e l =>
      obtain ⟨key, v⟩ := e
      obtain ⟨source, child, hcur, -⟩ := hcurrent
      have hle := h.least key v l rfl
      obtain ⟨children, hskip, hall⟩ := h.children.skipKeyLoop_eq key
        fun m hm k hk hne => hle k hk fun hnone =>
          hne (SortedMap.get?_overlay_eq_none_iff.mp hnone m hm)
      obtain ⟨it', P', hok, -, hreads⟩ := AllAt.normalize_eq
        { it with children := children, current := none } hall
      have hhead := SortedMap.head_filter_eq_some
        (show (m.entries.filter fun e => P e.1).head? = some (key, v) by rw [← h.rest]; rfl)
      have htail : l = m.entries.filter fun e => P e.1 && decide (key < e.1) := by
        have := h.rest
        rw [SortedMap.filter_eq_cons hhead.1 hhead.2.1 hhead.2.2] at this
        exact (List.cons.inj this).2
      refine ⟨it', ?_, ms, P', ?_⟩
      · show MergeIterator.advance it = _
        rw [MergeIterator.advance, hcur]
        simp only [MergeIterator.skipKey, hskip, bind, Except.bind]
        exact hok
      · rw [List.tail_cons, htail, h.map]
        exact hreads
  size_le := by
    rintro it m ⟨ms, hover, rfl⟩
    exact (List.length_filter_le _ _).trans hover.bound_ge

/-- A new merge stands at the start. -/
theorem build_at {children : List σ} {ms : List Records} (h : AllOver children ms) (keep : Bool) :
    ∃ it, build children keep = .ok it ∧ it.keepTombstones = keep ∧
      LawfulCursor.At it (shown keep (SortedMap.overlay ms))
        (shown keep (SortedMap.overlay ms)).entries := by
  obtain ⟨children', hmove, hall⟩ := h.moveAll_eq (P := fun _ => true) fun hc => by
    obtain ⟨c', hc', hat⟩ := LawfulCursor.seekToFirst_at hc
    exact ⟨c', hc', by rwa [List.filter_true]⟩
  obtain ⟨it, P, hok, hkeep, hreads⟩ :=
    AllAt.normalize_eq ⟨children', none, keep⟩ hall
  rw [List.filter_true] at hreads
  refine ⟨it, ?_, hkeep, ms, P, hreads⟩
  rw [build, hmove]
  exact hok

end MergeIterator

end PebbleDB
