import Mathlib.Order.Bounds.Basic
import PebbleDB.Tables

/-!
# Moving a range iterator

The iterator that `range` returns checks its end bound on every access. Its start bound it keeps by
standing behind it: `new` seeks to it, and `seek` and `seek_to_first` then move the merged cursor
without looking at it again. `rangeIterator_lawful_iff` says for which sequences of calls it
stays inside its bounds.
-/

namespace PebbleDB

/-- A call that moves an iterator. -/
inductive RangeCall where
  | seek (target : String)
  | seekToFirst
  | advance
  | next
  deriving DecidableEq, Repr

section Calls

variable {σ : Type} [StorageIterator σ]

/-- The iterator behind a call. -/
def RangeCall.run (it : RangeIterator σ) : RangeCall → Res (RangeIterator σ)
  | seek target => it.seek target
  | seekToFirst => it.seekToFirst
  | advance => it.advance
  | next => do
    let (_, it) ← it.next
    return it

/-- `get` gives a value for this key. -/
def DbInner.Live (db : DbInner) (key : String) : Prop := ∃ value, db.get key = .ok (some value)

/-- Where the iterator stands, it stands inside the bounds. -/
def RangeIterator.InBounds (start stop : Bound) (it : RangeIterator σ) : Prop :=
  it.valid = true → ∃ key, it.key = some key ∧ start.Starts key ∧ stop.Ends key

/-- A seek puts the iterator on the first live key from its target on that is inside the bounds. -/
def RangeCall.Stands (db : DbInner) (start stop : Bound) (it : RangeIterator σ) : RangeCall → Prop
  | seek target => ∀ key, (it.valid = true ∧ it.key = some key) ↔
      IsLeast {k | db.Live k ∧ target ≤ k ∧ start.Starts k ∧ stop.Ends k} key
  | _ => True

/-- The iterator keeps to its bounds and every seek does what it says, call after call. -/
def LawfulMoves (db : DbInner) (start stop : Bound) (it : RangeIterator σ) : List RangeCall → Prop
  | [] => it.InBounds start stop
  | call :: calls => it.InBounds start stop ∧
      ∃ it', call.run it = .ok it' ∧ call.Stands db start stop it' ∧
        LawfulMoves db start stop it' calls

theorem LawfulMoves.inBounds {db : DbInner} {start stop : Bound} {it : RangeIterator σ}
    {calls : List RangeCall} (h : LawfulMoves db start stop it calls) : it.InBounds start stop := by
  cases calls with
  | nil => exact h
  | cons call calls => exact h.1

end Calls

/-- The key on which the merged cursor comes to stand is not before the start of the range, or it is
behind its end. -/
def RangeCall.Fine (db : DbInner) (start stop : Bound) : RangeCall → Prop
  | seek target => ∀ key, IsLeast {k | db.Live k ∧ target ≤ k} key →
      start.Starts key ∨ ¬ stop.Ends key
  | seekToFirst => ∀ key, IsLeast {k | db.Live k} key → start.Starts key ∨ ¬ stop.Ends key
  | _ => True

/-! ## Positions -/

section Positions

variable {σ : Type} [StorageIterator σ] [LawfulCursor σ] {it : RangeIterator σ} {m : Records}
  {l : List (String × Option String)}

theorem Bound.Starts.of_le {start : Bound} {k k' : String} (h : start.Starts k) (hle : k ≤ k') :
    start.Starts k' := by
  cases start with
  | included first => exact le_trans h hle
  | excluded first => exact lt_of_lt_of_le h hle
  | unbounded => trivial

/-- The next record is not before the start of the range, or it is behind its end. -/
def Within (start stop : Bound) (l : List (String × Option String)) : Prop :=
  ∀ e ∈ l.head?, start.Starts e.1 ∨ ¬ stop.Ends e.1

/-- Reading on does not lead out of a range. -/
theorem Within.tail {start stop : Bound} (h : Within start stop l) (hs : SortedMap.Raw.Sorted l) :
    Within start stop l.tail := by
  cases l with
  | nil => exact h
  | cons e l =>
    intro e' he'
    have hlt := hs.head_lt e' (List.mem_of_mem_head? he')
    rcases h e rfl with hstarts | hends
    · exact Or.inl (hstarts.of_le hlt.le)
    · exact Or.inr fun hends' => hends (hends'.of_le hlt.le)

namespace RangeIterator

/-- A valid iterator stands on the next record. -/
theorem stands_iff (h : LawfulCursor.At it.merged m l) {key : String} :
    (it.valid = true ∧ it.key = some key) ↔
      (∃ value, l.head? = some (key, value)) ∧ it.stop.Ends key := by
  have hkey : it.merged.key = _ := LawfulCursor.key_eq h
  rw [RangeIterator.key, valid_eq h, hkey]
  cases l with
  | nil => simp
  | cons e l =>
    obtain ⟨k, v⟩ := e
    by_cases hends : it.stop.Ends k
    · simp only [List.head?_cons, Option.any_some, hends, decide_true, if_true, Option.map_some,
        Option.some.injEq, Prod.mk.injEq, true_and]
      constructor
      · rintro rfl
        exact ⟨⟨v, rfl, rfl⟩, hends⟩
      · rintro ⟨⟨_, rfl, -⟩, -⟩
        rfl
    · simp only [List.head?_cons, Option.any_some, hends, decide_false, Bool.false_eq_true,
        false_and, false_iff, Option.some.injEq, Prod.mk.injEq, not_and]
      rintro ⟨_, rfl, -⟩
      exact hends

theorem inBounds_iff (h : LawfulCursor.At it.merged m l) {start : Bound} :
    it.InBounds start it.stop ↔ Within start it.stop l := by
  have hstands := fun key => @stands_iff _ _ _ _ _ _ h key
  constructor
  · intro hin e he
    by_cases hends : it.stop.Ends e.1
    · obtain ⟨hvalid, hkey⟩ := (hstands e.1).mpr ⟨⟨e.2, he⟩, hends⟩
      obtain ⟨key, hkey', hstarts, -⟩ := hin hvalid
      rw [hkey] at hkey'
      exact Or.inl (Option.some.inj hkey' ▸ hstarts)
    · exact Or.inr hends
  · intro hwithin hvalid
    rw [valid_eq h] at hvalid
    cases l with
    | nil => cases hvalid
    | cons e l =>
      have hends := of_decide_eq_true hvalid
      obtain ⟨-, hkey⟩ := (hstands e.1).mpr ⟨⟨e.2, rfl⟩, hends⟩
      exact ⟨e.1, hkey, (hwithin e rfl).resolve_right (not_not_intro hends), hends⟩

end RangeIterator

/-- What a call leaves to be read. -/
def RangeCall.left (m : Records) (stop : Bound) (l : List (String × Option String)) :
    RangeCall → List (String × Option String)
  | seek target => m.entries.filter fun e => decide (target ≤ e.1)
  | seekToFirst => m.entries
  | advance => l.tail
  | next => if l.head?.any fun e => decide (stop.Ends e.1) then l.tail else l

theorem RangeCall.run_at (h : LawfulCursor.At it.merged m l)
    (hlive : ∀ e ∈ l, e.2.isSome = true) (call : RangeCall) :
    ∃ it', call.run it = .ok it' ∧ it'.stop = it.stop ∧
      LawfulCursor.At it'.merged m (call.left m it.stop l) := by
  have hadvance : ∃ it', it.advance = .ok it' ∧ it'.stop = it.stop ∧
      LawfulCursor.At it'.merged m l.tail := by
    obtain ⟨merged', hok, hat⟩ := LawfulCursor.advance_at h
    refine ⟨{ it with merged := merged' }, ?_, rfl, hat⟩
    rw [RangeIterator.advance, show it.merged.advance = .ok merged' from hok]
    rfl
  cases call with
  | seek target =>
    obtain ⟨merged', hok, hat⟩ := LawfulCursor.seek_at target (LawfulCursor.over_of_at h)
    refine ⟨{ it with merged := merged' }, ?_, rfl, hat⟩
    rw [run, RangeIterator.seek, show it.merged.seek target = .ok merged' from hok]
    rfl
  | seekToFirst =>
    obtain ⟨merged', hok, hat⟩ := LawfulCursor.seekToFirst_at (LawfulCursor.over_of_at h)
    refine ⟨{ it with merged := merged' }, ?_, rfl, hat⟩
    rw [run, RangeIterator.seekToFirst, show it.merged.seekToFirst = .ok merged' from hok]
    rfl
  | advance => exact hadvance
  | next =>
    rw [run, RangeIterator.next, left]
    by_cases hvalid : it.valid = true
    · obtain ⟨it', hok, hstop, hat⟩ := hadvance
      have hhead := RangeIterator.valid_eq h ▸ hvalid
      rw [if_pos hvalid, if_pos hhead]
      cases l with
      | nil => cases hhead
      | cons e l =>
        obtain ⟨-, hkey⟩ := (RangeIterator.stands_iff h).mpr
          ⟨⟨e.2, rfl⟩, of_decide_eq_true hhead⟩
        have hvalue : it.merged.value = _ := LawfulCursor.value_eq h
        obtain ⟨value, hsome⟩ := Option.isSome_iff_exists.mp (hlive e List.mem_cons_self)
        refine ⟨it', ?_, hstop, hat⟩
        rw [hkey, RangeIterator.value, if_pos hvalid, hvalue, List.head?_cons, Option.bind_some,
          hsome]
        dsimp only
        rw [hok]
        rfl
    · have hhead := RangeIterator.valid_eq h ▸ hvalid
      rw [if_neg hvalid, if_neg hhead]
      exact ⟨it, rfl, rfl, h⟩

end Positions

/-! ## Runs of calls -/

section Runs

variable {db : DbInner} {m : Records} {start stop : Bound}

/-- The records that a range iterator of this handle reads. -/
structure Shows (db : DbInner) (m : Records) : Prop where
  mem_iff : ∀ k v, (k, some v) ∈ m.entries ↔ db.get k = .ok (some v)
  live : ∀ e ∈ m.entries, e.2.isSome = true

theorem Shows.get?_ne_none_iff (h : Shows db m) {key : String} :
    m.get? key ≠ none ↔ db.Live key := by
  constructor
  · intro hne
    obtain ⟨v, hv⟩ := Option.ne_none_iff_exists'.mp hne
    have hmem := SortedMap.mem_entries.mpr hv
    obtain ⟨value, rfl⟩ := Option.isSome_iff_exists.mp (h.live _ hmem)
    exact ⟨value, (h.mem_iff key value).mp hmem⟩
  · rintro ⟨value, hvalue⟩
    rw [SortedMap.mem_entries.mp ((h.mem_iff key value).mpr hvalue)]
    exact Option.some_ne_none _

/-- The first of the records with a property of their keys. -/
theorem Shows.head?_filter_iff (h : Shows db m) (P : String → Bool) {key : String} :
    (∃ value, (m.entries.filter fun e => P e.1).head? = some (key, value)) ↔
      IsLeast {k | db.Live k ∧ P k = true} key := by
  constructor
  · rintro ⟨value, hhead⟩
    obtain ⟨hv, hP, hmin⟩ := SortedMap.head_filter_eq_some hhead
    refine ⟨⟨h.get?_ne_none_iff.mp (by rw [hv]; exact Option.some_ne_none _), hP⟩, fun k hk => ?_⟩
    exact hmin k hk.2 (h.get?_ne_none_iff.mpr hk.1)
  · rintro ⟨⟨hlive, hP⟩, hmin⟩
    obtain ⟨v, hv⟩ := Option.ne_none_iff_exists'.mp (h.get?_ne_none_iff.mpr hlive)
    refine ⟨v, ?_⟩
    rw [SortedMap.filter_eq_cons hv hP fun k hk hne => hmin ⟨h.get?_ne_none_iff.mp hne, hk⟩]
    rfl

theorem Shows.within_filter_iff (h : Shows db m) (P : String → Bool) :
    Within start stop (m.entries.filter fun e => P e.1) ↔
      ∀ key, IsLeast {k | db.Live k ∧ P k = true} key → start.Starts key ∨ ¬ stop.Ends key := by
  constructor
  · intro hwithin key hleast
    obtain ⟨value, hhead⟩ := (h.head?_filter_iff P).mpr hleast
    exact hwithin (key, value) hhead
  · intro hall e he
    exact hall e.1 ((h.head?_filter_iff P).mp ⟨e.2, he⟩)

/-- A seek that stays inside the bounds finds the first live key from its target on that is inside
the bounds. -/
theorem Shows.first_iff (h : Shows db m) {target key : String}
    (hwithin : Within start stop (m.entries.filter fun e => decide (target ≤ e.1))) :
    (∃ value, (m.entries.filter fun e => decide (target ≤ e.1)).head? = some (key, value)) ∧
      stop.Ends key ↔
    IsLeast {k | db.Live k ∧ target ≤ k ∧ start.Starts k ∧ stop.Ends k} key := by
  have hfirst := fun key => @Shows.head?_filter_iff _ _ h (fun k => decide (target ≤ k)) key
  constructor
  · rintro ⟨⟨value, hhead⟩, hends⟩
    obtain ⟨⟨hlive, htarget⟩, hmin⟩ := (hfirst key).mp ⟨value, hhead⟩
    have hstarts := (hwithin _ hhead).resolve_right (not_not_intro hends)
    refine ⟨⟨hlive, of_decide_eq_true htarget, hstarts, hends⟩, fun k hk => ?_⟩
    exact hmin ⟨hk.1, decide_eq_true hk.2.1⟩
  · rintro ⟨⟨hlive, htarget, hstarts, hends⟩, hmin⟩
    refine ⟨(hfirst key).mpr ⟨⟨hlive, decide_eq_true htarget⟩, fun k hk => ?_⟩, hends⟩
    by_contra hlt
    have hle : k ≤ key := (not_le.mp hlt).le
    -- the first record from the target on is not behind `k`, so it is inside the bounds
    obtain ⟨v, hv⟩ := Option.ne_none_iff_exists'.mp (h.get?_ne_none_iff.mpr hk.1)
    have hmem : (k, v) ∈ m.entries.filter fun e => decide (target ≤ e.1) :=
      List.mem_filter.mpr ⟨SortedMap.mem_entries.mpr hv, hk.2⟩
    obtain ⟨e, he⟩ := Option.isSome_iff_exists.mp
      (List.isSome_head?.mpr (List.ne_nil_of_mem hmem))
    have hfirst' := ((hfirst e.1).mp ⟨e.2, he⟩).2 hk
    have hstarts' := (hwithin e he).resolve_right
      (not_not_intro (hends.of_le (hfirst'.trans hle)))
    exact hlt (hmin ⟨hk.1, of_decide_eq_true hk.2, hstarts'.of_le hfirst', hends.of_le hle⟩)

/-- A call keeps the iterator inside its bounds exactly when it is fine, and then it does what it
says. -/
theorem Shows.within_left_iff (h : Shows db m) {l : List (String × Option String)}
    (hs : SortedMap.Raw.Sorted l) (hwithin : Within start stop l) (call : RangeCall) :
    Within start stop (call.left m stop l) ↔ call.Fine db start stop := by
  cases call with
  | seek target =>
    rw [RangeCall.left, h.within_filter_iff fun k => decide (target ≤ k), RangeCall.Fine]
    simp only [decide_eq_true_eq]
  | seekToFirst =>
    have hall := @Shows.within_filter_iff _ _ start stop h fun _ => true
    rw [List.filter_true] at hall
    rw [RangeCall.left, hall, RangeCall.Fine]
    simp only [and_true]
  | advance => exact iff_of_true (hwithin.tail hs) trivial
  | next =>
    refine iff_of_true ?_ trivial
    rw [RangeCall.left]
    split
    · exact hwithin.tail hs
    · exact hwithin

variable {σ : Type} [StorageIterator σ] [LawfulCursor σ]

theorem Shows.stands (h : Shows db m) {it : RangeIterator σ} {l : List (String × Option String)}
    (call : RangeCall) (hat : LawfulCursor.At it.merged m (call.left m it.stop l))
    (hwithin : Within start it.stop (call.left m it.stop l)) : call.Stands db start it.stop it := by
  cases call with
  | seek target => exact fun key => (RangeIterator.stands_iff hat).trans (h.first_iff hwithin)
  | _ => trivial

theorem RangeCall.sorted_left {l : List (String × Option String)} (hs : SortedMap.Raw.Sorted l)
    (call : RangeCall) : SortedMap.Raw.Sorted (call.left m stop l) := by
  have htail : SortedMap.Raw.Sorted l.tail := List.Pairwise.tail hs
  cases call with
  | seek target => exact m.sorted.filter _
  | seekToFirst => exact m.sorted
  | advance => exact htail
  | next =>
    rw [left]
    split
    · exact htail
    · exact hs

theorem RangeCall.left_subset {l : List (String × Option String)} (hl : l ⊆ m.entries)
    (call : RangeCall) : call.left m stop l ⊆ m.entries := by
  cases call with
  | seek target => exact List.filter_subset_self _
  | seekToFirst => exact List.Subset.refl _
  | advance => exact fun e he => hl (List.mem_of_mem_tail he)
  | next =>
    rw [left]
    split
    · exact fun e he => hl (List.mem_of_mem_tail he)
    · exact hl

/-- From a position inside the bounds the moves are lawful exactly when each of them is fine. -/
theorem Shows.lawfulMoves_iff (h : Shows db m) {it : RangeIterator σ}
    {l : List (String × Option String)} (hat : LawfulCursor.At it.merged m l)
    (hl : l ⊆ m.entries) (hs : SortedMap.Raw.Sorted l) (hwithin : Within start it.stop l)
    (calls : List RangeCall) :
    LawfulMoves db start it.stop it calls ↔ ∀ call ∈ calls, call.Fine db start it.stop := by
  have hin := (RangeIterator.inBounds_iff hat).mpr hwithin
  induction calls generalizing it l with
  | nil => exact iff_of_true hin fun _ hcall => absurd hcall List.not_mem_nil
  | cons call calls ih =>
    obtain ⟨it', hok, hstop, hat'⟩ := call.run_at hat fun e he => h.live e (hl he)
    have hiff := h.within_left_iff hs hwithin call
    rw [← hstop] at hat' hiff hin hwithin ⊢
    rw [LawfulMoves, List.forall_mem_cons]
    constructor
    · rintro ⟨-, it'', hok'', -, hmoves⟩
      obtain rfl := Except.ok.inj (hok.symm.trans hok'')
      have hwithin' := (RangeIterator.inBounds_iff hat').mp hmoves.inBounds
      exact ⟨hiff.mp hwithin', (ih hat' (call.left_subset hl) (call.sorted_left hs) hwithin'
        hmoves.inBounds).mp hmoves⟩
    · rintro ⟨hfine, hrest⟩
      have hwithin' := hiff.mpr hfine
      refine ⟨hin, it', hok, h.stands call hat' hwithin', ?_⟩
      exact (ih hat' (call.left_subset hl) (call.sorted_left hs) hwithin'
        ((RangeIterator.inBounds_iff hat').mpr hwithin')).mpr hrest

theorem DbInner.Sound.shows (h : db.Sound) : Shows db (MergeIterator.shown false
    (DbInner.merged db.memtable ((readOrder db.levels).map SSTable.entries))) :=
  ⟨fun _ _ => DbInner.mem_shown_iff h.tablesHold,
    fun e he => by simpa using (List.mem_filter.mp he).2⟩

/-- A new range iterator reads the records from its start on. -/
theorem DbInner.Sound.rangeIterator_at (h : db.Sound) (start stop : Bound) :
    ∃ it m, db.rangeIterator start stop = .ok it ∧ it.stop = stop ∧ Shows db m ∧
      LawfulCursor.At it.merged m (m.entries.filter fun e => decide (start.Starts e.1)) := by
  obtain ⟨merged, hbuild, -, hat⟩ := MergeIterator.build_at (DbInner.allOver_children h.tablesHold)
    false
  obtain ⟨it, hok, hstop, hat'⟩ := RangeIterator.new_at hat rfl start stop
  refine ⟨it, _, ?_, hstop, h.shows, hat'⟩
  rw [DbInner.rangeIterator, MergeIterator.new, hbuild]
  exact hok

theorem DbInner.Sound.exists_lawfulMoves_iff (h : db.Sound) (start stop : Bound)
    (calls : List RangeCall) :
    ∃ it, db.rangeIterator start stop = .ok it ∧
      (LawfulMoves db start stop it calls ↔ ∀ call ∈ calls, call.Fine db start stop) := by
  obtain ⟨it, m, hok, rfl, hshows, hat⟩ := h.rangeIterator_at start stop
  refine ⟨it, hok, hshows.lawfulMoves_iff hat (List.filter_subset_self _) (m.sorted.filter _)
    (fun e he => Or.inl ?_) calls⟩
  exact of_decide_eq_true (List.mem_filter.mp (List.mem_of_mem_head? he)).2

end Runs

/-- The iterator that `range` returns keeps to its bounds, and every seek does what it says, exactly
when no seek of the sequence stands before the start of the range. -/
theorem rangeIterator_lawful_iff (db : DbInner) (h : db.Sound) (start stop : Bound)
    (calls : List RangeCall) :
    ∃ it, db.rangeIterator start stop = .ok it ∧
      (LawfulMoves db start stop it calls ↔ ∀ call ∈ calls, call.Fine db start stop) :=
  h.exists_lawfulMoves_iff start stop calls

/-- Two keys in the memtable. -/
def twoKeys : DbInner :=
  ⟨SortedMap.ofList [("a", .value "1"), ("b", .value "2")], [[]], 0, .default, .new none⟩

theorem sound_twoKeys : twoKeys.Sound := fun _ ht => absurd ht List.not_mem_nil

/-- A seek to the first key of the range. -/
theorem rangeIterator_lawful_iff_twoKeys : ∃ it,
    twoKeys.rangeIterator (.included "b") .unbounded = .ok it ∧
      LawfulMoves twoKeys (.included "b") .unbounded it [.seek "b", .next] := by
  obtain ⟨it, hok, hiff⟩ := rangeIterator_lawful_iff twoKeys sound_twoKeys (.included "b") .unbounded
    [.seek "b", .next]
  refine ⟨it, hok, hiff.mpr fun call hcall => ?_⟩
  rcases List.mem_cons.mp hcall with rfl | hcall
  · exact fun key hleast => Or.inl hleast.1.2
  · rw [List.mem_singleton.mp hcall]
    trivial

/-- A seek to a key before the range is followed there. -/
theorem not_lawfulMoves_seek : ∃ it,
    twoKeys.rangeIterator (.included "b") .unbounded = .ok it ∧
      ¬ LawfulMoves twoKeys (.included "b") .unbounded it [.seek "a"] := by
  obtain ⟨it, hok, hiff⟩ := sound_twoKeys.exists_lawfulMoves_iff (.included "b") .unbounded
    [.seek "a"]
  refine ⟨it, hok, fun hlawful => ?_⟩
  have hleast : IsLeast {k | twoKeys.Live k ∧ "a" ≤ k} "a" := ⟨⟨⟨"1", by decide⟩, le_rfl⟩, fun k hk => hk.2⟩
  rcases hiff.mp hlawful (.seek "a") List.mem_cons_self "a" hleast with hstarts | hends
  · exact absurd hstarts (by decide)
  · exact hends trivial

end PebbleDB
