import PebbleDB.Lib.Overlay
import PebbleDB.Frame

/-!
# What opening clears away

Opening first removes the temporary files, and then finishes or forgets the merge that the marker
names. Both remove the files whose names have a property (`removeWhere`). Cut off, they have
removed some of these, and the marker last (`wp_removeListed`, `wp_finishPendingMerge`).
-/

namespace PebbleDB

open EarlyExit

/-! ## Removing files by name -/

/-- The directory without the files with such a name. -/
def Dir.drop (dir : Dir) (p : String → Bool) : Dir := dir.filter fun e => !p e.1

theorem Dir.get?_drop (dir : Dir) (p : String → Bool) (name : String) :
    (dir.drop p).get? name = if p name then none else dir.get? name := by
  have h := SortedMap.lookup_filter_entries (fun name => !p name) dir name
  simp only [Bool.not_eq_true', ← Bool.not_eq_true, ite_not] at h
  exact h

/-- All files with such a name can be removed. -/
def Removable (fails : String → Bool) (p : String → Bool) (dir : Dir) : Prop :=
  ∀ name, dir.get? name ≠ none → p name = true → fails name = false

/-- Of the files with such a name, some are gone; nothing else has changed. -/
def Cleared (p : String → Bool) (dir dir' : Dir) : Prop :=
  ∀ name, dir'.get? name = dir.get? name ∨ (p name = true ∧ dir'.get? name = none)

namespace Cleared

variable {p : String → Bool} {a b c : Dir}

theorem refl (p : String → Bool) (dir : Dir) : Cleared p dir dir := fun _ => Or.inl rfl

theorem trans (h : Cleared p a b) (h' : Cleared p b c) : Cleared p a c := by
  intro name
  rcases h' name with heq | hgone
  · rw [heq]
    exact h name
  · exact Or.inr hgone

theorem erase {name : String} (h : p name = true) (dir : Dir) :
    Cleared p dir (dir.erase name) := by
  intro other
  rw [SortedMap.get?_erase]
  split
  · rename_i heq
    exact Or.inr ⟨heq ▸ h, rfl⟩
  · exact Or.inl rfl

/-- A file that is still there is the same as before. -/
theorem eq_of_ne_none (h : Cleared p a b) {name : String} (hne : b.get? name ≠ none) :
    b.get? name = a.get? name := (h name).resolve_right fun hgone => hne hgone.2

theorem eq_of_not (h : Cleared p a b) {name : String} (hp : p name = false) :
    b.get? name = a.get? name :=
  (h name).resolve_right fun hgone => by rw [hp] at hgone; cases hgone.1

theorem removable (h : Cleared p a b) {fails q : String → Bool} (hr : Removable fails q a) :
    Removable fails q b := fun name hne hq =>
  hr name (by rw [← h.eq_of_ne_none hne]; exact hne) hq

/-- What is left in the end does not depend on how many are gone already. -/
theorem drop_eq (h : Cleared p a b) : b.drop p = a.drop p := by
  refine SortedMap.ext_get? fun name => ?_
  rw [Dir.get?_drop, Dir.get?_drop]
  split
  · rfl
  · exact h.eq_of_not (Bool.not_eq_true _ ▸ ‹_›)

theorem eq_drop (h : Cleared p a b) (hgone : ∀ name, p name = true → b.get? name = none) :
    b = a.drop p := by
  refine SortedMap.ext_get? fun name => ?_
  rw [Dir.get?_drop]
  split
  · exact hgone name ‹_›
  · exact h.eq_of_not (Bool.not_eq_true _ ▸ ‹_›)

end Cleared

theorem cleared_drop (p : String → Bool) (dir : Dir) : Cleared p dir (dir.drop p) := by
  intro name
  rw [Dir.get?_drop]
  split
  · exact Or.inr ⟨‹_›, rfl⟩
  · exact Or.inl rfl

/-- The common form of the loops of `open` that remove files. -/
def removeWhere (p : String → Bool) : List String → DiskM Unit
  | [] => pure ()
  | name :: names => do
    if p name then
      Disk.removeFile name
      removeWhere p names
    else
      removeWhere p names

theorem removeTmpFiles_eq (names : List String) :
    removeTmpFiles names = removeWhere isTmp names := by
  induction names with
  | nil => rfl
  | cons name names ih => rw [removeTmpFiles, removeWhere, ih]

theorem Disk.Steady.along_removeWhere {P : FileOp → Prop} {S : Disk → Disk → Prop}
    (h : Disk.Steady P S) (hremove : ∀ name, P (.remove name)) (p : String → Bool)
    (names : List String) : Along S (removeWhere p names) := by
  induction names with
  | nil => exact .pure h.refl _
  | cons name names ih =>
    exact .ite (h.bind (h.along_removeFile (hremove name)) fun _ => ih) ih

theorem along_removeWhere (p : String → Bool) (names : List String) :
    Along Disk.Frame (removeWhere p names) :=
  Disk.Frame.steady.along_removeWhere (fun _ => trivial) p names

theorem wp_removeWhere (p : String → Bool) {names : List String} (hnodup : names.Nodup)
    (disk : Disk) (hnames : ∀ name ∈ names, disk.dir.get? name ≠ none) :
    Wp (removeWhere p names)
      (fun _ disk' => Cleared p disk.dir disk'.dir ∧
        ∀ name ∈ names, p name = true →
          disk'.dir.get? name = none ∧ disk.unlinkFails name = false)
      (fun _ disk' => Cleared p disk.dir disk'.dir ∧
        (disk.stop = none → ∃ name ∈ names, p name = true ∧ disk.unlinkFails name = true))
      disk := by
  induction names generalizing disk with
  | nil => exact Wp.pure ⟨.refl _ _, fun _ h => absurd h List.not_mem_nil⟩
  | cons name names ih =>
    obtain ⟨hnot, hnodup⟩ := List.nodup_cons.mp hnodup
    have hrest := fun n hn => hnames n (List.mem_cons_of_mem _ hn)
    rw [removeWhere]
    refine Wp.ite (fun hp => ?_) fun hp => ?_
    · refine Wp.bind (Disk.wp_removeFile (fun _ hok stop hstop => ?_) (fun hnone => ?_)
        (fun hfails => ?_) fun cut hstop => ?_)
      · refine (ih hnodup _ fun n hn => ?_).mono ?_ ?_
        · rw [SortedMap.get?_erase, if_neg (fun heq : n = name => hnot (heq ▸ hn))]
          exact hrest n hn
        · intro _ disk' h
          refine ⟨(Cleared.erase hp disk.dir).trans h.1, fun n hn hpn => ?_⟩
          rcases List.mem_cons.mp hn with rfl | hn
          · refine ⟨?_, hok⟩
            rcases h.1 n with heq | ⟨-, hgone⟩
            · rw [heq, SortedMap.get?_erase, if_pos rfl]
            · exact hgone
          · exact h.2 n hn hpn
        · intro e disk' h
          refine ⟨(Cleared.erase hp disk.dir).trans h.1, fun hnone => ?_⟩
          obtain ⟨n, hn, hpn⟩ := h.2 (hstop hnone)
          exact ⟨n, List.mem_cons_of_mem _ hn, hpn⟩
      · exact absurd hnone (hnames name List.mem_cons_self)
      · exact ⟨.refl _ _, fun _ => ⟨name, List.mem_cons_self, hp, hfails⟩⟩
      · refine ⟨?_, fun hnone => absurd hnone hstop⟩
        cases cut with
        | zero => exact .refl _ _
        | succ cut => exact .erase hp _
    · refine (ih hnodup disk hrest).mono (fun _ disk' h => ⟨h.1, fun n hn hpn => ?_⟩)
        fun e disk' h => ⟨h.1, fun hnone => ?_⟩
      · rcases List.mem_cons.mp hn with rfl | hn
        · exact absurd hpn hp
        · exact h.2 n hn hpn
      · obtain ⟨n, hn, hpn⟩ := h.2 hnone
        exact ⟨n, List.mem_cons_of_mem _ hn, hpn⟩

/-- What the first two phases share: a listing is gone through and the named files are removed. -/
theorem wp_removeListed (p : String → Bool) (i : Nat) (disk : Disk) :
    Wp (removeWhere p (disk.listing.order i disk.dir.keys))
      (fun _ disk' => Removable disk.unlinkFails p disk.dir ∧ disk'.dir = disk.dir.drop p)
      (fun _ disk' => Cleared p disk.dir disk'.dir ∧
        (disk.stop = none → ¬ Removable disk.unlinkFails p disk.dir)) disk := by
  have hperm := disk.listing.perm i disk.dir.keys
  have hmem : ∀ name, name ∈ disk.listing.order i disk.dir.keys ↔ disk.dir.get? name ≠ none :=
    fun name => hperm.mem_iff.trans SortedMap.mem_keys
  refine (wp_removeWhere p (hperm.nodup_iff.mpr disk.dir.keys_nodup) disk
    fun name hname => (hmem name).mp hname).mono (fun _ disk' h => ⟨?_, ?_⟩)
    fun e disk' h => ⟨h.1, fun hnone => ?_⟩
  · exact fun name hne hp => (h.2 name ((hmem name).mpr hne) hp).2
  · refine h.1.eq_drop fun name hp => ?_
    by_cases hname : disk.dir.get? name = none
    · rcases h.1 name with heq | hgone
      · rw [heq, hname]
      · exact hgone.2
    · exact (h.2 name ((hmem name).mpr hname) hp).1
  · obtain ⟨name, hname, hp, hfails⟩ := h.2 hnone
    intro hr
    rw [hr name ((hmem name).mp hname) hp] at hfails
    cases hfails

/-! ## The marker -/

/-- What the marker says. -/
def readPending (dir : Dir) : Res (Option (List Nat × List Nat)) :=
  match dir.get? mergePendingFile with
  | none => .ok none
  | some data =>
    match fromUtf8 data with
    | none => err (.io .invalidData)
    | some content => .ok (some (parsePending content))

theorem readPendingMerge_eq (disk : Disk) :
    readPendingMerge disk = fromExcept (readPending disk.dir) disk := by
  rw [readPendingMerge, readPending, bind_of_ok (rfl : Disk.fileExists mergePendingFile disk =
    .ok (disk.dir.get? mergePendingFile).isSome disk)]
  cases hdata : disk.dir.get? mergePendingFile with
  | none => rfl
  | some data =>
    have hread : Disk.readFile mergePendingFile disk = .ok data disk := by rw [Disk.readFile, hdata]
    rw [Option.isSome_some, if_pos rfl, bind_of_ok hread]
    dsimp only
    cases fromUtf8 data <;> rfl

/-- A table file of the directory has this id. -/
def hasTable (dir : Dir) (id : Nat) : Bool :=
  (sstableIds dir.keys).any fun file => decide (file.1 = id)

/-- The name of a table file with the id of an input. -/
def isInput (inputs : List Nat) (name : String) : Bool :=
  (parseSstableFileName name).any fun (id, _) => inputs.contains id

/-- The files that `finish_pending_merge` removes: the marker, and the inputs if all outputs are
there. -/
def goes (dir : Dir) : Option (List Nat × List Nat) → String → Bool
  | none, _ => false
  | some (outputs, inputs), name =>
    decide (name = mergePendingFile) || (outputs.all (hasTable dir) && isInput inputs name)

theorem mem_sstableIds {names : List String} {id : Nat} {name : String} :
    (id, name) ∈ sstableIds names ↔
      name ∈ names ∧ ∃ level, parseSstableFileName name = some (id, level) := by
  rw [sstableIds, List.mem_filterMap]
  constructor
  · rintro ⟨n, hn, hparse⟩
    obtain ⟨⟨id', level⟩, hid, heq⟩ := Option.map_eq_some_iff.mp hparse
    cases heq
    exact ⟨hn, level, hid⟩
  · rintro ⟨hn, level, hid⟩
    exact ⟨name, hn, by rw [hid]; rfl⟩

theorem hasTable_iff {dir : Dir} {id : Nat} :
    hasTable dir id = true ↔
      ∃ name level, dir.get? name ≠ none ∧ parseSstableFileName name = some (id, level) := by
  rw [hasTable, List.any_eq_true]
  constructor
  · rintro ⟨⟨id', name⟩, hmem, hid⟩
    obtain rfl : id' = id := by simpa using hid
    obtain ⟨hname, level, hparse⟩ := mem_sstableIds.mp hmem
    exact ⟨name, level, SortedMap.mem_keys.mp hname, hparse⟩
  · rintro ⟨name, level, hname, hparse⟩
    exact ⟨(id, name), mem_sstableIds.mpr ⟨SortedMap.mem_keys.mpr hname, level, hparse⟩, by simp⟩

theorem removeInputs_eq (inputs : List Nat) (names : List String) :
    removeInputs inputs (sstableIds names) = removeWhere (isInput inputs) names := by
  induction names with
  | nil => rfl
  | cons name names ih =>
    rw [removeWhere, isInput, sstableIds, List.filterMap_cons]
    cases parseSstableFileName name with
    | none => exact ih
    | some parsed =>
      rw [Option.any_some, Option.map_some]
      show removeInputs inputs ((parsed.1, name) :: sstableIds names) = _
      rw [removeInputs, ih]

theorem isInput_mergePendingFile (inputs : List Nat) : isInput inputs mergePendingFile = false := by
  rw [isInput, fixed_names.2.1]
  rfl

theorem goes_self (dir : Dir) (pending : List Nat × List Nat) :
    goes dir (some pending) mergePendingFile = true := by
  rw [goes, decide_eq_true rfl, Bool.true_or]

/-- Where `finish_pending_merge` can be cut off: the marker goes last. -/
def HalfMerged (dir dir' : Dir) : Prop :=
  dir' = dir ∨ ∃ pending, readPending dir = .ok pending ∧ Cleared (goes dir pending) dir dir' ∧
    (dir'.get? mergePendingFile = dir.get? mergePendingFile ∨ dir' = dir.drop (goes dir pending))

theorem hasTable_listing (disk : Disk) (i id : Nat) :
    (sstableIds (disk.listing.order i disk.dir.keys)).any (fun file => decide (file.1 = id)) =
      hasTable disk.dir id := by
  rw [hasTable, Bool.eq_iff_iff, List.any_eq_true, List.any_eq_true]
  refine exists_congr fun file => and_congr_left fun _ => ?_
  rw [← Prod.mk.eta (p := file), mem_sstableIds, mem_sstableIds,
    (disk.listing.perm i disk.dir.keys).mem_iff]

theorem erase_eq_drop (dir : Dir) (p : String → Bool) (name : String) :
    (dir.drop p).erase name = dir.drop fun n => decide (n = name) || p n := by
  refine SortedMap.ext_get? fun n => ?_
  rw [SortedMap.get?_erase, Dir.get?_drop, Dir.get?_drop]
  by_cases h : n = name
  · simp [h]
  · simp [h]

theorem Disk.Steady.along_finishPendingMerge {P : FileOp → Prop} {S : Disk → Disk → Prop}
    (h : Disk.Steady P S) (hremove : ∀ name, P (.remove name)) : Along S finishPendingMerge := by
  have hread : Along S readPendingMerge := fun disk => by
    rw [Wp, readPendingMerge_eq]
    exact Along.fromExcept h.refl _ disk
  refine h.bind hread fun pending => ?_
  cases pending with
  | none => exact .pure h.refl _
  | some pending =>
    have hlist : Along S (Disk.readDir 1) := fun disk => h.refl disk
    refine h.bind hlist fun names => .ite ?_ (h.along_removeFile (hremove _))
    rw [removeInputs_eq]
    exact h.bind (h.along_removeWhere hremove _ _) fun _ => h.along_removeFile (hremove _)

theorem along_finishPendingMerge : Along Disk.Frame finishPendingMerge :=
  Disk.Frame.steady.along_finishPendingMerge fun _ => trivial

/-- Removing the marker, the last step. -/
theorem wp_removeMarker (disk : Disk) (hsome : disk.dir.get? mergePendingFile ≠ none) :
    Wp (Disk.removeFile mergePendingFile)
      (fun _ disk' => disk.unlinkFails mergePendingFile = false ∧
        disk'.dir = disk.dir.erase mergePendingFile)
      (fun _ disk' => (disk'.dir = disk.dir ∨ disk'.dir = disk.dir.erase mergePendingFile) ∧
        (disk.stop = none → disk.unlinkFails mergePendingFile = true)) disk := by
  refine Disk.wp_removeFile (fun _ hok _ _ => ⟨hok, rfl⟩) (fun hnone => absurd hnone hsome)
    (fun hfails => ⟨Or.inl rfl, fun _ => hfails⟩)
    fun cut hstop => ⟨?_, fun hnone => absurd hnone hstop⟩
  cases cut with
  | zero => exact Or.inl rfl
  | succ cut => exact Or.inr rfl

theorem wp_finishPendingMerge (disk : Disk) :
    Wp finishPendingMerge
      (fun _ disk' => ∃ pending, readPending disk.dir = .ok pending ∧
        Removable disk.unlinkFails (goes disk.dir pending) disk.dir ∧
        disk'.dir = disk.dir.drop (goes disk.dir pending))
      (fun _ disk' => HalfMerged disk.dir disk'.dir ∧
        (disk.stop = none → ∀ pending, readPending disk.dir = .ok pending →
          ¬ Removable disk.unlinkFails (goes disk.dir pending) disk.dir)) disk := by
  rw [finishPendingMerge]
  refine Wp.bind ?_
  rw [Wp, readPendingMerge_eq]
  cases hpending : readPending disk.dir with
  | error e =>
    exact ⟨Or.inl rfl, fun _ pending h => by cases h⟩
  | ok pending =>
    show Wp _ _ _ disk
    cases pending with
    | none =>
      refine Wp.pure ⟨none, rfl, fun _ _ h => Bool.noConfusion h, ?_⟩
      refine SortedMap.ext_get? fun name => ?_
      rw [Dir.get?_drop, goes, if_neg Bool.false_ne_true]
    | some pending =>
      have hmarker : disk.dir.get? mergePendingFile ≠ none := by
        intro hnone
        rw [readPending, hnone] at hpending
        cases hpending
      obtain ⟨outputs, inputs⟩ := pending
      refine Wp.bind (Wp.of_eq_ok rfl ?_)
      dsimp only
      simp only [hasTable_listing]
      refine Wp.ite (fun hall => ?_) fun hnot => ?_
      · -- the outputs are complete: the inputs go, and then the marker
        have hgoes : goes disk.dir (some (outputs, inputs)) =
            fun name => decide (name = mergePendingFile) || isInput inputs name := by
          funext name
          rw [goes, hall, Bool.true_and]
        have hsub : ∀ name, isInput inputs name = true →
            goes disk.dir (some (outputs, inputs)) name = true := fun name h => by
          rw [hgoes]
          simp [h]
        rw [removeInputs_eq]
        refine Wp.bind (((wp_removeListed (isInput inputs) 1 disk).and
          (along_removeWhere _ _ disk)).mono ?_ ?_)
        · intro _ disk₁ h
          obtain ⟨⟨hr, hdir⟩, hframe⟩ := h
          have hkept : disk₁.dir.get? mergePendingFile = disk.dir.get? mergePendingFile := by
            rw [hdir, Dir.get?_drop, isInput_mergePendingFile, if_neg Bool.false_ne_true]
          have herase : disk₁.dir.erase mergePendingFile =
              disk.dir.drop (goes disk.dir (some (outputs, inputs))) := by
            rw [hdir, erase_eq_drop, hgoes]
          refine (wp_removeMarker disk₁ (by rw [hkept]; exact hmarker)).mono
            (fun _ disk' h => ⟨_, rfl, ?_, h.2.trans herase⟩)
            fun e disk' h => ⟨Or.inr ⟨_, hpending, ?_, ?_⟩, ?_⟩
          · intro name hne hgo
            rw [hgoes] at hgo
            rcases Bool.or_eq_true_iff.mp hgo with hname | hin
            · rw [of_decide_eq_true hname, ← hframe.unlinkFails]
              exact h.1
            · exact hr name hne hin
          · rcases h.1 with heq | heq
            · rw [heq, hdir]
              intro name
              exact (cleared_drop (isInput inputs) disk.dir name).imp_right
                fun hgone => ⟨hsub name hgone.1, hgone.2⟩
            · rw [heq, herase]
              exact cleared_drop _ _
          · rcases h.1 with heq | heq
            · exact Or.inl (heq ▸ hkept)
            · exact Or.inr (heq.trans herase)
          · intro hnone pending hp hr'
            cases hp
            have := hr' mergePendingFile hmarker (goes_self _ _)
            rw [← hframe.unlinkFails, h.2 (hframe.stop hnone)] at this
            cases this
        · intro e disk' h
          refine ⟨Or.inr ⟨_, hpending, fun name => (h.1.1 name).imp_right
            fun hgone => ⟨hsub name hgone.1, hgone.2⟩, Or.inl ?_⟩, fun hnone pending hp hr' => ?_⟩
          · exact h.1.1.eq_of_not (isInput_mergePendingFile inputs)
          · cases hp
            exact h.1.2 hnone fun name hname hin => hr' name hname (hsub name hin)
      · -- an output is missing: only the marker goes
        have hgoes : goes disk.dir (some (outputs, inputs)) =
            fun name => decide (name = mergePendingFile) := by
          funext name
          rw [goes, Bool.eq_false_iff.mpr hnot, Bool.false_and, Bool.or_false]
        have herase : disk.dir.erase mergePendingFile =
            disk.dir.drop (goes disk.dir (some (outputs, inputs))) := by
          rw [hgoes]
          refine SortedMap.ext_get? fun name => ?_
          rw [SortedMap.get?_erase, Dir.get?_drop]
          simp only [decide_eq_true_eq]
        refine (wp_removeMarker disk hmarker).mono
          (fun _ disk' h => ⟨_, rfl, ?_, h.2.trans herase⟩)
          fun e disk' h => ⟨Or.inr ⟨_, hpending, ?_, ?_⟩, ?_⟩
        · intro name _ hgo
          rw [hgoes] at hgo
          rw [of_decide_eq_true hgo]
          exact h.1
        · rcases h.1 with heq | heq
          · rw [heq]
            exact .refl _ _
          · rw [heq, herase]
            exact cleared_drop _ _
        · exact h.1.imp (fun heq => by rw [heq]) fun heq => heq.trans herase
        · intro hnone pending hp hr'
          cases hp
          have := hr' mergePendingFile hmarker (goes_self _ _)
          rw [h.2 hnone] at this
          cases this

end PebbleDB
