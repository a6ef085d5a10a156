import PebbleDB.LiveDirectory

/-!
# Crashes

A run goes through any number of handles, one after the other, on one directory. Each opening and
each call may be cut off, by a stop of the process at any file operation or by an error behind which
the handle is dropped. Every handle answers like a map that has the calls that returned, and of each
call that was cut off the whole effect or none (`run_follows`).
-/

namespace PebbleDB

open EarlyExit

/-! ## Runs -/

/-- A directory, with a handle open on it or not. -/
inductive System where
  | closed (disk : Disk)
  | opened (w : World)

/-- The directory, whether or not a handle is open on it. -/
def System.disk : System → Disk
  | closed disk => disk
  | opened w => w.disk

/-- The order of the listings of the next call, and where the process stops in it. -/
def Disk.under (disk : Disk) (listing : Listing) (stop : Option Stop) : Disk :=
  { disk with listing, stop }

/-- The same handle where the directory lists its files so and the process may be stopped so. -/
def World.under (w : World) (listing : Listing) (stop : Option Stop) : World :=
  { w with disk := w.disk.under listing stop }

/-- What a step says about the writes: nothing, that a call has returned, or that a call was cut
off. -/
inductive Label where
  | quiet
  | returned (call : Call)
  | cutOff (call : Call)
  deriving DecidableEq, Repr

/-- The call that a step makes. -/
def Label.call? : Label → Option Call
  | quiet => none
  | returned call => some call
  | cutOff call => some call

namespace System

/-- One step, with any options at an opening. A call whose loops are cut off by their bound has been
cut off as well. -/
inductive Step [BloomSizing] : System → Label → System → Prop where
  | opens (disk : Disk) (listing : Listing) (stop : Option Stop) (options : DbOptions)
      (db : DbInner) (disk' : Disk)
      (h : openWithOptions options (disk.under listing stop) = .ok db disk') :
      Step (closed disk) .quiet (opened ⟨db, disk'⟩)
  | openingCut (disk : Disk) (listing : Listing) (stop : Option Stop) (options : DbOptions)
      (e : Exit) (disk' : Disk)
      (h : openWithOptions options (disk.under listing stop) = .error e disk') :
      Step (closed disk) .quiet (closed disk')
  | returns (w : World) (listing : Listing) (stop : Option Stop) (fuel : Nat) (call : Call)
      (existed : Option Bool) (w' : World)
      (h : call.run fuel (w.under listing stop) = .ok existed w') :
      Step (opened w) (.returned call) (opened w')
  | callCut (w : World) (listing : Listing) (stop : Option Stop) (fuel : Nat) (call : Call)
      (e : Exit) (w' : World) (h : call.run fuel (w.under listing stop) = .error e w') :
      Step (opened w) (.cutOff call) (closed w'.disk)
  | drops (w : World) : Step (opened w) .quiet (closed w.disk)

/-- Steps one after the other, with the states they lead to. -/
inductive Run [BloomSizing] : System → List (Label × System) → Prop where
  | nil (s : System) : Run s []
  | cons {s s' : System} {label : Label} {steps : List (Label × System)}
      (hstep : Step s label s') (hsteps : Run s' steps) : Run s ((label, s') :: steps)

/-- Every handle answers like the map: the one that is open, or any that is opened next. Without a
stop opening succeeds. -/
def Holds (m : Contents) : System → Prop
  | opened w => Answers w.inner m
  | closed disk => ∀ options listing, ∃ db disk',
      openWithOptions options (disk.under listing none) = .ok db disk' ∧ Answers db m

end System

/-- What a step does to the map. -/
inductive Label.Effect (m : Contents) : Label → Contents → Prop where
  | quiet : Effect m quiet m
  | returned (call : Call) : Effect m (returned call) (call.apply m)
  | lost (call : Call) : Effect m (cutOff call) m
  | applied (call : Call) : Effect m (cutOff call) (call.apply m)

/-- One map after the other explains the steps. -/
inductive Follows : Contents → List (Label × System) → Prop where
  | nil (m : Contents) : Follows m []
  | cons {m m' : Contents} {label : Label} {s : System} {steps : List (Label × System)}
      (heffect : label.Effect m m') (hholds : s.Holds m') (hsteps : Follows m' steps) :
      Follows m ((label, s) :: steps)

/-! ## The invariant -/

/-- What holds between the steps. -/
def System.Safe (m : Contents) : System → Prop
  | .opened w => Live m w
  | .closed disk => Durable disk.dir m ∧ ∀ name, disk.unlinkFails name = false

namespace System

variable [BloomSizing] {m : Contents} {s s' : System} {label : Label}

omit [BloomSizing] in
theorem Safe.holds (h : s.Safe m) : s.Holds m := by
  cases s with
  | opened w => exact h.answers
  | closed disk =>
    obtain ⟨hdurable, hfails⟩ := h
    intro options listing
    have hopen := @Durable.wp_openWithOptions (disk.under listing none) m hdurable hfails options
    rw [Wp] at hopen
    split at hopen
    · exact ⟨_, _, ‹_›, hopen.answers⟩
    · exact absurd rfl hopen.1

theorem Safe.step (h : s.Safe m) (hstep : Step s label s') (hfits : s'.disk.Fits)
    (hrecords : ∀ call ∈ label.call?, ∀ record ∈ call.record?, record.Fits) :
    ∃ m', label.Effect m m' ∧ s'.Safe m' := by
  cases hstep with
  | opens disk listing stop options db disk' hrun =>
    obtain ⟨hdurable, hfails⟩ := h
    have hopen := @Durable.wp_openWithOptions (disk.under listing stop) m hdurable hfails options
    exact ⟨m, .quiet, hopen.ok_of_eq hrun⟩
  | openingCut disk listing stop options e disk' hrun =>
    obtain ⟨hdurable, hfails⟩ := h
    have hopen := @Durable.wp_openWithOptions (disk.under listing stop) m hdurable hfails options
    have hframe : (disk.under listing stop).Frame disk' :=
      (along_openWithOptions options _).exit_of_eq hrun
    refine ⟨m, .quiet, (hopen.exit_of_eq hrun).2, fun name => ?_⟩
    rw [hframe.unlinkFails]
    exact hfails name
  | returns w listing stop fuel call existed w' hrun =>
    have hlive : Live m (w.under listing stop) := ⟨h.ready, h.answers, h.stands, h.fails⟩
    exact ⟨_, .returned call,
      ((live_rules.wp_call fuel call (hrecords call rfl) hlive).ok_of_eq hrun hfits).2⟩
  | callCut w listing stop fuel call e w' hrun =>
    have hlive : Live m (w.under listing stop) := ⟨h.ready, h.answers, h.stands, h.fails⟩
    have hframe : (w.under listing stop).Frame w' := (along_call fuel call _).exit_of_eq hrun
    have hfails : ∀ name, w'.disk.unlinkFails name = false := fun name => by
      rw [hframe.disk.unlinkFails]
      exact h.fails name
    rcases (live_rules.wp_call fuel call (hrecords call rfl) hlive).exit_of_eq hrun hfits with
      hdurable | hdurable
    · exact ⟨m, .lost call, hdurable, hfails⟩
    · exact ⟨_, .applied call, hdurable, hfails⟩
  | drops w => exact ⟨m, .quiet, h.durable, h.fails⟩

theorem Safe.run (h : s.Safe m) {steps : List (Label × System)} (hrun : Run s steps)
    (hfits : ∀ step ∈ steps, step.2.disk.Fits)
    (hrecords : ∀ step ∈ steps, ∀ call ∈ step.1.call?, ∀ record ∈ call.record?, record.Fits) :
    Follows m steps := by
  induction hrun generalizing m with
  | nil s => exact .nil m
  | cons hstep _ ih =>
    obtain ⟨m', heffect, hsafe⟩ := h.step hstep (hfits _ List.mem_cons_self)
      (hrecords _ List.mem_cons_self)
    exact .cons heffect hsafe.holds (ih hsafe
      (fun step hmem => hfits step (List.mem_cons_of_mem _ hmem))
      fun step hmem => hrecords step (List.mem_cons_of_mem _ hmem))

end System

theorem durable_empty {dir : Dir} (hempty : dir = ∅) : Durable dir fun _ => none := by
  have hnone : ∀ name, settled dir name = none := by
    intro name
    rw [hempty, settled]
    exact ite_self none
  have hlog : LogHolds (settled dir) [] [] := ⟨by simp, tornTail_nil, by rw [hnone]; rfl⟩
  refine ⟨∅, ∅, .of_tables ⟨?_, ?_, ?_, ?_, ?_, ?_⟩ (hnone _) hlog rfl, ⟨?_, ?_, ?_⟩⟩
  · exact fun t ht => absurd ht (Set.notMem_empty t)
  · exact fun t ht => absurd ht (Set.notMem_empty t)
  · exact fun t ht => absurd ht (Set.notMem_empty t)
  · exact fun t ht => absurd ht (Set.notMem_empty t)
  · exact fun t ht => absurd ht (Set.notMem_empty t)
  · exact fun name hne => absurd (hnone name) hne
  · exact fun t ht => absurd ht (Set.notMem_empty t)
  · rintro key a ⟨t, ht, -⟩
    exact absurd ht (Set.notMem_empty t)
  · intro key r hr
    have hcopies : Leveled.Reads (copies ∅ key) none := by
      refine Set.eq_empty_of_forall_notMem ?_
      rintro c ⟨t, ht, -⟩
      exact absurd ht (Set.notMem_empty t)
    rw [hr.unique hcopies]
    rfl

/-- Every run on a directory that was empty, with any number of stops, is explained by one map after
the other: what returned is there, what was cut off is there or not, from then on, and the directory
can always be opened. -/
theorem run_follows [BloomSizing] {disk : Disk} (hempty : disk.dir = ∅)
    (hfails : ∀ name, disk.unlinkFails name = false) {steps : List (Label × System)}
    (hrun : System.Run (.closed disk) steps) (hfits : ∀ step ∈ steps, step.2.disk.Fits)
    (hrecords : ∀ step ∈ steps, ∀ call ∈ step.1.call?, ∀ record ∈ call.record?, record.Fits) :
    Follows (fun _ => none) steps := by
  have hsafe : (System.closed disk).Safe fun _ => none := ⟨durable_empty hempty, hfails⟩
  exact hsafe.run hrun hfits hrecords

/-- The second write fails in the merge it starts, the next opening is stopped behind the first input
that it removes, and the one after it finds the second write. -/
theorem run_follows_failingMerge : ∃ w₁ w₂ disk₃ disk₄ w₅,
    Follows (fun _ => none) [(.quiet, .opened w₁), (.returned (.set "a" "1"), .opened w₂),
      (.cutOff (.set "a" "2"), .closed disk₃), (.quiet, .closed disk₄), (.quiet, .opened w₅)] ∧
      w₂.inner.get "a" = .ok (some "1") ∧ w₅.inner.get "a" = .ok (some "2") := by
  let listing := emptyDisk.listing
  have hrun : check (openWithOptions failingMerge) (emptyDisk.under listing none)
      (fun db disk₁ => decide disk₁.Fits &&
        check (@Call.run .ofSmall 3 (.set "a" "1")) (World.under ⟨db, disk₁⟩ listing none)
          (fun _ w₂ => decide (w₂.disk.Fits ∧ w₂.inner.get "a" = .ok (some "1")) &&
            checkExit (@Call.run .ofSmall 3 (.set "a" "2")) (w₂.under listing none)
              (fun _ w₃ => decide w₃.disk.Fits &&
                checkExit (openWithOptions .default) (w₃.disk.under listing (some ⟨1, 0⟩))
                  (fun _ disk₄ => decide disk₄.Fits &&
                    check (openWithOptions .default) (disk₄.under listing none) (fun db disk₅ =>
                      decide (disk₅.Fits ∧ db.get "a" = .ok (some "2"))))))) = true := by
    decide +kernel
  obtain ⟨db, disk₁, hopen, htest⟩ := exists_of_check hrun
  obtain ⟨hfits₁, htest⟩ := Bool.and_eq_true_iff.mp htest
  obtain ⟨existed, w₂, hset, htest⟩ := exists_of_check htest
  obtain ⟨htest₂, htest⟩ := Bool.and_eq_true_iff.mp htest
  obtain ⟨hfits₂, hget₂⟩ := of_decide_eq_true htest₂
  obtain ⟨e, w₃, hcut, htest⟩ := exists_of_checkExit htest
  obtain ⟨hfits₃, htest⟩ := Bool.and_eq_true_iff.mp htest
  obtain ⟨e₄, disk₄, hopeningCut, htest⟩ := exists_of_checkExit htest
  obtain ⟨hfits₄, htest⟩ := Bool.and_eq_true_iff.mp htest
  obtain ⟨db₅, disk₅, hopen₅, htest₅⟩ := exists_of_check htest
  obtain ⟨hfits₅, hget₅⟩ := of_decide_eq_true htest₅
  refine ⟨⟨db, disk₁⟩, w₂, w₃.disk, disk₄, ⟨db₅, disk₅⟩,
    @run_follows .ofSmall emptyDisk rfl (fun _ => rfl) _ ?_ ?_ ?_, hget₂, hget₅⟩
  · let _ : BloomSizing := .ofSmall
    exact .cons (.opens _ _ _ _ _ _ hopen) (.cons (.returns _ _ _ _ _ _ _ hset)
      (.cons (.callCut _ _ _ _ _ _ _ hcut) (.cons (.openingCut _ _ _ _ _ _ hopeningCut)
      (.cons (.opens _ _ _ _ _ _ hopen₅) (.nil _)))))
  · simp only [List.forall_mem_cons]
    exact ⟨of_decide_eq_true hfits₁, hfits₂, of_decide_eq_true hfits₃, of_decide_eq_true hfits₄,
      hfits₅, List.forall_mem_nil _⟩
  · simp only [List.forall_mem_cons]
    decide

end PebbleDB
