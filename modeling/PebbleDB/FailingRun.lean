import PebbleDB.Leftovers

/-!
# Using a handle after an error

A run of calls on one handle, some of which fail. If the jobs that the calls start find a clear
directory, the next opening has the result of every key whose last write was acknowledged
(`run_keeps_acknowledged`). What a failed job leaves behind is in the way of the next one: then an
acknowledged `delete` can be undone (`not_run_keeps_acknowledged`).
-/

namespace PebbleDB

open EarlyExit

/-! ## The jobs of a call -/

section Starts

variable [BloomSizing]

/-- On a handle `w`, `compact_pending` starts a job when the handle is `w'`. -/
inductive CompactStarts : World → World → CompactionJob → Prop where
  | first {w : World} (plan : CompactionPlan) (job : CompactionJob)
      (hpick : pickCompaction w.inner.fileMetas w.inner.options.levelConfig = .ok (some plan))
      (hplan : w.inner.planJob plan = .ok job) : CompactStarts w w job
  | later {w w₁ w' : World} {job : CompactionJob} (plan : CompactionPlan) (done : CompactionJob)
      (hpick : pickCompaction w.inner.fileMetas w.inner.options.levelConfig = .ok (some plan))
      (hplan : w.inner.planJob plan = .ok done) (hrun : executeJob done w = .ok () w₁)
      (hstarts : CompactStarts w₁ w' job) : CompactStarts w w' job

/-- So does `flush`, when it has written the table. -/
inductive FlushStarts (w : World) : World → CompactionJob → Prop where
  | compact {w₁ w' : World} {job : CompactionJob} (hne : w.inner.memtable ≠ ∅)
      (hrun : flushTable w = .ok () w₁) (hstarts : CompactStarts w₁ w' job) : FlushStarts w w' job

/-- And a write that fills the memtable. -/
inductive WriteStarts (record : WalRecord) (key : String) (entry : MemtableEntry) (w : World) :
    World → CompactionJob → Prop where
  | flush {w₁ w' : World} {job : CompactionJob} (hrun : logRecord record key entry w = .ok () w₁)
      (hfull : w₁.inner.options.flushThreshold ≤ w₁.inner.memtable.size)
      (hstarts : FlushStarts w₁ w' job) : WriteStarts record key entry w w' job

/-- The jobs that a call starts, each with the handle it starts on. -/
inductive Call.Starts (w : World) : Call → World → CompactionJob → Prop where
  | set (key value : String) {w' : World} {job : CompactionJob}
      (h : WriteStarts (.set key value) key (.value value) w w' job) :
      Starts w (.set key value) w' job
  | delete (key : String) {existed : Option String} {w' : World} {job : CompactionJob}
      (hread : w.inner.getInner key = .ok existed)
      (h : WriteStarts (.delete key) key .tombstone w w' job) : Starts w (.delete key) w' job
  | flush {w' : World} {job : CompactionJob} (h : FlushStarts w w' job) : Starts w .flush w' job
  | compact {w' : World} {job : CompactionJob} (h : CompactStarts w w' job) :
      Starts w .compact w' job
  | compactFull (h : ¬ w.inner.sstCount ≤ 1) :
      Starts w .compactFull w ⟨w.inner.tables, 1, true, 2 ^ 64 - 1⟩

end Starts

/-! ## The writes of a run -/

/-- The key that a call writes, and what it leaves there. -/
def Call.write? : Call → Option (String × Option String)
  | set key value => some (key, some value)
  | delete key => some (key, none)
  | _ => none

/-- The call is a write of this key. -/
def Call.Writes (call : Call) (key : String) : Prop := call.write?.map Prod.fst = some key

instance (call : Call) (key : String) : Decidable (call.Writes key) :=
  inferInstanceAs (Decidable (_ = _))

namespace Call

variable {call : Call} {key : String} {m : Contents}

theorem apply_of_write? {value : Option String} (h : call.write? = some (key, value)) :
    call.apply m key = value := by
  cases call <;> simp only [write?, Option.some.injEq, Prod.mk.injEq, reduceCtorEq] at h
  all_goals
    obtain ⟨rfl, rfl⟩ := h
    exact Function.update_self _ _ _

theorem apply_of_not_writes (h : ¬ call.Writes key) : call.apply m key = m key := by
  cases call with
  | set k value =>
    refine Function.update_of_ne ?_ _ _
    rintro rfl
    exact h rfl
  | delete k =>
    refine Function.update_of_ne ?_ _ _
    rintro rfl
    exact h rfl
  | _ => rfl

end Call

/-- The last call of the run that writes the key, and what came back. -/
def lastWrite? (key : String) (steps : List Step) : Option Step :=
  steps.reverse.find? fun step => step.call.Writes key

/-- The last write of the key returned, and it left this. -/
def Acknowledged (steps : List Step) (key : String) (value : Option String) : Prop :=
  ∃ call existed w, lastWrite? key steps = some ⟨call, .returned existed, w⟩ ∧
    call.write? = some (key, value)

/-- The handle behind the calls. -/
def World.behind (w : World) : List Step → World
  | [] => w
  | step :: steps => step.world.behind steps

/-- The state behind the steps. -/
def System.behind (s : System) : List (Label × System) → System
  | [] => s
  | step :: steps => step.2.behind steps

theorem World.behind_append (w : World) (steps steps' : List Step) :
    w.behind (steps ++ steps') = (w.behind steps).behind steps' := by
  induction steps generalizing w with
  | nil => rfl
  | cons step steps ih => exact ih step.world

/-- Every job that the calls start finds a directory that is clear for it. -/
def ClearRun [BloomSizing] : World → List Step → Prop
  | _, [] => True
  | w, step :: steps =>
    (∀ w' job, step.call.Starts w w' job → ClearFor job w') ∧ ClearRun step.world steps

/-! ## One call -/

theorem clean_subset {dirty : Set String} {call : Call} {key : String} {value : Option String}
    (h : call.write? = some (key, value)) :
    dirty \ {key} ⊆ {k | k ∈ dirty ∧ ¬ call.Writes k} := by
  rintro k ⟨hk, hne⟩
  refine ⟨hk, fun hwrites => hne ?_⟩
  rw [Call.Writes, h] at hwrites
  exact (Option.some.inj hwrites).symm

theorem clean_subset_of_none {dirty : Set String} {call : Call} (h : call.write? = none) :
    dirty ⊆ {k | k ∈ dirty ∧ ¬ call.Writes k} := by
  intro k hk
  refine ⟨hk, fun hwrites => ?_⟩
  rw [Call.Writes, h] at hwrites
  cases hwrites

theorem dirty_subset {dirty : Set String} {call : Call} {key : String} {value : Option String}
    (h : call.write? = some (key, value)) :
    insert key dirty ⊆ {k | k ∈ dirty ∨ call.Writes k} := by
  rintro k (rfl | hk)
  · right
    simp [Call.Writes, h]
  · exact Or.inl hk

namespace Recoverable

variable [BloomSizing] {dirty : Set String} {m : Contents} {w : World}

theorem wp_compactPending (fuel : Nat) (h : Recoverable dirty m w)
    (hclear : ∀ w' job, CompactStarts w w' job → ClearFor job w') :
    Wp (compactPending fuel) (fun _ w' => w'.disk.Fits → Recoverable dirty m w')
      (fun _ w' => w'.disk.Fits → Recoverable dirty m w') w := by
  induction fuel generalizing w with
  | zero => exact Wp.throw fun _ => h
  | succ fuel ih =>
    rw [Wp]
    have hturn := turn_compactPending fuel w
    generalize compactPending (fuel + 1) w = r at hturn
    cases hturn with
    | rest _ => exact fun _ => h
    | overflow => exact fun _ => h
    | failed plan job e w' hpick hplan hrun =>
      have hstart := hclear w job (.first plan job hpick hplan)
      have hjob := h.wp_job (.planned _ plan job hpick hplan) hstart
      exact hjob.exit_of_eq hrun
    | next plan job w₁ hpick hplan hrun =>
      have hstart := hclear w job (.first plan job hpick hplan)
      have hjob := h.wp_job (.planned _ plan job hpick hplan) hstart
      have hclear₁ : ∀ w' job', CompactStarts w₁ w' job' → ClearFor job' w' :=
        fun w' job' hstarts => hclear w' job' (.later plan job hpick hplan hrun hstarts)
      exact Wp.assume_fits (along_compactPending fuel) fun hfits =>
        ih (hjob.ok_of_eq hrun hfits) hclear₁

theorem wp_flush (fuel : Nat) (h : Recoverable dirty m w)
    (hclear : ∀ w' job, FlushStarts w w' job → ClearFor job w') :
    Wp (PebbleDB.flush fuel) (fun _ w' => w'.disk.Fits → Recoverable dirty m w')
      (fun _ w' => w'.disk.Fits → Recoverable dirty m w') w := by
  rw [flush_eq]
  refine Wp.bind (Wp.get (Wp.ite (fun _ => Wp.pure fun _ => h) fun hne => ?_))
  refine Wp.bind ((h.wp_flushTable.and (Wp.self flushTable w)).mono ?_ fun _ _ hexit => hexit.1)
  rintro _ w₁ ⟨hw₁, hrun⟩
  exact Wp.assume_fits (along_compactPending fuel) fun hfits =>
    (hw₁ hfits).wp_compactPending fuel fun w' job hstarts =>
      hclear w' job (.compact hne hrun hstarts)

theorem wp_writeRecord (fuel : Nat) {record : WalRecord} {key : String} {entry : MemtableEntry}
    (h : Recoverable dirty m w) (hrecord : record.Fits)
    (hreplay : ∀ memtable, replayRecord memtable record = memtable.insert key entry)
    (hclear : ∀ w' job, WriteStarts record key entry w w' job → ClearFor job w') :
    Wp (writeRecord fuel record key entry)
      (fun _ w' => w'.disk.Fits →
        Recoverable (dirty \ {key}) (Function.update m key (MemtableIterator.valueOf entry)) w')
      (fun _ w' => w'.disk.Fits → Recoverable (insert key dirty) m w' ∨
        Recoverable (insert key dirty) (Function.update m key (MemtableIterator.valueOf entry)) w')
      w := by
  rw [writeRecord_eq]
  refine Wp.bind (((h.wp_logRecord hrecord hreplay).and (Wp.self _ w)).mono ?_
    fun _ _ hexit _ => hexit.1)
  rintro _ w₁ ⟨hw₁, hrun⟩
  refine Wp.bind (Wp.get (Wp.ite (fun hfull => ?_) fun _ => Wp.pure fun _ => hw₁))
  have hsub : dirty \ {key} ⊆ insert key dirty := Set.sdiff_subset.trans (Set.subset_insert _ _)
  exact (hw₁.wp_flush fuel fun w' job hstarts => hclear w' job (.flush hrun hfull hstarts)).mono
    (fun _ _ hw' => hw') fun _ _ hw' hfits => Or.inr ((hw' hfits).mono hsub)

/-- A call that returns cleans its key, one that fails makes it dirty. -/
theorem wp_call (fuel : Nat) (call : Call) (h : Recoverable dirty m w)
    (hrecord : ∀ record ∈ call.record?, record.Fits)
    (hclear : ∀ w' job, call.Starts w w' job → ClearFor job w') :
    Wp (call.run fuel)
      (fun _ w' => w'.disk.Fits →
        Recoverable {key | key ∈ dirty ∧ ¬ call.Writes key} (call.apply m) w')
      (fun _ w' => w'.disk.Fits →
        Recoverable {key | key ∈ dirty ∨ call.Writes key} m w' ∨
        Recoverable {key | key ∈ dirty ∨ call.Writes key} (call.apply m) w') w := by
  have hmore : dirty ⊆ {key | key ∈ dirty ∨ call.Writes key} := fun key hkey => Or.inl hkey
  cases call with
  | set key value =>
    refine Wp.map ((h.wp_writeRecord fuel (hrecord _ rfl) (fun _ => rfl) fun w' job hstarts =>
      hclear w' job (.set key value hstarts)).mono (fun _ w' hw' hfits => ?_)
      fun _ w' hw' hfits => ?_)
    · exact (hw' hfits).mono (clean_subset rfl)
    · exact (hw' hfits).imp (fun hw' => hw'.mono (dirty_subset rfl)) fun hw' =>
        hw'.mono (dirty_subset rfl)
  | delete key =>
    refine Wp.map ?_
    rw [delete]
    refine Wp.bind (Wp.get (Wp.bind (Wp.fromExcept (fun existed hread => ?_)
      fun _ _ _ => Or.inl (h.mono hmore))))
    refine Wp.bind ((h.wp_writeRecord fuel (hrecord _ rfl) (fun _ => rfl) fun w' job hstarts =>
      hclear w' job (.delete key hread hstarts)).mono (fun _ w' hw' => Wp.pure fun hfits => ?_)
      fun _ w' hw' hfits => ?_)
    · exact (hw' hfits).mono (clean_subset rfl)
    · exact (hw' hfits).imp (fun hw' => hw'.mono (dirty_subset rfl)) fun hw' =>
        hw'.mono (dirty_subset rfl)
  | flush =>
    refine Wp.map ((h.wp_flush fuel fun w' job hstarts => hclear w' job (.flush hstarts)).mono
      (fun _ w' hw' hfits => ?_) fun _ w' hw' hfits => Or.inl ((hw' hfits).mono hmore))
    exact (hw' hfits).mono (clean_subset_of_none rfl)
  | compact =>
    refine Wp.map ((h.wp_compactPending fuel fun w' job hstarts =>
      hclear w' job (.compact hstarts)).mono (fun _ w' hw' hfits => ?_)
      fun _ w' hw' hfits => Or.inl ((hw' hfits).mono hmore))
    exact (hw' hfits).mono (clean_subset_of_none rfl)
  | compactFull =>
    refine Wp.map ?_
    rw [compactFull]
    refine Wp.bind (Wp.get (Wp.ite (fun _ => Wp.pure fun _ => ?_) fun hmany => ?_))
    · exact h.mono (clean_subset_of_none rfl)
    · refine (h.wp_job .full (hclear w _ (.compactFull hmany))).mono (fun _ w' hw' hfits => ?_)
        fun _ w' hw' hfits => Or.inl ((hw' hfits).mono hmore)
      exact (hw' hfits).mono (clean_subset_of_none rfl)

end Recoverable

/-! ## Runs -/

section Runs

variable {dirty dirty₁ dirty' : Set String} {m m₁ m' : Contents} {steps : List Step}

theorem lastWrite?_singleton (key : String) (step : Step) :
    lastWrite? key [step] = if step.call.Writes key then some step else none := by
  rw [lastWrite?, List.reverse_singleton, List.find?_singleton]
  simp only [decide_eq_true_eq]

theorem lastWrite?_cons (key : String) (step : Step) (steps : List Step) :
    lastWrite? key (step :: steps) = (lastWrite? key steps).or (lastWrite? key [step]) := by
  rw [lastWrite?, List.reverse_cons, List.find?_append]
  rfl

/-- What calls do to the map and to the dirty keys. -/
structure Settles (dirty : Set String) (m : Contents) (steps : List Step) (dirty' : Set String)
    (m' : Contents) : Prop where
  acknowledged : ∀ key value, Acknowledged steps key value → key ∉ dirty' ∧ m' key = value
  untouched : ∀ key, lastWrite? key steps = none → key ∉ dirty → key ∉ dirty' ∧ m' key = m key

theorem Settles.nil (dirty : Set String) (m : Contents) : Settles dirty m [] dirty m where
  acknowledged key value hlast := by
    obtain ⟨call, existed, w, hlast, -⟩ := hlast
    cases hlast
  untouched key _ hkey := ⟨hkey, rfl⟩

theorem Settles.cons {step : Step} (hstep : Settles dirty m [step] dirty₁ m₁)
    (hsteps : Settles dirty₁ m₁ steps dirty' m') : Settles dirty m (step :: steps) dirty' m' := by
  have hfirst : ∀ key, lastWrite? key steps = none →
      lastWrite? key (step :: steps) = lastWrite? key [step] := by
    intro key hnone
    rw [lastWrite?_cons, hnone, Option.none_or]
  refine ⟨fun key value hlast => ?_, fun key hnone hkey => ?_⟩
  · obtain ⟨call, existed, w, hlast, hwrite⟩ := hlast
    cases hrest : lastWrite? key steps with
    | some last =>
      rw [lastWrite?_cons, hrest, Option.some_or] at hlast
      exact hsteps.acknowledged key value ⟨call, existed, w, hrest.trans hlast, hwrite⟩
    | none =>
      rw [hfirst key hrest] at hlast
      obtain ⟨hkey, hvalue⟩ := hstep.acknowledged key value ⟨call, existed, w, hlast, hwrite⟩
      obtain ⟨hkey', hsame⟩ := hsteps.untouched key hrest hkey
      exact ⟨hkey', hsame.trans hvalue⟩
  · have hrest : lastWrite? key steps = none := by
      rw [lastWrite?_cons] at hnone
      exact (Option.or_eq_none_iff.mp hnone).1
    rw [hfirst key hrest] at hnone
    obtain ⟨hkey₁, hsame₁⟩ := hstep.untouched key hnone hkey
    obtain ⟨hkey', hsame⟩ := hsteps.untouched key hrest hkey₁
    exact ⟨hkey', hsame.trans hsame₁⟩

theorem Settles.of_returned {call : Call} {existed : Option Bool} {w : World} :
    Settles dirty m [⟨call, .returned existed, w⟩] {key | key ∈ dirty ∧ ¬ call.Writes key}
      (call.apply m) := by
  refine ⟨fun key value hlast => ?_, fun key hnone hkey => ?_⟩
  · obtain ⟨_, _, _, hlast, hwrite⟩ := hlast
    rw [lastWrite?_singleton] at hlast
    split at hlast
    · cases hlast
      exact ⟨fun hin => hin.2 ‹_›, Call.apply_of_write? hwrite⟩
    · cases hlast
  · rw [lastWrite?_singleton] at hnone
    split at hnone
    · cases hnone
    · exact ⟨fun hin => hkey hin.1, Call.apply_of_not_writes ‹_›⟩

/-- The map may have the write of the failed call or not. -/
theorem Settles.of_failed {call : Call} {e : PebbleError} {w : World}
    (hmap : m' = m ∨ m' = call.apply m) :
    Settles dirty m [⟨call, .failed e, w⟩] {key | key ∈ dirty ∨ call.Writes key} m' := by
  refine ⟨fun key value hlast => ?_, fun key hnone hkey => ?_⟩
  · obtain ⟨_, _, _, hlast, -⟩ := hlast
    rw [lastWrite?_singleton] at hlast
    split at hlast <;> cases hlast
  · rw [lastWrite?_singleton] at hnone
    split at hnone
    · cases hnone
    · refine ⟨fun hin => hin.elim hkey ‹_›, ?_⟩
      rcases hmap with rfl | rfl
      · rfl
      · exact Call.apply_of_not_writes ‹_›

variable [BloomSizing] {w : World}

theorem Recoverable.step (h : Recoverable dirty m w) {step : Step} (hstep : step.From w)
    (hfits : step.world.disk.Fits) (hrecord : ∀ record ∈ step.call.record?, record.Fits)
    (hclear : ∀ w' job, step.call.Starts w w' job → ClearFor job w') :
    ∃ dirty' m', Settles dirty m [step] dirty' m' ∧ Recoverable dirty' m' step.world := by
  cases hstep with
  | returned fuel call existed w' hrun =>
    exact ⟨_, _, .of_returned, (h.wp_call fuel call hrecord hclear).ok_of_eq hrun hfits⟩
  | failed fuel call e w' hrun =>
    rcases (h.wp_call fuel call hrecord hclear).exit_of_eq hrun hfits with hw' | hw'
    · exact ⟨_, _, .of_failed (Or.inl rfl), hw'⟩
    · exact ⟨_, _, .of_failed (Or.inr rfl), hw'⟩

/-- Behind any number of calls the directory holds what was acknowledged. -/
theorem Recoverable.run (h : Recoverable dirty m w) (hrun : Run w steps)
    (hfits : ∀ step ∈ steps, step.world.disk.Fits)
    (hrecords : ∀ step ∈ steps, ∀ record ∈ step.call.record?, record.Fits)
    (hclear : ClearRun w steps) :
    ∃ dirty' m', Settles dirty m steps dirty' m' ∧ Recoverable dirty' m' (w.behind steps) := by
  induction hrun generalizing dirty m with
  | nil w => exact ⟨dirty, m, .nil dirty m, h⟩
  | cons hstep _ ih =>
    obtain ⟨dirty₁, m₁, hsettles₁, h₁⟩ :=
      h.step hstep (hfits _ List.mem_cons_self) (hrecords _ List.mem_cons_self) hclear.1
    obtain ⟨dirty', m', hsettles, h'⟩ := ih h₁
      (fun step hmem => hfits step (List.mem_cons_of_mem _ hmem))
      (fun step hmem => hrecords step (List.mem_cons_of_mem _ hmem)) hclear.2
    exact ⟨dirty', m', hsettles₁.cons hsettles, h'⟩

theorem System.Safe.behind {s : System} (h : s.Safe m) {steps : List (Label × System)}
    (hrun : System.Run s steps) (hfits : ∀ step ∈ steps, step.2.disk.Fits)
    (hrecords : ∀ step ∈ steps, ∀ call ∈ step.1.call?, ∀ record ∈ call.record?, record.Fits) :
    ∃ m', (s.behind steps).Safe m' := by
  induction hrun generalizing m with
  | nil s => exact ⟨m, h⟩
  | cons hstep _ ih =>
    obtain ⟨m', -, hsafe⟩ := h.step hstep (hfits _ List.mem_cons_self)
      (hrecords _ List.mem_cons_self)
    exact ih hsafe (fun step hmem => hfits step (List.mem_cons_of_mem _ hmem))
      fun step hmem => hrecords step (List.mem_cons_of_mem _ hmem)

end Runs

/-! ## Before the first failure

As long as all calls return, the directory has the files of the tables of the handle and no others.
Up to the first call that fails, and in it, every job finds a clear directory. -/

/-- Unless its turns run out, the computation comes through the state `w'`. -/
def Through {α : Type} (x : OpM α) (w w' : World) : Prop :=
  Wp x (fun _ w₁ => w'.Frame w₁) (fun e w₁ => e = .outOfFuel ∨ w'.Frame w₁) w

namespace Through

variable {α β : Type} {x : OpM α} {w w₁ w' : World}

theorem of_along (h : Along World.Frame x) (w : World) : Through x w w :=
  (h w).mono (fun _ _ hframe => hframe) fun _ _ hframe => Or.inr hframe

theorem bind {a : α} {f : α → OpM β} (hrun : x w = .ok a w₁) (h : Through (f a) w₁ w') :
    Through (x >>= f) w w' := by
  rw [Through, Wp, bind_of_ok hrun]
  exact h

theorem map {f : α → β} (h : Through x w w') : Through (f <$> x) w w' := Wp.map h

/-- What comes after it stays behind the state. -/
theorem bind_left {f : α → OpM β} (h : Through x w w') (hf : ∀ a, Along World.Frame (f a)) :
    Through (x >>= f) w w' := by
  refine Wp.bind (h.mono (fun a w₁ hframe => ?_) fun _ _ hexit => hexit)
  exact (hf a w₁).mono (fun _ _ hrest => hframe.trans hrest) fun _ _ hrest =>
    Or.inr (hframe.trans hrest)

end Through

section Clear

variable [BloomSizing] {m : Contents} {w w' : World} {job : CompactionJob}

theorem Live.clearFor (h : Live m w) (job : CompactionJob) : ClearFor job w := by
  obtain ⟨htables, hmarker, -⟩ := h.stands
  have hparse : ∀ t ∈ w.inner.tables, parseSstableFileName t.2.path ≠ none := by
    intro t ht
    rw [htables.parse_path ht]
    exact Option.some_ne_none _
  refine ⟨⟨fun t ht => ?_, fun outputs inputs hpending => ?_⟩, fun _ _ _ => ?_⟩
  · rw [← TableFiles.settled_of_parse (hparse t ht)]
    exact htables.file_ne_none ht
  · rw [World.files, settled_of_not_tmp fixed_names.2.2.2.1] at hmarker
    rw [readPending, hmarker] at hpending
    cases hpending
  · intro name id level hfile hname hunknown
    have hsome : parseSstableFileName name ≠ none := by
      rw [hname]
      exact Option.some_ne_none _
    rw [← TableFiles.settled_of_parse hsome] at hfile
    obtain ⟨t, ht, hpath⟩ := htables.complete name hfile hsome
    exact absurd hpath (hunknown t ht)

theorem CompactStarts.frame (hstarts : CompactStarts w w' job) : w.Frame w' := by
  induction hstarts with
  | first => exact .refl _
  | later plan done _ _ hrun _ ih => exact ((along_executeJob done _).ok_of_eq hrun).trans ih

theorem CompactStarts.live (hstarts : CompactStarts w w' job) (h : Live m w)
    (hfits : w'.disk.Fits) : Live m w' := by
  induction hstarts with
  | first => exact h
  | later plan done hpick hplan hrun hstarts ih =>
    have hfits₁ := hstarts.frame.disk.fits hfits
    exact ih ((live_rules.job h (.planned _ plan done hpick hplan)).ok_of_eq hrun hfits₁) hfits

theorem FlushStarts.frame (hstarts : FlushStarts w w' job) : w.Frame w' := by
  cases hstarts with
  | compact _ hrun hstarts => exact ((along_flushTable w).ok_of_eq hrun).trans hstarts.frame

theorem FlushStarts.live (hstarts : FlushStarts w w' job) (h : Live m w) (hfits : w'.disk.Fits) :
    Live m w' := by
  cases hstarts with
  | compact hne hrun hstarts =>
    have hfits₁ := hstarts.frame.disk.fits hfits
    exact hstarts.live ((live_rules.flush h hne).ok_of_eq hrun hfits₁) hfits

theorem CompactStarts.through (hstarts : CompactStarts w w' job) (fuel : Nat) :
    Through (compactPending fuel) w w' := by
  induction hstarts generalizing fuel with
  | first => exact .of_along (along_compactPending fuel) _
  | @later w _ _ _ plan done hpick hplan hrun _ ih =>
    cases fuel with
    | zero => exact Wp.throw (Or.inl rfl)
    | succ fuel =>
      rw [compactPending]
      refine Through.bind (rfl : (get : OpM World) w = .ok w w) ?_
      rw [hpick]
      refine Through.bind (fromExcept_ok rfl w) ?_
      dsimp only
      rw [hplan]
      exact .bind (fromExcept_ok rfl w) (.bind hrun (ih fuel))

theorem FlushStarts.through (hstarts : FlushStarts w w' job) (fuel : Nat) :
    Through (PebbleDB.flush fuel) w w' := by
  cases hstarts with
  | compact hne hrun hstarts =>
    rw [flush_eq]
    refine Through.bind (rfl : (get : OpM World) w = .ok w w) ?_
    rw [if_neg hne]
    exact .bind hrun (hstarts.through fuel)

theorem WriteStarts.through {record : WalRecord} {key : String} {entry : MemtableEntry}
    (hstarts : WriteStarts record key entry w w' job) (fuel : Nat) :
    Through (writeRecord fuel record key entry) w w' := by
  cases hstarts with
  | @flush w₁ _ _ hrun hfull hstarts =>
    rw [writeRecord_eq]
    refine Through.bind hrun (Through.bind (rfl : (get : OpM World) w₁ = .ok w₁ w₁) ?_)
    rw [if_pos hfull]
    exact hstarts.through fuel

theorem Call.Starts.through {call : Call} (hstarts : call.Starts w w' job) (fuel : Nat) :
    Through (call.run fuel) w w' := by
  cases hstarts with
  | set key value h => exact .map (h.through fuel)
  | delete key hread h =>
    refine .map ?_
    rw [PebbleDB.delete]
    refine Through.bind (rfl : (get : OpM World) w = .ok w w) ?_
    rw [hread]
    refine Through.bind (fromExcept_ok rfl w) ?_
    exact (h.through fuel).bind_left fun _ => .pure World.Frame.refl _
  | flush h => exact .map (h.through fuel)
  | compact h => exact .map (h.through fuel)
  | compactFull _ => exact .of_along (along_call fuel _) w

/-- A job of a call on a live handle starts on a live handle. -/
theorem Call.Starts.exists_live {call : Call} (hstarts : call.Starts w w' job) (h : Live m w)
    (hrecord : ∀ record ∈ call.record?, record.Fits) (hfits : w'.disk.Fits) :
    ∃ m', Live m' w' := by
  have hwrite : ∀ {record key entry}, call.record? = some record →
      (∀ memtable, replayRecord memtable record = memtable.insert key entry) →
      WriteStarts record key entry w w' job → ∃ m', Live m' w' := by
    intro record key entry heq hreplay hwrites
    cases hwrites with
    | flush hrun _ hflush =>
      have hframe := hflush.frame
      have hlive := (live_rules.log h (hrecord _ heq) hreplay).ok_of_eq hrun
        (hframe.disk.fits hfits)
      exact ⟨_, hflush.live hlive hfits⟩
  cases hstarts with
  | set key value hwrites => exact hwrite rfl (fun _ => rfl) hwrites
  | delete key _ hwrites => exact hwrite rfl (fun _ => rfl) hwrites
  | flush hflush => exact ⟨m, hflush.live h hfits⟩
  | compact hcompact => exact ⟨m, hcompact.live h hfits⟩
  | compactFull _ => exact ⟨m, h⟩

theorem Live.clear_of_step (h : Live m w) {step : Step} (hstep : step.From w)
    (hfits : step.world.disk.Fits) (hrecord : ∀ record ∈ step.call.record?, record.Fits) :
    ∀ w' job, step.call.Starts w w' job → ClearFor job w' := by
  intro w' job hstarts
  have hframe : w'.Frame step.world := by
    cases hstep with
    | returned fuel call existed w₁ hrun => exact (hstarts.through fuel).ok_of_eq hrun
    | failed fuel call e w₁ hrun =>
      exact ((hstarts.through fuel).exit_of_eq hrun).resolve_left (Exit.noConfusion ·)
  obtain ⟨m', hlive⟩ := hstarts.exists_live h hrecord (hframe.disk.fits hfits)
  exact hlive.clearFor job

/-- The condition is met by every run in which no call but the last fails. -/
theorem Live.clearRun (h : Live m w) {steps : List Step} (hrun : Run w steps)
    (hreturned : ∀ step ∈ steps.dropLast, ∃ existed, step.reply = .returned existed)
    (hfits : ∀ step ∈ steps, step.world.disk.Fits)
    (hrecords : ∀ step ∈ steps, ∀ record ∈ step.call.record?, record.Fits) :
    ClearRun w steps := by
  induction hrun generalizing m with
  | nil w => trivial
  | @cons w step steps hstep hsteps ih =>
    have hfits₁ := hfits step List.mem_cons_self
    have hrecord := hrecords step List.mem_cons_self
    refine ⟨h.clear_of_step hstep hfits₁ hrecord, ?_⟩
    cases hsteps with
    | nil => trivial
    | cons hnext hrest =>
      rw [List.dropLast_cons_cons] at hreturned
      cases hstep with
      | returned fuel call existed w₁ hrun =>
        have hlive := ((live_rules.wp_call fuel call hrecord h).ok_of_eq hrun hfits₁).2
        exact ih hlive (fun step hmem => hreturned step (List.mem_cons_of_mem _ hmem))
          (fun step hmem => hfits step (List.mem_cons_of_mem _ hmem))
          fun step hmem => hrecords step (List.mem_cons_of_mem _ hmem)
      | failed fuel call e w₁ hrun =>
        obtain ⟨existed, heq⟩ := hreturned _ List.mem_cons_self
        cases heq

/-- A write that leaves room in the memtable starts no job. -/
theorem not_writeStarts {record : WalRecord} {key : String} {entry : MemtableEntry}
    (hroom : (w.inner.memtable.insert key entry).size < w.inner.options.flushThreshold) :
    ¬ WriteStarts record key entry w w' job := by
  intro hstarts
  cases hstarts with
  | flush hrun hfull _ =>
    have hlogged := (wp_logRecord record key entry w).ok_of_eq hrun
    have hframe := (along_logRecord record key entry w).ok_of_eq hrun
    rw [hlogged.memtable, hframe.options] at hfull
    exact absurd hroom hfull.not_gt

theorem Run.append {steps steps' : List Step} (hrun : Run w steps)
    (hrun' : Run (w.behind steps) steps') : Run w (steps ++ steps') := by
  induction hrun with
  | nil w => exact hrun'
  | cons hstep _ ih => exact .cons hstep (ih hrun')

theorem ClearRun.append {steps steps' : List Step} (hclear : ClearRun w steps)
    (hclear' : ClearRun (w.behind steps) steps') : ClearRun w (steps ++ steps') := by
  induction steps generalizing w with
  | nil => exact hclear'
  | cons step steps ih => exact ⟨hclear.1, ih hclear.2 hclear'⟩

end Clear

/-! ## Trying calls -/

/-- The steps of these calls, if all of them come back. -/
def World.tryCalls [BloomSizing] (fuel : Nat) : World → List Call → Option (List Step)
  | _, [] => some []
  | w, call :: calls =>
    match call.run fuel w with
    | .ok existed w' => (w'.tryCalls fuel calls).map (⟨call, .returned existed, w'⟩ :: ·)
    | .error (.error e) w' => (w'.tryCalls fuel calls).map (⟨call, .failed e, w'⟩ :: ·)
    | .error _ _ => none

theorem run_of_tryCalls [BloomSizing] {fuel : Nat} {calls : List Call} {w : World}
    {steps : List Step} (h : w.tryCalls fuel calls = some steps) : Run w steps := by
  induction calls generalizing w steps with
  | nil =>
    cases h
    exact .nil w
  | cons call calls ih =>
    rw [World.tryCalls] at h
    split at h
    · obtain ⟨rest, hrest, rfl⟩ := Option.map_eq_some_iff.mp h
      exact .cons (.returned fuel call _ _ ‹_›) (ih hrest)
    · obtain ⟨rest, hrest, rfl⟩ := Option.map_eq_some_iff.mp h
      exact .cons (.failed fuel call _ _ ‹_›) (ih hrest)
    · cases h

theorem acknowledged_of_any {steps : List Step} {key : String} {value : Option String}
    {existed : Option Bool} (h : (lastWrite? key steps).any (fun step =>
      decide (step.reply = .returned existed ∧ step.call.write? = some (key, value))) = true) :
    Acknowledged steps key value := by
  obtain ⟨⟨call, reply, w⟩, hlast, htest⟩ := Option.any_eq_true _ _ |>.mp h
  obtain ⟨rfl, hwrite⟩ := of_decide_eq_true htest
  exact ⟨call, existed, w, hlast, hwrite⟩

/-- Two files of level zero are merged, and merging fails when the inputs are gone, each time. -/
def lateFailure : DbOptions :=
  { DbOptions.default with
    l0CompactionThreshold := 2
    fault := some ⟨.afterObsoleteFileDelete, 1, .error⟩ }

/-! ## Acknowledged writes -/

section Runs

variable [BloomSizing] {steps : List Step} {w : World}

/-- A handle `w`, as any run leaves it on a directory that was empty, is used on whatever calls fail.
If every job that the calls start finds a clear directory, the next opening has the result of every
key whose last write returned. -/
theorem run_keeps_acknowledged {disk : Disk} (hempty : disk.dir = ∅)
    (hfails : ∀ name, disk.unlinkFails name = false) {prior : List (Label × System)}
    (hprior : System.Run (.closed disk) prior) (hpriorFits : ∀ step ∈ prior, step.2.disk.Fits)
    (hpriorRecords : ∀ step ∈ prior, ∀ call ∈ step.1.call?, ∀ record ∈ call.record?, record.Fits)
    (hopened : (System.closed disk).behind prior = .opened w) (listing : Listing)
    (hrun : Run (w.under listing none) steps) (hfits : ∀ step ∈ steps, step.world.disk.Fits)
    (hrecords : ∀ step ∈ steps, ∀ record ∈ step.call.record?, record.Fits)
    (hclear : ClearRun (w.under listing none) steps) (options : DbOptions) (listing' : Listing) :
    ∃ db disk', openWithOptions options
        (((w.under listing none).behind steps).disk.under listing' none) = .ok db disk' ∧
      ∀ key value, Acknowledged steps key value → db.get key = .ok value := by
  have hsafe : (System.closed disk).Safe fun _ => none := ⟨durable_empty hempty, hfails⟩
  obtain ⟨m, hlive⟩ := hsafe.behind hprior hpriorFits hpriorRecords
  rw [hopened] at hlive
  have hlive' : Live m (w.under listing none) :=
    ⟨hlive.ready, hlive.answers, hlive.stands, hlive.fails⟩
  obtain ⟨dirty', m', hsettles, hrecoverable⟩ :=
    (hlive'.recoverable rfl).run hrun hfits hrecords hclear
  obtain ⟨db, disk', hopen, hget⟩ := hrecoverable.opens options listing'
  refine ⟨db, disk', hopen, fun key value hlast => ?_⟩
  obtain ⟨hkey, hvalue⟩ := hsettles.acknowledged key value hlast
  rw [hget key hkey, hvalue]

end Runs

/-- The second flush fails in the merge it starts. -/
def failedMerge : List Call := [.set "k" "v", .flush, .set "a" "x", .flush]

/-- A `delete` behind the merge that failed, on the same handle, is there in the next one. -/
theorem run_keeps_acknowledged_failedMerge : ∃ w steps existed w' db disk',
    @Run .ofSmall w (steps ++ [⟨.delete "k", .returned existed, w'⟩]) ∧
      steps.map Step.call = failedMerge ∧
      steps.map Step.reply = [.returned none, .returned none, .returned none,
        .failed (.injectedFault "after_obsolete_file_delete at hit 1")] ∧
      openWithOptions .default (w'.disk.under emptyDisk.listing none) = .ok db disk' ∧
      db.get "k" = .ok none := by
  let listing := emptyDisk.listing
  have hrun : check (openWithOptions lateFailure) (emptyDisk.under listing none) (fun db disk₁ =>
      decide disk₁.Fits &&
        (@World.tryCalls .ofSmall 3 (World.under ⟨db, disk₁⟩ listing none) failedMerge).any
          fun steps =>
            decide (∀ step ∈ steps, step.world.disk.Fits) &&
            decide (steps.map Step.call = failedMerge) &&
            decide (steps.map Step.reply = [.returned none, .returned none, .returned none,
              .failed (.injectedFault "after_obsolete_file_delete at hit 1")]) &&
            decide ((((World.under ⟨db, disk₁⟩ listing none).behind steps).inner.memtable.insert "k"
                .tombstone).size <
              ((World.under ⟨db, disk₁⟩ listing none).behind steps).inner.options.flushThreshold) &&
            check (@Call.run .ofSmall 3 (.delete "k"))
              ((World.under ⟨db, disk₁⟩ listing none).behind steps) fun _ w' =>
                decide w'.disk.Fits) = true := by
    decide +kernel
  obtain ⟨db₁, disk₁, hopen, htest⟩ := exists_of_check hrun
  obtain ⟨hfits₁, htest⟩ := Bool.and_eq_true_iff.mp htest
  obtain ⟨steps, hsteps, htest⟩ := (Option.any_eq_true _ _).mp htest
  simp only [Bool.and_eq_true, decide_eq_true_eq] at htest
  obtain ⟨⟨⟨⟨hfits, hcalls⟩, hreplies⟩, hroom⟩, hdelete⟩ := htest
  obtain ⟨existed, w', hdelete, hfits'⟩ := exists_of_check hdelete
  let _ : BloomSizing := .ofSmall
  -- the handle is live, and the merge that fails is the first
  have hprior : System.Run (.closed emptyDisk) [(.quiet, .opened ⟨db₁, disk₁⟩)] :=
    .cons (.opens _ _ _ _ _ _ hopen) (.nil _)
  have hpriorFits : ∀ step ∈ [(Label.quiet, System.opened ⟨db₁, disk₁⟩)], step.2.disk.Fits := by
    intro step hmem
    rw [List.mem_singleton.mp hmem]
    exact of_decide_eq_true hfits₁
  have hpriorRecords : ∀ step ∈ [(Label.quiet, System.opened ⟨db₁, disk₁⟩)],
      ∀ call ∈ step.1.call?, ∀ record ∈ call.record?, record.Fits := by
    simp [Label.call?]
  have hopened := (@Durable.wp_openWithOptions (emptyDisk.under listing none) _ (durable_empty rfl)
    (fun _ => rfl) lateFailure).ok_of_eq hopen
  have hlive : Live (fun _ => none) (World.under ⟨db₁, disk₁⟩ listing none) :=
    ⟨hopened.ready, hopened.answers, hopened.stands, hopened.fails⟩
  have hrecords : ∀ step ∈ steps, ∀ record ∈ step.call.record?, record.Fits := by
    have hall : ∀ call ∈ failedMerge, ∀ record ∈ call.record?, record.Fits := by decide
    exact fun step hmem => hall _ (hcalls ▸ List.mem_map_of_mem hmem)
  have hreturned : ∀ step ∈ steps.dropLast, ∃ existed, step.reply = .returned existed := by
    intro step hmem
    have hreply : step.reply ∈ steps.dropLast.map Step.reply := List.mem_map_of_mem hmem
    rw [List.map_dropLast, hreplies] at hreply
    exact ⟨none, by simpa using hreply⟩
  have hfirst := run_of_tryCalls hsteps
  have hclear := hlive.clearRun hfirst hreturned hfits hrecords
  -- the delete starts no job
  let last : Step := ⟨.delete "k", .returned existed, w'⟩
  have hclear' : ClearRun ((World.under ⟨db₁, disk₁⟩ listing none).behind steps) [last] := by
    refine ⟨fun w₁ job hstarts => ?_, trivial⟩
    cases hstarts with
    | delete _ _ hwrites => exact absurd hwrites (not_writeStarts hroom)
  have hrecord : ∀ record ∈ (Call.delete "k").record?, record.Fits := by decide
  have hrun' : Run _ (steps ++ [last]) :=
    hfirst.append (.cons (.returned 3 _ _ _ hdelete) (.nil _))
  obtain ⟨db, disk', hreopen, hget⟩ := run_keeps_acknowledged rfl (fun _ => rfl) hprior hpriorFits
    hpriorRecords rfl listing hrun'
    (List.forall_mem_append.mpr ⟨hfits, List.forall_mem_singleton.mpr (of_decide_eq_true hfits')⟩)
    (List.forall_mem_append.mpr ⟨hrecords, List.forall_mem_singleton.mpr hrecord⟩)
    (hclear.append hclear') .default listing
  rw [World.behind_append] at hreopen
  refine ⟨_, steps, existed, w', db, disk', hrun', hcalls, hreplies, hreopen, ?_⟩
  exact hget "k" none ⟨.delete "k", existed, w', by rw [lastWrite?, List.reverse_concat]; rfl, rfl⟩

/-! ## A delete undone -/

/-- The second and the third flush fail in the merge they start. The later merge drops the tombstone,
and does not know the output of the earlier one. -/
def undoneDelete : List Call := [.set "k" "v", .flush, .set "a" "x", .flush, .delete "k", .flush]

/-- The `delete` has been acknowledged, and the handle answers that the key is gone. It is back when
the directory is opened again, without a fault. -/
theorem not_run_keeps_acknowledged : ∃ db disk₁ steps db' disk',
    openWithOptions lateFailure emptyDisk = .ok db disk₁ ∧
      @Run .ofSmall ⟨db, disk₁⟩ steps ∧ (∀ step ∈ steps, step.world.disk.Fits) ∧
      steps.map Step.call = undoneDelete ∧
      steps.map Step.reply = [.returned none, .returned none, .returned none,
        .failed (.injectedFault "after_obsolete_file_delete at hit 1"), .returned (some true),
        .failed (.injectedFault "after_obsolete_file_delete at hit 2")] ∧
      Acknowledged steps "k" none ∧
      ((World.mk db disk₁).behind steps).inner.get "k" = .ok none ∧
      openWithOptions .default ((World.mk db disk₁).behind steps).disk = .ok db' disk' ∧
      db'.get "k" = .ok (some "v") := by
  have hrun : check (openWithOptions lateFailure) emptyDisk (fun db disk₁ =>
      (@World.tryCalls .ofSmall 3 ⟨db, disk₁⟩ undoneDelete).any fun steps =>
        decide (∀ step ∈ steps, step.world.disk.Fits) &&
        decide (steps.map Step.call = undoneDelete) &&
        decide (steps.map Step.reply = [.returned none, .returned none, .returned none,
          .failed (.injectedFault "after_obsolete_file_delete at hit 1"), .returned (some true),
          .failed (.injectedFault "after_obsolete_file_delete at hit 2")]) &&
        (lastWrite? "k" steps).any (fun step => decide
          (step.reply = .returned (some true) ∧ step.call.write? = some ("k", none))) &&
        decide (((World.mk db disk₁).behind steps).inner.get "k" = .ok none) &&
        check (openWithOptions .default) ((World.mk db disk₁).behind steps).disk
          (fun db' _ => decide (db'.get "k" = .ok (some "v")))) = true := by
    decide +kernel
  obtain ⟨db, disk₁, hopen, htest⟩ := exists_of_check hrun
  obtain ⟨steps, hsteps, htest⟩ := (Option.any_eq_true _ _).mp htest
  simp only [Bool.and_eq_true, decide_eq_true_eq] at htest
  obtain ⟨⟨⟨⟨⟨hfits, hcalls⟩, hreplies⟩, hlast⟩, hget⟩, hreopen⟩ := htest
  obtain ⟨db', disk', hreopen, hget'⟩ := exists_of_check hreopen
  exact ⟨db, disk₁, steps, db', disk', hopen, @run_of_tryCalls .ofSmall _ _ _ _ hsteps, hfits,
    hcalls, hreplies, acknowledged_of_any hlast, hget, hreopen, of_decide_eq_true hget'⟩

end PebbleDB
