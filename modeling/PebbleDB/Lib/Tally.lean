import Mathlib.Algebra.BigOperators.Group.Finset.Basic
import PebbleDB.Lib.Interleaving

/-!
# Programs that keep a tally

A program notes amounts in a shared tally while it makes its requests. The notes change nothing about
the requests: with the notes left out a run is a run of the plain programs (`Run.erased`). At any time
the tally is the sum of what all threads have noted (`Run.tally_eq`), and what a thread has noted is
known from its result where a note is the last thing it does (`Closing.noted_of_resumes`).
-/

namespace Interleaving

variable {Req : Type} {Ans : Req → Type} {α β σ ι κ M : Type}

/-- A request, or an amount for the tally. -/
inductive Noting (Req M : Type) where
  | ask (req : Req)
  | note (amount : M)

/-- A note has no answer of its own. -/
abbrev Noting.Answer (Ans : Req → Type) : Noting Req M → Type
  | ask req => Ans req
  | note _ => Unit

/-- A computation that asks and notes amounts. -/
abbrev NotingProgram (M : Type) (Ans : Req → Type) := Program (Noting Req M) (Noting.Answer Ans)

namespace Program

/-- The program with its notes left out. -/
def erase : NotingProgram M Ans α → Program Req Ans α
  | .done a => .done a
  | .ask (.ask req) next => .ask req fun answer => (next answer).erase
  | .ask (.note _) next => (next ()).erase

/-- A program that notes nothing. -/
def unnoted : Program Req Ans α → NotingProgram M Ans α
  | .done a => .done a
  | .ask req next => .ask (.ask req) fun answer => (next answer).unnoted

/-- A computation that notes this amount. -/
def note (amount : M) : NotingProgram M Ans Unit := .ask (.note amount) fun _ => .done ()

@[simp] theorem erase_unnoted (p : Program Req Ans α) :
    (p.unnoted : NotingProgram M Ans α).erase = p := by
  induction p with
  | done a => rfl
  | ask req next ih =>
    simp only [unnoted, erase]
    congr 1
    funext answer
    exact ih answer

theorem erase_bind (p : NotingProgram M Ans α) (f : α → NotingProgram M Ans β) :
    (p.bind f).erase = p.erase.bind fun a => (f a).erase := by
  induction p with
  | done a => rfl
  | ask req next ih =>
    cases req with
    | ask req =>
      simp only [bind, erase]
      congr 1
      funext answer
      exact ih answer
    | note amount => exact ih ()

theorem erase_map (p : NotingProgram M Ans α) (g : α → β) : (p.map g).erase = p.erase.map g := by
  simp only [map, erase_bind, erase]

end Program

/-- The answers other than to notes. -/
def unnotedHistory : List (Exchange (Noting Req M) (Noting.Answer Ans)) → List (Exchange Req Ans)
  | [] => []
  | ⟨.ask req, answer⟩ :: history => ⟨req, answer⟩ :: unnotedHistory history
  | ⟨.note _, _⟩ :: history => unnotedHistory history

theorem unnotedHistory_append (history later : List (Exchange (Noting Req M) (Noting.Answer Ans))) :
    unnotedHistory (history ++ later) = unnotedHistory history ++ unnotedHistory later := by
  induction history with
  | nil => rfl
  | cons x history ih =>
    obtain ⟨req, answer⟩ := x
    cases req with
    | ask req => simp only [List.cons_append, unnotedHistory, ih]
    | note amount => simp only [List.cons_append, unnotedHistory, ih]

/-- A server with a tally. -/
structure Tallied (σ M : Type) where
  server : σ
  tally : M

section Server

variable [AddCommMonoid M]

/-- The server answers requests, and the notes are added up. -/
inductive Tallies (serves : σ → (req : Req) → Ans req → σ → Prop) (s : Tallied σ M) :
    (req : Noting Req M) → Noting.Answer Ans req → Tallied σ M → Prop where
  | ask {req : Req} {answer : Ans req} {t : σ} (h : serves s.server req answer t) :
      Tallies serves s (.ask req) answer { s with server := t }
  | note (amount : M) : Tallies serves s (.note amount) () { s with tally := s.tally + amount }

/-- The environment does not touch the tally. -/
def TalliedEnv (env : σ → σ → Prop) (s s' : Tallied σ M) : Prop :=
  s'.tally = s.tally ∧ env s.server s'.server

/-- The sum of the notes. -/
def noted : List (Exchange (Noting Req M) (Noting.Answer Ans)) → M
  | [] => 0
  | ⟨.ask _, _⟩ :: history => noted history
  | ⟨.note amount, _⟩ :: history => amount + noted history

theorem noted_append (history later : List (Exchange (Noting Req M) (Noting.Answer Ans))) :
    noted (history ++ later) = noted history + noted later := by
  induction history with
  | nil => simp [noted]
  | cons x history ih =>
    obtain ⟨req, answer⟩ := x
    cases req with
    | ask req => simp only [List.cons_append, noted, ih]
    | note amount => simp only [List.cons_append, noted, ih, add_assoc]

/-- What a thread has noted so far. -/
def Thread.noted (t : Option (Thread κ (Noting Req M) (Noting.Answer Ans) α)) : M :=
  t.elim 0 fun t => Interleaving.noted t.history

end Server

/-! ## The tally is the sum of the notes -/

section Runs

variable [DecidableEq ι] [AddCommMonoid M] {prog : κ → NotingProgram M Ans α}
  {serves : σ → (req : Req) → Ans req → σ → Prop} {env : σ → σ → Prop}
  {allowed : Pool (Tallied σ M) ι κ (Noting Req M) (Noting.Answer Ans) α →
    Event ι κ (Noting Req M) (Noting.Answer Ans) → Prop}
  {p q : Pool (Tallied σ M) ι κ (Noting Req M) (Noting.Answer Ans) α}
  {e : Event ι κ (Noting Req M) (Noting.Answer Ans)}

theorem sum_put {s : Finset ι} {i : ι} (hi : i ∈ s) {amount : M}
    {t : Thread κ (Noting Req M) (Noting.Answer Ans) α} {shared : Tallied σ M}
    (hnoted : Thread.noted (some t) = Thread.noted (p.thread i) + amount) :
    ∑ j ∈ s, Thread.noted ((p.put i t shared).thread j) =
      ∑ j ∈ s, Thread.noted (p.thread j) + amount := by
  have hrest : ∑ j ∈ s.erase i, Thread.noted ((p.put i t shared).thread j) =
      ∑ j ∈ s.erase i, Thread.noted (p.thread j) := by
    refine Finset.sum_congr rfl fun j hj => ?_
    rw [Pool.put_thread_of_ne _ (Finset.ne_of_mem_erase hj)]
  rw [← Finset.add_sum_erase s _ hi, ← Finset.add_sum_erase s _ hi, hrest, Pool.put_thread_self,
    hnoted, add_assoc, add_assoc, add_comm amount]

/-- A step adds to the tally what its thread notes. -/
theorem Step.tally_eq (h : Step prog (Tallies serves) (TalliedEnv env) p e q) {s : Finset ι}
    (hs : ∀ i t, q.thread i = some t → i ∈ s) {start : M}
    (htally : p.shared.tally = start + ∑ i ∈ s, Thread.noted (p.thread i)) :
    q.shared.tally = start + ∑ i ∈ s, Thread.noted (q.thread i) := by
  cases h with
  | @start i call hfree =>
    have hi : i ∈ s := hs i _ (Pool.put_thread_self _ _ _ _)
    rw [sum_put hi (show _ = _ + (0 : M) by rw [hfree]; simp [Thread.noted, noted]), add_zero]
    exact htally
  | @answer i call history req next answer shared hthread hserves =>
    have hi : i ∈ s := hs i _ (Pool.put_thread_self _ _ _ _)
    have hnoted : Thread.noted (some (⟨call, history ++ [⟨req, answer⟩], next answer⟩ :
        Thread κ (Noting Req M) (Noting.Answer Ans) α)) =
        Thread.noted (p.thread i) + noted [⟨req, answer⟩] := by
      rw [hthread]
      exact noted_append history _
    rw [sum_put hi hnoted, ← add_assoc, ← htally]
    cases hserves with
    | ask hserves => simp [noted]
    | note amount => simp [noted]
  | environment henv =>
    rw [← htally]
    exact henv.1

/-- The tally is the sum of what all threads have noted. -/
theorem Run.tally_eq (h : Run prog (Tallies serves) (TalliedEnv env) allowed p q)
    (hnone : ∀ i, p.thread i = none) {s : Finset ι} (hs : ∀ i t, q.thread i = some t → i ∈ s) :
    q.shared.tally = p.shared.tally + ∑ i ∈ s, Thread.noted (q.thread i) := by
  induction h with
  | refl => simp [hnone, Thread.noted]
  | step _ hstep _ ih =>
    refine hstep.tally_eq hs (ih fun i t ht => ?_)
    obtain ⟨t', ht', -⟩ := hstep.thread_of_some ht
    exact hs i t' ht'

end Runs

/-! ## What a thread has noted -/

section Closing

variable [AddCommMonoid M] {closes : List (Exchange Req Ans) → α → M → Prop}

/-- The last request of the program may be a note, and no other one is. What it closes with may depend
on the answers it has got. -/
def Closing (closes : List (Exchange Req Ans) → α → M → Prop) : NotingProgram M Ans α → Prop
  | .done a => closes [] a 0
  | .ask (.ask req) next => ∀ answer,
      Closing (fun history => closes (⟨req, answer⟩ :: history)) (next answer)
  | .ask (.note amount) next => ∃ a, next () = .done a ∧ closes [] a amount

theorem Closing.unnoted_bind {p : Program Req Ans β} {f : β → NotingProgram M Ans α}
    (hf : ∀ history b, p.Resumes history (.done b) →
      Closing (fun later => closes (history ++ later)) (f b)) :
    Closing closes ((p.unnoted : NotingProgram M Ans β).bind f) := by
  induction p generalizing closes with
  | done b => exact hf [] b (.start _)
  | ask req next ih =>
    intro answer
    exact ih answer fun history b h => hf (⟨req, answer⟩ :: history) b (.answered h)

theorem Closing.map {closes' : List (Exchange Req Ans) → β → M → Prop} {g : α → β}
    {p : NotingProgram M Ans α}
    (hcloses : ∀ history a amount, closes history a amount → closes' history (g a) amount)
    (h : Closing closes p) : Closing closes' (p.map g) := by
  induction p generalizing closes closes' with
  | done a => exact hcloses [] a 0 h
  | ask req next ih =>
    cases req with
    | ask req => exact fun answer => ih answer (fun history => hcloses _) (h answer)
    | note amount =>
      obtain ⟨a, ha, hclosed⟩ := h
      refine ⟨g a, ?_, hcloses [] a amount hclosed⟩
      show (next ()).map g = .done (g a)
      rw [ha]
      rfl

/-- Only a thread that has come to its end has noted something. -/
theorem Closing.noted_of_resumes {p rest : NotingProgram M Ans α}
    {history : List (Exchange (Noting Req M) (Noting.Answer Ans))} (h : Closing closes p)
    (hresumes : p.Resumes history rest) :
    (∀ a, rest = .done a → closes (unnotedHistory history) a (noted history)) ∧
      ((∀ a, rest ≠ .done a) → noted history = 0) := by
  induction hresumes generalizing closes with
  | start p =>
    refine ⟨?_, fun _ => rfl⟩
    rintro a rfl
    exact h
  | @answered req next answer history rest hrest ih =>
    cases req with
    | ask req => exact ih (h answer)
    | note amount =>
      obtain ⟨b, hb, hclosed⟩ := h
      have hend : (Program.done b : NotingProgram M Ans α).Resumes history rest := hb ▸ hrest
      obtain ⟨rfl, rfl⟩ := hend.of_done
      refine ⟨?_, fun hne => absurd rfl (hne b)⟩
      intro a ha
      obtain rfl := Program.done.inj ha
      simpa [noted, unnotedHistory] using hclosed

end Closing

/-! ## The notes left out -/

/-- The thread with its notes left out. -/
def Thread.erase (t : Thread κ (Noting Req M) (Noting.Answer Ans) α) : Thread κ Req Ans α :=
  ⟨t.call, unnotedHistory t.history, t.rest.erase⟩

/-- The pool without its notes. -/
def Pool.erase (p : Pool (Tallied σ M) ι κ (Noting Req M) (Noting.Answer Ans) α) :
    Pool σ ι κ Req Ans α := ⟨p.shared.server, fun i => (p.thread i).map Thread.erase⟩

section Erasure

variable [DecidableEq ι] [AddCommMonoid M] {prog : κ → NotingProgram M Ans α}
  {serves : σ → (req : Req) → Ans req → σ → Prop} {env : σ → σ → Prop}
  {allowed : Pool (Tallied σ M) ι κ (Noting Req M) (Noting.Answer Ans) α →
    Event ι κ (Noting Req M) (Noting.Answer Ans) → Prop}
  {p q : Pool (Tallied σ M) ι κ (Noting Req M) (Noting.Answer Ans) α}
  {e : Event ι κ (Noting Req M) (Noting.Answer Ans)}

omit [AddCommMonoid M] in
theorem Pool.erase_put (p : Pool (Tallied σ M) ι κ (Noting Req M) (Noting.Answer Ans) α) (i : ι)
    (t : Thread κ (Noting Req M) (Noting.Answer Ans) α) (shared : Tallied σ M) :
    (p.put i t shared).erase = p.erase.put i t.erase shared.server := by
  simp only [Pool.erase, Pool.put, Pool.mk.injEq, true_and]
  funext j
  by_cases hj : j = i
  · subst hj
    simp
  · simp [Function.update_of_ne hj]

/-- A note is no step of the plain programs. -/
theorem Step.erased (h : Step prog (Tallies serves) (TalliedEnv env) p e q) :
    (∃ e', Step (fun call => (prog call).erase) serves env p.erase e' q.erase) ∨
      q.erase = p.erase := by
  cases h with
  | @start i call hfree =>
    left
    refine ⟨.start i call, ?_⟩
    rw [Pool.erase_put]
    exact .start call (by simp [Pool.erase, hfree])
  | @answer i call history req next answer shared hthread hserves =>
    rw [Pool.erase_put]
    have hold : p.erase.thread i =
        some ⟨call, unnotedHistory history, (Program.ask req next).erase⟩ := by
      simp [Pool.erase, hthread, Thread.erase]
    cases hserves with
    | @ask req answer shared hserves =>
      left
      refine ⟨.answer i req answer, ?_⟩
      rw [Thread.erase, unnotedHistory_append]
      exact .answer hold hserves
    | note amount =>
      right
      have hself : (⟨call, history ++ [⟨.note amount, ()⟩], next ()⟩ :
          Thread κ (Noting Req M) (Noting.Answer Ans) α).erase =
          ⟨call, unnotedHistory history, (Program.ask (.note amount) next).erase⟩ := by
        simp [Thread.erase, unnotedHistory_append, unnotedHistory, Program.erase]
      rw [hself, Pool.put, ← hold, Function.update_eq_self]
      rfl
  | environment henv => exact Or.inl ⟨.environment, .environment henv.2⟩

/-- With its notes left out a run is a run of the plain programs. -/
theorem Run.erased (h : Run prog (Tallies serves) (TalliedEnv env) allowed p q) :
    Run (fun call => (prog call).erase) serves env (fun _ _ => True) p.erase q.erase := by
  induction h with
  | refl => exact .refl _
  | step _ hstep _ ih =>
    rcases hstep.erased with ⟨e', hstep'⟩ | hsame
    · exact ih.step hstep' trivial
    · rw [hsame]
      exact ih

end Erasure

end Interleaving
