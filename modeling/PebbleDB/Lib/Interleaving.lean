import Mathlib.Logic.Function.Basic
import Mathlib.Tactic.Common

/-!
# Programs over a shared server

A program makes requests and goes on with the answers. Alone it runs from one state of the server
to another (`Program.Runs`). In a pool any number of programs run at the same time: each step is
one request of one of them, a start, or a step of the environment (`Step`). Where a thread stands
follows from what it has been answered (`Run.resumed`); an invariant that every step keeps holds
along a run (`Run.invariant`).
-/

namespace Interleaving

/-- A computation that asks a server for one answer after the other. -/
inductive Program (Req : Type) (Ans : Req → Type) (α : Type) : Type where
  | done (a : α)
  | ask (req : Req) (next : Ans req → Program Req Ans α)

/-- A request and the answer it got. -/
abbrev Exchange (Req : Type) (Ans : Req → Type) := (req : Req) × Ans req

variable {Req : Type} {Ans : Req → Type} {α β σ ι κ : Type}

namespace Program

/-- One computation behind another. -/
def bind : Program Req Ans α → (α → Program Req Ans β) → Program Req Ans β
  | done a, f => f a
  | ask req next, f => ask req fun answer => (next answer).bind f

/-- The result passed through a function. -/
def map (g : α → β) (p : Program Req Ans α) : Program Req Ans β := p.bind fun a => done (g a)

theorem bind_done (p : Program Req Ans α) : p.bind done = p := by
  induction p with
  | done a => rfl
  | ask req next ih =>
    simp only [bind]
    congr 1
    funext answer
    exact ih answer

instance : Monad (Program Req Ans) where
  pure := done
  bind := bind

/-- The program that makes one request. -/
def request (req : Req) : Program Req Ans (Ans req) := ask req done

/-- Run alone: the server may answer a request so and be in that state afterwards. -/
inductive Runs (serves : σ → (req : Req) → Ans req → σ → Prop) :
    Program Req Ans α → σ → α → σ → Prop where
  | done (a : α) (s : σ) : Runs serves (.done a) s a s
  | ask {req : Req} {next : Ans req → Program Req Ans α} {answer : Ans req} {s t u : σ} {a : α}
      (hserves : serves s req answer t) (h : Runs serves (next answer) t a u) :
      Runs serves (.ask req next) s a u

section Runs

variable {serves : σ → (req : Req) → Ans req → σ → Prop} {p : Program Req Ans α} {s u : σ}
  {a b : α}

theorem Runs.of_done (h : Runs serves (.done a) s b u) : b = a ∧ u = s := by
  cases h
  exact ⟨rfl, rfl⟩

theorem Runs.of_ask {req : Req} {next : Ans req → Program Req Ans α}
    (h : Runs serves (.ask req next) s a u) :
    ∃ answer t, serves s req answer t ∧ Runs serves (next answer) t a u := by
  cases h with
  | ask hserves h => exact ⟨_, _, hserves, h⟩

theorem Runs.map (h : Runs serves p s a u) (g : α → β) : Runs serves (p.map g) s (g a) u := by
  induction h with
  | done a s => exact .done _ _
  | ask hserves _ ih => exact .ask hserves ih

theorem Runs.of_map {g : α → β} {b : β} (h : Runs serves (p.map g) s b u) :
    ∃ a, Runs serves p s a u ∧ b = g a := by
  induction p generalizing s with
  | done a =>
    obtain ⟨rfl, rfl⟩ := h.of_done
    exact ⟨a, .done a _, rfl⟩
  | ask req next ih =>
    obtain ⟨answer, t, hserves, hrest⟩ := h.of_ask
    obtain ⟨a, ha, hb⟩ := ih answer hrest
    exact ⟨a, .ask hserves ha, hb⟩

theorem Runs.mono {serves' : σ → (req : Req) → Ans req → σ → Prop}
    (hsub : ∀ s req answer t, serves s req answer t → serves' s req answer t)
    (h : Runs serves p s a u) : Runs serves' p s a u := by
  induction h with
  | done a s => exact .done a s
  | ask hserves _ ih => exact .ask (hsub _ _ _ _ hserves) ih

/-- The server goes from `s` to `t` along the requests of a run, and can be followed by another one
that is related to it in all states from which the run goes on to its end. -/
theorem Runs.simulate {τ : Type} {serves' : τ → (req : Req) → Ans req → τ → Prop} {R : σ → τ → Prop}
    {E : σ → Prop} (hback : ∀ s req answer t, serves s req answer t → E t → E s)
    (hstep : ∀ s x req answer t, R s x → E t → serves s req answer t →
      ∃ y, serves' x req answer y ∧ R t y)
    (h : Runs serves p s a u) (hend : E u) :
    E s ∧ ∀ x, R s x → ∃ y, Runs serves' p x a y ∧ R u y := by
  induction h with
  | done a s => exact ⟨hend, fun x hx => ⟨x, .done a x, hx⟩⟩
  | ask hserves _ ih =>
    obtain ⟨hends, hrest⟩ := ih hend
    refine ⟨hback _ _ _ _ hserves hends, fun x hx => ?_⟩
    obtain ⟨y, hy, hRy⟩ := hstep _ _ _ _ _ hx hends hserves
    obtain ⟨z, hz, hRz⟩ := hrest y hRy
    exact ⟨z, .ask hy hz, hRz⟩

end Runs

/-- Run alone up to a request in which it is cut off, and what the server has come to then. -/
inductive Cut {τ : Type} (serves : σ → (req : Req) → Ans req → σ → Prop) (cuts : σ → Req → τ → Prop) :
    Program Req Ans α → σ → τ → Prop where
  | here {req : Req} {next : Ans req → Program Req Ans α} {s : σ} {t : τ} (hcuts : cuts s req t) :
      Cut serves cuts (.ask req next) s t
  | later {req : Req} {next : Ans req → Program Req Ans α} {answer : Ans req} {s u : σ} {t : τ}
      (hserves : serves s req answer u) (h : Cut serves cuts (next answer) u t) :
      Cut serves cuts (.ask req next) s t

section Cut

variable {τ : Type} {serves : σ → (req : Req) → Ans req → σ → Prop} {cuts : σ → Req → τ → Prop}
  {p : Program Req Ans α} {s : σ} {t : τ}

theorem Cut.of_done {a : α} (h : Cut serves cuts (.done a : Program Req Ans α) s t) : False := by
  cases h

theorem Cut.of_ask {req : Req} {next : Ans req → Program Req Ans α}
    (h : Cut serves cuts (.ask req next) s t) :
    cuts s req t ∨ ∃ answer u, serves s req answer u ∧ Cut serves cuts (next answer) u t := by
  cases h with
  | here hcuts => exact Or.inl hcuts
  | later hserves h => exact Or.inr ⟨_, _, hserves, h⟩

theorem Cut.map (h : Cut serves cuts p s t) (g : α → β) : Cut serves cuts (p.map g) s t := by
  induction h with
  | here hcuts => exact .here hcuts
  | later hserves _ ih => exact .later hserves ih

theorem Cut.of_map {g : α → β} (h : Cut serves cuts (p.map g) s t) : Cut serves cuts p s t := by
  induction p generalizing s with
  | done a => exact h.of_done.elim
  | ask req next ih =>
    rcases h.of_ask with hcuts | ⟨answer, u, hserves, hrest⟩
    · exact .here hcuts
    · exact .later hserves (ih answer hrest)

/-- Another server that is related to this one is cut off as well. -/
theorem Cut.simulate {υ ω : Type} {serves' : υ → (req : Req) → Ans req → υ → Prop}
    {cuts' : υ → Req → ω → Prop} {R : σ → υ → Prop} {Q : τ → ω → Prop}
    (hstep : ∀ s x req answer t, R s x → serves s req answer t →
      ∃ y, serves' x req answer y ∧ R t y)
    (hcut : ∀ s x req t, R s x → cuts s req t → ∃ y, cuts' x req y ∧ Q t y)
    (h : Cut serves cuts p s t) {x : υ} (hx : R s x) : ∃ y, Cut serves' cuts' p x y ∧ Q t y := by
  induction h generalizing x with
  | here hcuts =>
    obtain ⟨y, hy, hQ⟩ := hcut _ _ _ _ hx hcuts
    exact ⟨y, .here hy, hQ⟩
  | later hserves _ ih =>
    obtain ⟨z, hz, hR⟩ := hstep _ _ _ _ _ hx hserves
    obtain ⟨y, hy, hQ⟩ := ih hR
    exact ⟨y, .later hz hy, hQ⟩

end Cut

/-- Every request the program can make is of this kind. -/
def Asks (P : Req → Prop) : Program Req Ans α → Prop
  | done _ => True
  | ask req next => P req ∧ ∀ answer, (next answer).Asks P

theorem Asks.map {P : Req → Prop} {p : Program Req Ans α} (h : p.Asks P) (g : α → β) :
    (p.map g).Asks P := by
  induction p with
  | done a => trivial
  | ask req next ih => exact ⟨h.1, fun answer => ih answer (h.2 answer)⟩

/-- What all these requests preserve, a run of the program preserves. -/
theorem Asks.preserves {P : Req → Prop} {serves : σ → (req : Req) → Ans req → σ → Prop}
    {I : σ → Prop} (hI : ∀ s req answer t, P req → serves s req answer t → I s → I t)
    {p : Program Req Ans α} (hasks : p.Asks P) {s u : σ} {a : α} (h : Runs serves p s a u)
    (hs : I s) : I u := by
  induction h with
  | done a s => exact hs
  | ask hserves _ ih => exact ih (hasks.2 _) (hI _ _ _ _ hasks.1 hserves hs)

/-- What is left of a program after these answers. -/
inductive Resumes : Program Req Ans α → List (Exchange Req Ans) → Program Req Ans α → Prop where
  | start (p : Program Req Ans α) : Resumes p [] p
  | answered {req : Req} {next : Ans req → Program Req Ans α} {answer : Ans req}
      {history : List (Exchange Req Ans)} {rest : Program Req Ans α}
      (h : Resumes (next answer) history rest) :
      Resumes (.ask req next) (⟨req, answer⟩ :: history) rest

theorem Asks.of_resumes {P : Req → Prop} {p rest : Program Req Ans α} (hasks : p.Asks P)
    {history : List (Exchange Req Ans)} (h : p.Resumes history rest) : rest.Asks P := by
  induction h with
  | start p => exact hasks
  | answered _ ih => exact ih (hasks.2 _)

theorem Resumes.snoc {p : Program Req Ans α} {history : List (Exchange Req Ans)} {req : Req}
    {next : Ans req → Program Req Ans α} (h : Resumes p history (.ask req next))
    (answer : Ans req) : Resumes p (history ++ [⟨req, answer⟩]) (next answer) := by
  generalize hrest : Program.ask req next = rest at h
  induction h with
  | start p =>
    subst hrest
    exact .answered (.start _)
  | answered _ ih => exact .answered (ih hrest)

theorem map_eq_done {g : α → β} {p : Program Req Ans α} {b : β} (h : p.map g = .done b) :
    ∃ a, p = .done a ∧ g a = b := by
  cases p with
  | done a => exact ⟨a, rfl, Program.done.inj h⟩
  | ask req next => cases h

theorem map_eq_ask {g : α → β} {p : Program Req Ans α} {req : Req}
    {next : Ans req → Program Req Ans β} (h : p.map g = .ask req next) :
    ∃ next', p = .ask req next' ∧ next = fun answer => (next' answer).map g := by
  cases p with
  | done a => cases h
  | ask req' next' =>
    obtain ⟨rfl, hnext⟩ := Program.ask.inj h
    exact ⟨next', rfl, (eq_of_heq hnext).symm⟩

theorem Resumes.of_map {g : α → β} {p : Program Req Ans α} {history : List (Exchange Req Ans)}
    {rest : Program Req Ans β} (h : (p.map g).Resumes history rest) :
    ∃ rest', p.Resumes history rest' ∧ rest = rest'.map g := by
  generalize hq : p.map g = q at h
  induction h generalizing p with
  | start q => exact ⟨p, .start p, hq.symm⟩
  | answered h ih =>
    obtain ⟨next', rfl, rfl⟩ := map_eq_ask hq
    obtain ⟨rest', hrest', rfl⟩ := ih rfl
    exact ⟨rest', .answered hrest', rfl⟩

theorem Resumes.of_map_done {g : α → β} {p : Program Req Ans α} {history : List (Exchange Req Ans)}
    {b : β} (h : (p.map g).Resumes history (.done b)) :
    ∃ a, p.Resumes history (.done a) ∧ g a = b := by
  obtain ⟨rest, hrest, heq⟩ := h.of_map
  obtain ⟨a, rfl, ha⟩ := map_eq_done heq.symm
  exact ⟨a, hrest, ha⟩

/-- Where a program is that has been answered: it was at a request, and went on from there. -/
theorem Resumes.of_ask {req : Req} {next : Ans req → Program Req Ans α}
    {history : List (Exchange Req Ans)} {rest : Program Req Ans α}
    (h : (Program.ask req next).Resumes history rest) :
    (history = [] ∧ rest = .ask req next) ∨
    ∃ answer later, history = ⟨req, answer⟩ :: later ∧ (next answer).Resumes later rest := by
  cases h with
  | start => exact Or.inl ⟨rfl, rfl⟩
  | answered h => exact Or.inr ⟨_, _, rfl, h⟩

theorem Resumes.of_done {a : α} {history : List (Exchange Req Ans)} {rest : Program Req Ans α}
    (h : (Program.done a).Resumes history rest) : history = [] ∧ rest = .done a := by
  cases h
  exact ⟨rfl, rfl⟩

end Program

/-- A call in execution. -/
structure Thread (κ Req : Type) (Ans : Req → Type) (α : Type) where
  call : κ
  history : List (Exchange Req Ans)
  rest : Program Req Ans α

/-- A shared state, and for each thread the call that it is in, if any. -/
structure Pool (σ ι κ Req : Type) (Ans : Req → Type) (α : Type) where
  shared : σ
  thread : ι → Option (Thread κ Req Ans α)

/-- The pool after one of its threads has come here, and the server with it. -/
def Pool.put [DecidableEq ι] (p : Pool σ ι κ Req Ans α) (i : ι) (t : Thread κ Req Ans α)
    (shared : σ) : Pool σ ι κ Req Ans α := ⟨shared, Function.update p.thread i (some t)⟩

/-- One step of an interleaving. -/
inductive Event (ι κ Req : Type) (Ans : Req → Type) where
  | start (i : ι) (call : κ)
  | answer (i : ι) (req : Req) (answer : Ans req)
  | environment

section Steps

variable [DecidableEq ι] {prog : κ → Program Req Ans α}
  {serves : σ → (req : Req) → Ans req → σ → Prop} {env : σ → σ → Prop}

@[simp] theorem Pool.put_shared (p : Pool σ ι κ Req Ans α) (i : ι) (t : Thread κ Req Ans α)
    (shared : σ) : (p.put i t shared).shared = shared := rfl

@[simp] theorem Pool.put_thread_self (p : Pool σ ι κ Req Ans α) (i : ι) (t : Thread κ Req Ans α)
    (shared : σ) : (p.put i t shared).thread i = some t := Function.update_self _ _ _

theorem Pool.put_thread_of_ne (p : Pool σ ι κ Req Ans α) {i j : ι} (hij : i ≠ j)
    (t : Thread κ Req Ans α) (shared : σ) : (p.put j t shared).thread i = p.thread i :=
  Function.update_of_ne hij _ _

/-- One step of a pool. -/
inductive Step (prog : κ → Program Req Ans α) (serves : σ → (req : Req) → Ans req → σ → Prop)
    (env : σ → σ → Prop) :
    Pool σ ι κ Req Ans α → Event ι κ Req Ans → Pool σ ι κ Req Ans α → Prop where
  | start {p : Pool σ ι κ Req Ans α} {i : ι} (call : κ) (hfree : p.thread i = none) :
      Step prog serves env p (.start i call) (p.put i ⟨call, [], prog call⟩ p.shared)
  | answer {p : Pool σ ι κ Req Ans α} {i : ι} {call : κ} {history : List (Exchange Req Ans)}
      {req : Req} {next : Ans req → Program Req Ans α} {answer : Ans req} {shared : σ}
      (hthread : p.thread i = some ⟨call, history, .ask req next⟩)
      (hserves : serves p.shared req answer shared) :
      Step prog serves env p (.answer i req answer)
        (p.put i ⟨call, history ++ [⟨req, answer⟩], next answer⟩ shared)
  | environment {p : Pool σ ι κ Req Ans α} {shared : σ} (henv : env p.shared shared) :
      Step prog serves env p .environment { p with shared }

theorem Step.of_start {p q : Pool σ ι κ Req Ans α} {i : ι} {call : κ}
    (h : Step prog serves env p (.start i call) q) :
    p.thread i = none ∧ q = p.put i ⟨call, [], prog call⟩ p.shared := by
  cases h with
  | start call hfree => exact ⟨hfree, rfl⟩

theorem Step.of_ask {p : Pool σ ι κ Req Ans α} {i : ι} {t : Thread κ Req Ans α} {req : Req}
    {next : Ans req → Program Req Ans α} {answer : Ans req} {shared : σ}
    (ht : p.thread i = some t) (hrest : t.rest = .ask req next)
    (hserves : serves p.shared req answer shared) :
    Step prog serves env p (.answer i req answer)
      (p.put i ⟨t.call, t.history ++ [⟨req, answer⟩], next answer⟩ shared) := by
  obtain ⟨call, history, rest⟩ := t
  dsimp only at hrest
  subst hrest
  exact .answer ht hserves

/-- Steps one after the other, each of a kind that is allowed where it is made. -/
inductive Run (prog : κ → Program Req Ans α) (serves : σ → (req : Req) → Ans req → σ → Prop)
    (env : σ → σ → Prop) (allowed : Pool σ ι κ Req Ans α → Event ι κ Req Ans → Prop) :
    Pool σ ι κ Req Ans α → Pool σ ι κ Req Ans α → Prop where
  | refl (p : Pool σ ι κ Req Ans α) : Run prog serves env allowed p p
  | step {p q r : Pool σ ι κ Req Ans α} {e : Event ι κ Req Ans}
      (h : Run prog serves env allowed p q) (hstep : Step prog serves env q e r)
      (hallowed : allowed q e) : Run prog serves env allowed p r

variable {allowed allowed' : Pool σ ι κ Req Ans α → Event ι κ Req Ans → Prop}
  {p q r : Pool σ ι κ Req Ans α} {e : Event ι κ Req Ans}

theorem Run.invariant {inv : Pool σ ι κ Req Ans α → Prop}
    (hinv : ∀ p e q, Step prog serves env p e q → allowed p e → inv p → inv q)
    (h : Run prog serves env allowed p q) (hp : inv p) : inv q := by
  induction h with
  | refl => exact hp
  | step _ hstep hallowed ih => exact hinv _ _ _ hstep hallowed ih

theorem Run.trans (h : Run prog serves env allowed p q) (h' : Run prog serves env allowed q r) :
    Run prog serves env allowed p r := by
  induction h' with
  | refl => exact h
  | step _ hstep hallowed ih => exact .step ih hstep hallowed

/-! ### Where the threads stand -/

/-- What is left of each thread follows from its answers. -/
def Pool.Resumed (prog : κ → Program Req Ans α) (p : Pool σ ι κ Req Ans α) : Prop :=
  ∀ i t, p.thread i = some t → (prog t.call).Resumes t.history t.rest

theorem Step.resumed (h : Step prog serves env p e q) (hp : p.Resumed prog) : q.Resumed prog := by
  intro i t ht
  cases h with
  | @start j call hfree =>
    by_cases hij : i = j
    · subst hij
      rw [Pool.put_thread_self] at ht
      obtain rfl := Option.some.inj ht
      exact .start _
    · rw [Pool.put_thread_of_ne _ hij] at ht
      exact hp i t ht
  | @answer j call history req next answer shared hthread hserves =>
    by_cases hij : i = j
    · subst hij
      rw [Pool.put_thread_self] at ht
      obtain rfl := Option.some.inj ht
      exact (hp i _ hthread).snoc answer
    · rw [Pool.put_thread_of_ne _ hij] at ht
      exact hp i t ht
  | environment _ => exact hp i t ht

/-- A thread keeps its call, and only gets more answers. -/
theorem Step.thread_of_some (h : Step prog serves env p e q) {i : ι} {t : Thread κ Req Ans α}
    (ht : p.thread i = some t) :
    ∃ t', q.thread i = some t' ∧ t'.call = t.call ∧ t.history <+: t'.history := by
  cases h with
  | @start j call hfree =>
    by_cases hij : i = j
    · rw [hij, hfree] at ht
      cases ht
    · refine ⟨t, ?_, rfl, List.prefix_rfl⟩
      rw [Pool.put_thread_of_ne _ hij]
      exact ht
  | @answer j call history req next answer shared hthread hserves =>
    by_cases hij : i = j
    · subst hij
      rw [hthread] at ht
      obtain rfl := Option.some.inj ht
      exact ⟨_, Pool.put_thread_self _ _ _ _, rfl, List.prefix_append _ _⟩
    · refine ⟨t, ?_, rfl, List.prefix_rfl⟩
      rw [Pool.put_thread_of_ne _ hij]
      exact ht
  | environment _ => exact ⟨t, ht, rfl, List.prefix_rfl⟩

theorem Run.thread_of_some (h : Run prog serves env allowed p q) {i : ι}
    {t : Thread κ Req Ans α} (ht : p.thread i = some t) :
    ∃ t', q.thread i = some t' ∧ t'.call = t.call ∧ t.history <+: t'.history := by
  induction h with
  | refl => exact ⟨t, ht, rfl, List.prefix_rfl⟩
  | step _ hstep _ ih =>
    obtain ⟨t', ht', hcall, hhistory⟩ := ih
    obtain ⟨t'', ht'', hcall', hhistory'⟩ := hstep.thread_of_some ht'
    exact ⟨t'', ht'', hcall'.trans hcall, hhistory.trans hhistory'⟩

/-- A finished thread stays as it is. -/
theorem Step.thread_of_done (h : Step prog serves env p e q) {i : ι} {t : Thread κ Req Ans α}
    (ht : p.thread i = some t) {a : α} (hdone : t.rest = .done a) : q.thread i = some t := by
  cases h with
  | @start j call hfree =>
    have hij : i ≠ j := by
      rintro rfl
      rw [hfree] at ht
      cases ht
    rw [Pool.put_thread_of_ne _ hij]
    exact ht
  | @answer j call history req next answer shared hthread hserves =>
    have hij : i ≠ j := by
      rintro rfl
      rw [hthread] at ht
      obtain rfl := Option.some.inj ht
      cases hdone
    rw [Pool.put_thread_of_ne _ hij]
    exact ht
  | environment _ => exact ht

/-- What every started call has, all calls in the pool have. -/
theorem Step.calls (has : κ → Prop) (h : Step prog serves env p e q)
    (hnew : ∀ i call, e = .start i call → has call)
    (hp : ∀ i t, p.thread i = some t → has t.call) : ∀ i t, q.thread i = some t → has t.call := by
  intro i t ht
  cases h with
  | @start j call hfree =>
    by_cases hij : i = j
    · subst hij
      rw [Pool.put_thread_self] at ht
      obtain rfl := Option.some.inj ht
      exact hnew i call rfl
    · rw [Pool.put_thread_of_ne _ hij] at ht
      exact hp i t ht
  | @answer j call history req next answer shared hthread hserves =>
    by_cases hij : i = j
    · subst hij
      rw [Pool.put_thread_self] at ht
      have hcall := hp i _ hthread
      obtain rfl := Option.some.inj ht
      exact hcall
    · rw [Pool.put_thread_of_ne _ hij] at ht
      exact hp i t ht
  | environment _ => exact hp i t ht

/-- If all calls of a kind have finished and no new one starts, all have finished afterwards. -/
theorem Step.finished (has : κ → Prop) (h : Step prog serves env p e q)
    (hnew : ∀ i call, e = .start i call → ¬ has call)
    (hp : ∀ i t, p.thread i = some t → has t.call → ∃ a, t.rest = .done a) :
    ∀ i t, q.thread i = some t → has t.call → ∃ a, t.rest = .done a := by
  intro i t ht hcall
  cases h with
  | @start j call hfree =>
    by_cases hij : i = j
    · subst hij
      rw [Pool.put_thread_self] at ht
      obtain rfl := Option.some.inj ht
      exact absurd hcall (hnew i call rfl)
    · rw [Pool.put_thread_of_ne _ hij] at ht
      exact hp i t ht hcall
  | @answer j call history req next answer shared hthread hserves =>
    by_cases hij : i = j
    · subst hij
      rw [Pool.put_thread_self] at ht
      obtain rfl := Option.some.inj ht
      obtain ⟨a, ha⟩ := hp i _ hthread hcall
      cases ha
    · rw [Pool.put_thread_of_ne _ hij] at ht
      exact hp i t ht hcall
  | environment _ => exact hp i t ht hcall

/-- What every new answer has and every step keeps, all answers in the pool have. -/
theorem Step.history {has : σ → Exchange Req Ans → Prop} (h : Step prog serves env p e q)
    (hnew : ∀ s req answer s', serves s req answer s' → has s' ⟨req, answer⟩)
    (hkeep : ∀ x, has p.shared x → has q.shared x)
    (hp : ∀ i t, p.thread i = some t → ∀ x ∈ t.history, has p.shared x) :
    ∀ i t, q.thread i = some t → ∀ x ∈ t.history, has q.shared x := by
  intro i t ht x hx
  cases h with
  | @start j call hfree =>
    by_cases hij : i = j
    · subst hij
      rw [Pool.put_thread_self] at ht
      obtain rfl := Option.some.inj ht
      cases hx
    · rw [Pool.put_thread_of_ne _ hij] at ht
      exact hp i t ht x hx
  | @answer j call history req next answer shared hthread hserves =>
    by_cases hij : i = j
    · subst hij
      rw [Pool.put_thread_self] at ht
      obtain rfl := Option.some.inj ht
      rcases List.mem_append.mp hx with hx | hx
      · exact hkeep x (hp i _ hthread x hx)
      · rw [List.mem_singleton.mp hx]
        exact hnew _ _ _ _ hserves
    · rw [Pool.put_thread_of_ne _ hij] at ht
      exact hkeep x (hp i t ht x hx)
  | environment _ => exact hkeep x (hp i t ht x hx)

theorem Step.history_of_start {i : ι} {call : κ}
    (h : Step prog serves env p (.start i call) q) {t : Thread κ Req Ans α}
    (ht : q.thread i = some t) : t.history = [] := by
  obtain ⟨-, rfl⟩ := h.of_start
  rw [Pool.put_thread_self] at ht
  obtain rfl := Option.some.inj ht
  rfl

/-- What is left of a call that was started in the run follows from its answers. -/
theorem Run.resumes_of_start {i : ι} {call : κ} {p' : Pool σ ι κ Req Ans α}
    (hstart : Step prog serves env p' (.start i call) p) (h : Run prog serves env allowed p q)
    {t : Thread κ Req Ans α} (ht : q.thread i = some t) :
    t.call = call ∧ (prog call).Resumes t.history t.rest := by
  obtain ⟨-, rfl⟩ := hstart.of_start
  have hinv : ∃ t, q.thread i = some t ∧ t.call = call ∧ (prog call).Resumes t.history t.rest := by
    apply h.invariant ?_ ⟨_, Pool.put_thread_self _ _ _ _, rfl, .start _⟩
    rintro q e r hstep - ⟨t, ht, hcall, hresumes⟩
    cases hstep with
    | @start j call' hfree =>
      have hij : i ≠ j := by
        rintro rfl
        rw [hfree] at ht
        cases ht
      exact ⟨t, (Pool.put_thread_of_ne _ hij _ _).trans ht, hcall, hresumes⟩
    | @answer j call' history req next answer shared hthread hserves =>
      by_cases hij : i = j
      · subst hij
        rw [hthread] at ht
        obtain rfl := Option.some.inj ht
        exact ⟨_, Pool.put_thread_self _ _ _ _, hcall, hresumes.snoc answer⟩
      · exact ⟨t, (Pool.put_thread_of_ne _ hij _ _).trans ht, hcall, hresumes⟩
    | environment _ => exact ⟨t, ht, hcall, hresumes⟩
  obtain ⟨t', ht', hcall, hresumes⟩ := hinv
  rw [ht] at ht'
  obtain rfl := Option.some.inj ht'
  exact ⟨hcall, hresumes⟩

/-- A step of a thread within a run. -/
structure Moment (prog : κ → Program Req Ans α) (serves : σ → (req : Req) → Ans req → σ → Prop)
    (env : σ → σ → Prop) (allowed : Pool σ ι κ Req Ans α → Event ι κ Req Ans → Prop)
    (p q : Pool σ ι κ Req Ans α) (i : ι) where
  before : Pool σ ι κ Req Ans α
  after : Pool σ ι κ Req Ans α
  req : Req
  answer : Ans req
  run_before : Run prog serves env allowed p before
  step : Step prog serves env before (.answer i req answer) after
  step_allowed : allowed before (.answer i req answer)
  run_after : Run prog serves env allowed after q

/-- The run up to the moment. -/
theorem Moment.run {i : ι} (m : Moment prog serves env allowed p q i) :
    Run prog serves env allowed p m.after := m.run_before.step m.step m.step_allowed

/-- The same moment in a run that begins earlier. -/
def Moment.earlier {i : ι} (m : Moment prog serves env allowed q r i)
    (h : Run prog serves env allowed p q) : Moment prog serves env allowed p r i :=
  { m with run_before := h.trans m.run_before }

/-- The same moment in a run that goes on. -/
def Moment.later {i : ι} (m : Moment prog serves env allowed p q i)
    (h : Run prog serves env allowed q r) : Moment prog serves env allowed p r i :=
  { m with run_after := m.run_after.trans h }

/-- Every answer in the history of a thread was given to it in a step. -/
theorem Run.exists_moment (h : Run prog serves env allowed p q) {i : ι} {t : Thread κ Req Ans α}
    (ht : q.thread i = some t) {earlier later : List (Exchange Req Ans)} {x : Exchange Req Ans}
    (hhistory : t.history = earlier ++ x :: later)
    (hstart : ∀ t, p.thread i = some t → t.history.length ≤ earlier.length) :
    ∃ m : Moment prog serves env allowed p q i, serves m.before.shared x.1 x.2 m.after.shared ∧
      ∀ t, m.after.thread i = some t → t.history = earlier ++ [x] := by
  induction h generalizing t later with
  | refl =>
    have hlength := hstart t ht
    rw [hhistory, List.length_append, List.length_cons] at hlength
    omega
  | @step q r e h hstep hallowed ih =>
    have hearlier : ∀ {t : Thread κ Req Ans α} {later : List (Exchange Req Ans)},
        q.thread i = some t → t.history = earlier ++ x :: later →
        ∃ m : Moment prog serves env allowed p r i,
          serves m.before.shared x.1 x.2 m.after.shared ∧
          ∀ t, m.after.thread i = some t → t.history = earlier ++ [x] := by
      intro t later ht hhistory
      obtain ⟨m, hserved, hafter⟩ := ih ht hhistory
      exact ⟨m.later ((Run.refl _).step hstep hallowed), hserved, hafter⟩
    cases hstep with
    | @start j call hfree =>
      by_cases hij : i = j
      · subst hij
        rw [Pool.put_thread_self] at ht
        obtain rfl := Option.some.inj ht
        exact absurd hhistory.symm (List.append_ne_nil_of_right_ne_nil _ (List.cons_ne_nil _ _))
      · rw [Pool.put_thread_of_ne _ hij] at ht
        exact hearlier ht hhistory
    | @answer j call history req next answer shared hthread hserves =>
      by_cases hij : i = j
      · subst hij
        have hself := Pool.put_thread_self q i
          ⟨call, history ++ [⟨req, answer⟩], next answer⟩ shared
        rw [hself] at ht
        obtain rfl := Option.some.inj ht
        rcases List.eq_nil_or_concat later with rfl | ⟨later', y, rfl⟩
        · obtain ⟨rfl, hx⟩ := List.append_inj' hhistory rfl
          obtain rfl := List.head_eq_of_cons_eq hx
          refine ⟨⟨q, _, req, answer, h, .answer hthread hserves, hallowed, .refl _⟩, hserves,
            fun t ht => ?_⟩
          rw [hself] at ht
          obtain rfl := Option.some.inj ht
          rfl
        · rw [List.concat_eq_append, ← List.cons_append, ← List.append_assoc] at hhistory
          exact hearlier hthread (List.append_inj' hhistory rfl).1
      · rw [Pool.put_thread_of_ne _ hij] at ht
        exact hearlier ht hhistory
    | environment _ => exact hearlier ht hhistory

/-- A thread may come to its end with no other thread moving, if its requests are allowed. -/
theorem Run.of_runs_where {i : ι} {t : Thread κ Req Ans α} {a : α} {s : σ} (P : Req → Prop)
    (ht : p.thread i = some t)
    (h : t.rest.Runs (fun s req answer s' => serves s req answer s' ∧ P req) p.shared a s)
    (hallowed : ∀ q req answer, P req → allowed q (.answer i req answer)) :
    ∃ q t', Run prog serves env allowed p q ∧ q.thread i = some t' ∧ t'.call = t.call ∧
      t.history <+: t'.history ∧ t'.rest = .done a ∧ q.shared = s ∧
      ∀ j, j ≠ i → q.thread j = p.thread j := by
  obtain ⟨call, history, rest⟩ := t
  obtain ⟨shared, thread⟩ := p
  dsimp only at ht h
  induction h generalizing thread history with
  | done a s =>
    exact ⟨_, _, .refl _, ht, rfl, List.prefix_rfl, rfl, rfl, fun _ _ => rfl⟩
  | @ask req next answer s t u a hserves _ ih =>
    obtain ⟨q, t', hrun, ht', hcall, hhistory, hrest, hshared, hother⟩ :=
      ih (history ++ [⟨req, answer⟩]) _ (Pool.put_thread_self ⟨s, thread⟩ i _ t)
    have hstep : Step prog serves env ⟨s, thread⟩ (.answer i req answer) _ := .answer ht hserves.1
    refine ⟨q, t', (Run.refl _).step hstep (hallowed _ _ _ hserves.2) |>.trans hrun, ht', hcall,
      (List.prefix_append _ _).trans hhistory, hrest, hshared, fun j hj => ?_⟩
    rw [hother j hj]
    exact Pool.put_thread_of_ne _ hj _ _

/-- A thread may come to its end with no other thread moving. -/
theorem Run.of_runs {i : ι} {t : Thread κ Req Ans α} {a : α} {s : σ} (ht : p.thread i = some t)
    (h : t.rest.Runs serves p.shared a s)
    (hallowed : ∀ q req answer, allowed q (.answer i req answer)) :
    ∃ q t', Run prog serves env allowed p q ∧ q.thread i = some t' ∧ t'.call = t.call ∧
      t.history <+: t'.history ∧ t'.rest = .done a ∧ q.shared = s ∧
      ∀ j, j ≠ i → q.thread j = p.thread j :=
  Run.of_runs_where (fun _ => True) ht (h.mono fun _ _ _ _ hserves => ⟨hserves, trivial⟩)
    fun q req answer _ => hallowed q req answer

/-- A free thread may make a call and come to its end with no other thread moving. -/
theorem Run.of_call {i : ι} (hfree : p.thread i = none) {call : κ} {a : α} {s : σ}
    (h : (prog call).Runs serves p.shared a s) (hallowed : ∀ q e, allowed q e) :
    ∃ q t, Run prog serves env allowed p q ∧ q.thread i = some t ∧ t.call = call ∧
      t.rest = .done a ∧ q.shared = s ∧ ∀ j, j ≠ i → q.thread j = p.thread j := by
  have hstart : Step prog serves env p (.start i call) _ := .start call hfree
  obtain ⟨q, t, hrun, ht, hcall, -, hrest, hshared, hother⟩ := Run.of_runs
    (Pool.put_thread_self p i ⟨call, [], prog call⟩ p.shared) h fun q _ _ => hallowed q _
  refine ⟨q, t, ((Run.refl p).step hstart (hallowed _ _)).trans hrun, ht, hcall, hrest, hshared,
    fun j hj => ?_⟩
  rw [hother j hj]
  exact Pool.put_thread_of_ne _ hj _ _

/-- If one server can follow another, so can a pool on it, with the same threads. -/
theorem Run.simulate {τ : Type} {rel : σ → τ → Prop}
    {serves' : τ → (req : Req) → Ans req → τ → Prop} {env' : τ → τ → Prop}
    {allowed' : Pool τ ι κ Req Ans α → Event ι κ Req Ans → Prop}
    (hserves : ∀ s t req answer s', rel s t → serves s req answer s' →
      ∃ t', serves' t req answer t' ∧ rel s' t')
    (henv : ∀ s t s', rel s t → env s s' → ∃ t', env' t t' ∧ rel s' t')
    (hallowed : ∀ p e t, rel p.shared t → allowed p e → allowed' ⟨t, p.thread⟩ e)
    (h : Run prog serves env allowed p q) {t : τ} (hrel : rel p.shared t) :
    ∃ t', rel q.shared t' ∧ Run prog serves' env' allowed' ⟨t, p.thread⟩ ⟨t', q.thread⟩ := by
  induction h with
  | refl => exact ⟨t, hrel, .refl _⟩
  | step _ hstep hok ih =>
    obtain ⟨t', hrel', hrun⟩ := ih
    have hok' := hallowed _ _ _ hrel' hok
    cases hstep with
    | start call hfree => exact ⟨t', hrel', hrun.step (.start call hfree) hok'⟩
    | answer hthread hanswer =>
      obtain ⟨t'', hanswer', hrel''⟩ := hserves _ _ _ _ _ hrel' hanswer
      exact ⟨t'', hrel'', hrun.step (.answer hthread hanswer') hok'⟩
    | environment hmove =>
      obtain ⟨t'', hmove', hrel''⟩ := henv _ _ _ hrel' hmove
      exact ⟨t'', hrel'', hrun.step (.environment hmove') hok'⟩

end Steps

end Interleaving
