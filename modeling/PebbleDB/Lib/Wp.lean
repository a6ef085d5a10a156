import Mathlib.Tactic.Common

/-!
# Weakest preconditions for stateful computations that can exit early

`Wp x ok exit s`: run from `s`, the computation `x` ends either with a value and a state in `ok`
or early with an exit and a state in `exit`. Both outcomes carry the state in which they happen,
so a statement about a computation also says what an exit in the middle of it leaves behind.
-/

namespace EarlyExit

variable {ε σ τ α β : Type}

/-- Every way `x` can end from `s` is covered by `ok` or `exit`. -/
def Wp (x : EStateM ε σ α) (ok : α → σ → Prop) (exit : ε → σ → Prop) (s : σ) : Prop :=
  match x s with
  | .ok a s' => ok a s'
  | .error e s' => exit e s'

namespace Wp

variable {x : EStateM ε σ α} {ok ok' : α → σ → Prop} {exit exit' : ε → σ → Prop} {s : σ}

theorem of_eq_ok {a : α} {s' : σ} (hx : x s = .ok a s') (h : ok a s') : Wp x ok exit s := by
  rw [Wp, hx]
  exact h

theorem of_eq_error {e : ε} {s' : σ} (hx : x s = .error e s') (h : exit e s') :
    Wp x ok exit s := by
  rw [Wp, hx]
  exact h

theorem ok_of_eq {a : α} {s' : σ} (h : Wp x ok exit s) (hx : x s = .ok a s') : ok a s' := by
  rwa [Wp, hx] at h

theorem exit_of_eq {e : ε} {s' : σ} (h : Wp x ok exit s) (hx : x s = .error e s') :
    exit e s' := by
  rwa [Wp, hx] at h

theorem mono (h : Wp x ok exit s) (hok : ∀ a s', ok a s' → ok' a s')
    (hexit : ∀ e s', exit e s' → exit' e s') : Wp x ok' exit' s := by
  rw [Wp] at h ⊢
  split at h
  · exact hok _ _ h
  · exact hexit _ _ h

/-- How `x` ends, as such. -/
theorem self (x : EStateM ε σ α) (s : σ) :
    Wp x (fun a s' => x s = .ok a s') (fun e s' => x s = .error e s') s := by
  cases hx : x s with
  | ok a s' => exact of_eq_ok hx rfl
  | error e s' => exact of_eq_error hx rfl

theorem pure {a : α} (h : ok a s) : Wp (pure a) ok exit s := h

theorem throw {e : ε} (h : exit e s) : Wp (throw e : EStateM ε σ α) ok exit s := h

theorem get {ok : σ → σ → Prop} (h : ok s s) : Wp (get : EStateM ε σ σ) ok exit s := h

theorem modify {ok : Unit → σ → Prop} {f : σ → σ} (h : ok () (f s)) :
    Wp (modify f : EStateM ε σ Unit) ok exit s := h

/-- The state after the first part is where the second starts; an exit of the first part is an
exit of the whole. -/
theorem bind {f : α → EStateM ε σ β} {ok : β → σ → Prop}
    (h : Wp x (fun a => Wp (f a) ok exit) exit s) : Wp (x >>= f) ok exit s := by
  rw [Wp] at h ⊢
  show match EStateM.bind x f s with
    | .ok a s' => ok a s'
    | .error e s' => exit e s'
  rw [EStateM.bind]
  cases hx : x s with
  | ok a s' =>
    rw [hx] at h
    exact h
  | error e s' =>
    rw [hx] at h
    exact h

theorem map {f : α → β} {ok : β → σ → Prop} (h : Wp x (fun a => ok (f a)) exit s) :
    Wp (f <$> x) ok exit s := by
  rw [Wp] at h ⊢
  show match EStateM.map f x s with
    | .ok a s' => ok a s'
    | .error e s' => exit e s'
  rw [EStateM.map]
  cases hx : x s with
  | ok a s' =>
    rw [hx] at h
    exact h
  | error e s' =>
    rw [hx] at h
    exact h

theorem of_map {f : α → β} {ok : β → σ → Prop} (h : Wp (f <$> x) ok exit s) :
    Wp x (fun a => ok (f a)) exit s := by
  have h' : match EStateM.map f x s with
    | .ok a s' => ok a s'
    | .error e s' => exit e s' := h
  rw [EStateM.map] at h'
  rw [Wp]
  cases hx : x s with
  | ok a s' =>
    rw [hx] at h'
    exact h'
  | error e s' =>
    rw [hx] at h'
    exact h'

theorem ite {p : Prop} [Decidable p] {y : EStateM ε σ α} (ht : p → Wp x ok exit s)
    (hf : ¬ p → Wp y ok exit s) : Wp (if p then x else y) ok exit s := by
  split
  · exact ht ‹_›
  · exact hf ‹_›

/-- Two statements about the same run hold together. -/
theorem and {ok₂ : α → σ → Prop} {exit₂ : ε → σ → Prop} (h : Wp x ok exit s)
    (h₂ : Wp x ok₂ exit₂ s) :
    Wp x (fun a s' => ok a s' ∧ ok₂ a s') (fun e s' => exit e s' ∧ exit₂ e s') s := by
  rw [Wp] at h h₂ ⊢
  split at h
  · rename_i heq
    rw [heq] at h₂
    exact ⟨h, h₂⟩
  · rename_i heq
    rw [heq] at h₂
    exact ⟨h, h₂⟩

end Wp

theorem bind_of_ok {x : EStateM ε σ α} {f : α → EStateM ε σ β} {s s' : σ} {a : α}
    (h : x s = .ok a s') : (x >>= f) s = f a s' := by
  show EStateM.bind x f s = _
  rw [EStateM.bind, h]

theorem bind_of_error {x : EStateM ε σ α} {f : α → EStateM ε σ β} {s s' : σ} {e : ε}
    (h : x s = .error e s') : (x >>= f) s = .error e s' := by
  show EStateM.bind x f s = _
  rw [EStateM.bind, h]

/-- Runs `x` from `s` and tests where it ends; an early exit fails the test. -/
def check (x : EStateM ε σ α) (s : σ) (test : α → σ → Bool) : Bool :=
  match x s with
  | .ok a s' => test a s'
  | .error _ _ => false

theorem exists_of_check {x : EStateM ε σ α} {s : σ} {test : α → σ → Bool}
    (h : check x s test = true) : ∃ a s', x s = .ok a s' ∧ test a s' = true := by
  rw [check] at h
  split at h
  · exact ⟨_, _, ‹_›, h⟩
  · cases h

/-- The state in which `x` ends from `s`. -/
def after (x : EStateM ε σ α) (s : σ) : σ :=
  match x s with
  | .ok _ s' => s'
  | .error _ s' => s'

theorem eq_ok_of_check {x : EStateM ε σ α} {s : σ} {test : α → σ → Bool}
    (h : check x s test = true) : ∃ a, x s = .ok a (after x s) ∧ test a (after x s) = true := by
  obtain ⟨a, s', hx, htest⟩ := exists_of_check h
  have hafter : after x s = s' := by rw [after, hx]
  exact ⟨a, hafter ▸ hx, hafter ▸ htest⟩

theorem Wp.after {x : EStateM ε σ α} {P : σ → Prop} {s : σ} (h : Wp x (fun _ => P) (fun _ => P) s) :
    P (after x s) := by
  rw [Wp] at h
  rw [EarlyExit.after]
  split
  · rename_i heq
    rw [heq] at h
    exact h
  · rename_i heq
    rw [heq] at h
    exact h

/-- Runs `x` from `s` and tests how it exits; a return fails the test. -/
def checkExit (x : EStateM ε σ α) (s : σ) (test : ε → σ → Bool) : Bool :=
  match x s with
  | .ok _ _ => false
  | .error e s' => test e s'

theorem exists_of_checkExit {x : EStateM ε σ α} {s : σ} {test : ε → σ → Bool}
    (h : checkExit x s test = true) : ∃ e s', x s = .error e s' ∧ test e s' = true := by
  rw [checkExit] at h
  split at h
  · cases h
  · exact ⟨_, _, ‹_›, h⟩

/-! ## Results and parts of the state -/

/-- A computation that touches no state. -/
def fromExcept (x : Except ε α) : EStateM ε σ α := fun s =>
  match x with
  | .ok a => .ok a s
  | .error e => .error e s

/-- A computation on a part of the state. -/
def onPart (part : σ → τ) (put : τ → σ → σ) (x : EStateM ε τ α) : EStateM ε σ α := fun s =>
  match x (part s) with
  | .ok a t => .ok a (put t s)
  | .error e t => .error e (put t s)

theorem fromExcept_ok {x : Except ε α} {a : α} (h : x = .ok a) (s : σ) :
    (fromExcept x : EStateM ε σ α) s = .ok a s := by
  rw [h]
  rfl

theorem fromExcept_error {x : Except ε α} {e : ε} (h : x = .error e) (s : σ) :
    (fromExcept x : EStateM ε σ α) s = .error e s := by
  rw [h]
  rfl

theorem Wp.fromExcept {x : Except ε α} {ok : α → σ → Prop} {exit : ε → σ → Prop} {s : σ}
    (hok : ∀ a, x = .ok a → ok a s) (hexit : ∀ e, x = .error e → exit e s) :
    Wp (fromExcept x) ok exit s := by
  cases x with
  | ok a => exact hok a rfl
  | error e => exact hexit e rfl

theorem Wp.onPart {part : σ → τ} {put : τ → σ → σ} {x : EStateM ε τ α} {ok : α → σ → Prop}
    {exit : ε → σ → Prop} {s : σ}
    (h : Wp x (fun a t => ok a (put t s)) (fun e t => exit e (put t s)) (part s)) :
    Wp (onPart part put x) ok exit s := by
  rw [Wp] at h ⊢
  show match (match x (part s) with
    | .ok a t => EStateM.Result.ok a (put t s)
    | .error e t => EStateM.Result.error e (put t s)) with
    | .ok a s' => ok a s'
    | .error e s' => exit e s'
  cases hx : x (part s) with
  | ok a t =>
    rw [hx] at h
    exact h
  | error e t =>
    rw [hx] at h
    exact h

/-! ## What every part of a computation does to the state -/

/-- However `x` ends, `R` relates the state it started from to the one it ends in. -/
def Along (R : σ → σ → Prop) (x : EStateM ε σ α) : Prop := ∀ s, Wp x (fun _ => R s) (fun _ => R s) s

namespace Along

variable {R : σ → σ → Prop} {x : EStateM ε σ α}

theorem after (h : Along R x) (s : σ) : R s (after x s) := (h s).after

/-- What `R` carries along holds at the end if it holds at the start. -/
theorem wp (h : Along R x) {P : σ → Prop} {s : σ} (hcarry : ∀ t, R s t → P t) :
    Wp x (fun _ => P) (fun _ => P) s :=
  (h s).mono (fun _ t => hcarry t) fun _ t => hcarry t

theorem pure (hrefl : ∀ s, R s s) (a : α) : Along R (pure a : EStateM ε σ α) :=
  fun s => Wp.pure (hrefl s)

theorem throw (hrefl : ∀ s, R s s) (e : ε) : Along R (throw e : EStateM ε σ α) :=
  fun s => Wp.throw (hrefl s)

theorem get (hrefl : ∀ s, R s s) : Along R (get : EStateM ε σ σ) := fun s => Wp.get (hrefl s)

theorem modify {f : σ → σ} (h : ∀ s, R s (f s)) : Along R (modify f : EStateM ε σ Unit) :=
  fun s => Wp.modify (h s)

theorem fromExcept (hrefl : ∀ s, R s s) (y : Except ε α) :
    Along R (fromExcept y : EStateM ε σ α) :=
  fun s => Wp.fromExcept (fun _ _ => hrefl s) fun _ _ => hrefl s

/-- What follows a pure part may use what that part returned. -/
theorem fromExcept_bind (hrefl : ∀ s, R s s) {y : Except ε α} {f : α → EStateM ε σ β}
    (hf : ∀ a, y = .ok a → Along R (f a)) : Along R (EarlyExit.fromExcept y >>= f) := fun s =>
  Wp.bind (Wp.fromExcept (fun a ha => hf a ha s) fun _ _ => hrefl s)

theorem bind (htrans : ∀ {s t u}, R s t → R t u → R s u) (h : Along R x)
    {f : α → EStateM ε σ β} (hf : ∀ a, Along R (f a)) : Along R (x >>= f) := fun s =>
  Wp.bind ((h s).mono
    (fun a t hst => (hf a t).mono (fun _ _ => htrans hst) fun _ _ => htrans hst)
    fun _ _ hst => hst)

theorem map {f : α → β} (h : Along R x) : Along R (f <$> x) := fun s =>
  Wp.map ((h s).mono (fun _ _ hst => hst) fun _ _ hst => hst)

theorem ite {p : Prop} [Decidable p] {y : EStateM ε σ α} (hx : Along R x) (hy : Along R y) :
    Along R (if p then x else y) := by
  split
  · exact hx
  · exact hy

end Along

theorem Along.onPart {part : σ → τ} {put : τ → σ → σ} {x : EStateM ε τ α} {R : τ → τ → Prop}
    {S : σ → σ → Prop} (h : Along R x) (hput : ∀ s t, R (part s) t → S s (put t s)) :
    Along S (onPart part put x) := fun s =>
  Wp.onPart ((h (part s)).mono (fun _ t => hput s t) fun _ t => hput s t)

/-! ## A computation on a part of the state -/

/-- `x` does to a part of the state what `y` does to it alone, and ends as `y` does. -/
def Projects (part : σ → τ) (x : EStateM ε σ α) (y : EStateM ε τ α) : Prop := ∀ s,
  Wp x (fun a s' => y (part s) = .ok a (part s')) (fun e s' => y (part s) = .error e (part s')) s

namespace Projects

variable {part : σ → τ} {x : EStateM ε σ α} {y : EStateM ε τ α}

theorem ok (h : Projects part x y) {a : α} {s s' : σ} (hx : x s = .ok a s') :
    y (part s) = .ok a (part s') := (h s).ok_of_eq hx

theorem pure (a : α) : Projects part (pure a : EStateM ε σ α) (pure a) := fun _ => Wp.pure rfl

theorem throw (e : ε) : Projects part (throw e : EStateM ε σ α) (throw e) := fun _ => Wp.throw rfl

theorem bind (h : Projects part x y) {f : α → EStateM ε σ β} {g : α → EStateM ε τ β}
    (hf : ∀ a, Projects part (f a) (g a)) : Projects part (x >>= f) (y >>= g) := by
  refine fun s => Wp.bind ((h s).mono (fun a s₁ hy => ?_) fun _ _ hy => bind_of_error hy)
  rw [bind_of_ok hy]
  exact hf a s₁

/-- A step of `x` that leaves the part alone. -/
theorem modify_bind {f : σ → σ} (hf : ∀ s, part (f s) = part s) (h : Projects part x y) :
    Projects part (modify f >>= fun _ => x) y := by
  refine fun s => Wp.bind (Wp.modify ?_)
  rw [← hf s]
  exact h (f s)

theorem get_bind {f : σ → EStateM ε σ β} {g : τ → EStateM ε τ β}
    (h : ∀ s, Projects part (f s) (g (part s))) :
    Projects part (get >>= f) (get >>= g) := fun s => Wp.bind (Wp.get (h s s))

theorem map {f : α → β} (h : Projects part x y) : Projects part (f <$> x) (f <$> y) := by
  refine fun s => Wp.map ((h s).mono (fun a s' hy => ?_) fun e s' hy => ?_)
  · show EStateM.map f y (part s) = _
    rw [EStateM.map, hy]
  · show EStateM.map f y (part s) = _
    rw [EStateM.map, hy]

theorem ite {p : Prop} [Decidable p] {x' : EStateM ε σ α} {y' : EStateM ε τ α}
    (hx : Projects part x y) (hx' : Projects part x' y') :
    Projects part (if p then x else x') (if p then y else y') := by
  split
  · exact hx
  · exact hx'

theorem fromExcept (a : Except ε α) :
    Projects part (EarlyExit.fromExcept a : EStateM ε σ α) (EarlyExit.fromExcept a) := fun s =>
  Wp.fromExcept (fun _ h => fromExcept_ok h (part s)) fun _ h => fromExcept_error h (part s)

theorem onPart {put : τ → σ → σ} (hput : ∀ t s, part (put t s) = t) (y : EStateM ε τ α) :
    Projects part (EarlyExit.onPart part put y) y := fun s =>
  Wp.onPart ((Wp.self y (part s)).mono (fun _ t h => by rw [hput, h]) fun _ t h => by rw [hput, h])

theorem modify {f : σ → σ} (hf : ∀ s, part (f s) = part s) :
    Projects part (modify f : EStateM ε σ Unit) (Pure.pure ()) := fun s =>
  Wp.modify (by rw [hf]; rfl)

end Projects

/-! ## The early exits of a computation -/

/-- Every early exit of `x` satisfies `P`. -/
def Exits (P : ε → σ → Prop) (x : EStateM ε σ α) : Prop := ∀ s, Wp x (fun _ _ => True) P s

namespace Exits

variable {P : ε → σ → Prop} {x : EStateM ε σ α}

theorem pure (a : α) : Exits P (pure a : EStateM ε σ α) := fun _ => Wp.pure trivial

theorem throw {e : ε} (h : ∀ s, P e s) : Exits P (throw e : EStateM ε σ α) :=
  fun s => Wp.throw (h s)

theorem modify (f : σ → σ) : Exits P (modify f : EStateM ε σ Unit) := fun _ => Wp.modify trivial

theorem bind (h : Exits P x) {f : α → EStateM ε σ β} (hf : ∀ a, Exits P (f a)) :
    Exits P (x >>= f) := fun s =>
  Wp.bind ((h s).mono (fun a t _ => hf a t) fun _ _ he => he)

theorem ite {p : Prop} [Decidable p] {y : EStateM ε σ α} (hx : Exits P x) (hy : Exits P y) :
    Exits P (if p then x else y) := by
  split
  · exact hx
  · exact hy

end Exits

theorem Exits.onPart {part : σ → τ} {put : τ → σ → σ} {x : EStateM ε τ α} {Q : ε → τ → Prop}
    {P : ε → σ → Prop} (h : Exits Q x) (hput : ∀ e s t, Q e t → P e (put t s)) :
    Exits P (onPart part put x) := fun s =>
  Wp.onPart ((h (part s)).mono (fun _ _ _ => trivial) fun e t => hput e s t)

/-! ## The runs of a computation that return -/

/-- `R` holds between the states of a run of `x` that returns. -/
def Returns (R : σ → σ → Prop) (x : EStateM ε σ α) : Prop :=
  ∀ s, Wp x (fun _ => R s) (fun _ _ => True) s

namespace Returns

variable {R : σ → σ → Prop} {x : EStateM ε σ α}

theorem of_along (h : Along R x) : Returns R x := fun s =>
  (h s).mono (fun _ _ hR => hR) fun _ _ _ => trivial

theorem bind (htrans : ∀ {s t u}, R s t → R t u → R s u) (h : Returns R x)
    {f : α → EStateM ε σ β} (hf : ∀ a, Returns R (f a)) : Returns R (x >>= f) := fun s =>
  Wp.bind ((h s).mono (fun a t hst => (hf a t).mono (fun _ _ htu => htrans hst htu)
    fun _ _ _ => trivial) fun _ _ _ => trivial)

theorem ite {p : Prop} [Decidable p] {y : EStateM ε σ α} (hx : Returns R x) (hy : Returns R y) :
    Returns R (if p then x else y) := by
  split
  · exact hx
  · exact hy

end Returns

theorem Returns.onPart {part : σ → τ} {put : τ → σ → σ} {x : EStateM ε τ α} {R : τ → τ → Prop}
    {S : σ → σ → Prop} (h : Returns R x) (hput : ∀ s t, R (part s) t → S s (put t s)) :
    Returns S (onPart part put x) := fun s =>
  Wp.onPart ((h (part s)).mono (fun _ t => hput s t) fun _ _ _ => trivial)

/-! ## Exits as values -/

/-- Runs `x`; an exit that `catches` takes is handed to the caller as a value. -/
def caught {δ : Type} (catches : ε → Option δ) (x : EStateM ε σ α) :
    EStateM ε σ (Except δ α) := fun s =>
  match x s with
  | .ok a s' => .ok (.ok a) s'
  | .error e s' =>
    match catches e with
    | some d => .ok (.error d) s'
    | none => .error e s'

theorem Wp.caught {δ : Type} {catches : ε → Option δ} {x : EStateM ε σ α}
    {ok : Except δ α → σ → Prop} {exit : ε → σ → Prop} {s : σ}
    (h : Wp x (fun a => ok (.ok a)) (fun e s' =>
      (∀ d, catches e = some d → ok (.error d) s') ∧ (catches e = none → exit e s')) s) :
    Wp (caught catches x) ok exit s := by
  rw [Wp] at h ⊢
  rw [EarlyExit.caught]
  split at h
  · exact h
  · rename_i e s' _
    cases hc : catches e with
    | some d => exact h.1 d hc
    | none => exact h.2 hc

/-- A value of `x` is one of `x`. -/
theorem eq_ok_of_caught {δ : Type} {catches : ε → Option δ} {x : EStateM ε σ α} {a : α} {s s' : σ}
    (h : caught catches x s = .ok (.ok a) s') : x s = .ok a s' := by
  rw [caught] at h
  split at h
  · cases h
    assumption
  · split at h
    · cases h
    · cases h

theorem Along.caught {δ : Type} {catches : ε → Option δ} {R : σ → σ → Prop}
    {x : EStateM ε σ α} (h : Along R x) : Along R (caught catches x) := fun s =>
  Wp.caught ((h s).mono (fun _ _ hst => hst) fun _ _ hst => ⟨fun _ _ => hst, fun _ => hst⟩)

/-! ## The failures of a computation without state -/

/-- Every failure of `x` satisfies `P`. -/
def Fails (P : ε → Prop) (x : Except ε α) : Prop := ∀ e, x = .error e → P e

namespace Fails

variable {P : ε → Prop} {x : Except ε α}

theorem ok (a : α) : Fails P (.ok a : Except ε α) := fun _ h => by cases h

theorem error {e : ε} (h : P e) : Fails P (.error e : Except ε α) := fun _ he => by
  cases he
  exact h

theorem bind (h : Fails P x) {f : α → Except ε β} (hf : ∀ a, Fails P (f a)) :
    Fails P (x >>= f) := by
  intro e he
  cases x with
  | ok a => exact hf a e he
  | error e' =>
    cases he
    exact h e rfl

theorem ite {p : Prop} [Decidable p] {y : Except ε α} (hx : Fails P x) (hy : Fails P y) :
    Fails P (if p then x else y) := by
  split
  · exact hx
  · exact hy

end Fails

theorem Exits.fromExcept {P : ε → Prop} {x : Except ε α} (h : Fails P x) :
    Exits (fun e _ => P e) (fromExcept x : EStateM ε σ α) := fun _ =>
  Wp.fromExcept (fun _ _ => trivial) h

end EarlyExit
