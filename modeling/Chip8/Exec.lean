import Chip8.Fault

/-!
# Operations that may fault

An operation on a part `σ` of the machine either returns a value or stops with a
`Fault`, and in both cases leaves a part behind: what it changed before a fault
stays changed. `Exec.within` runs an operation on a part inside the whole that
holds it, and touches nothing else of the whole.
-/

namespace Chip8

/-- An operation on `σ` that returns an `α` or a fault, and in both cases the `σ` it leaves. -/
abbrev Exec (σ α : Type) := EStateM Fault σ α

namespace Exec

variable {σ τ α : Type}

/-- Runs an operation on the part that `part` reads and `put` writes back. -/
def within (part : τ → σ) (put : σ → τ → τ) (x : Exec σ α) : Exec τ α := fun t =>
  match x (part t) with
  | .ok a s => .ok a (put s t)
  | .error e s => .error e (put s t)

/-- What an operation answers. -/
def answer (x : Exec σ α) (s : σ) : Except Fault α :=
  match x s with
  | .ok a _ => .ok a
  | .error e _ => .error e

/-- What an operation leaves behind. -/
def after (x : Exec σ α) (s : σ) : σ :=
  match x s with
  | .ok _ s' => s'
  | .error _ s' => s'

/-! ### How operations are put together -/

@[simp] theorem pure_apply (a : α) (s : σ) : (pure a : Exec σ α) s = .ok a s := rfl

@[simp] theorem throw_apply (e : Fault) (s : σ) : (throw e : Exec σ α) s = .error e s := rfl

@[simp] theorem get_apply (s : σ) : (get : Exec σ σ) s = .ok s s := rfl

@[simp] theorem modify_apply (f : σ → σ) (s : σ) : (modify f : Exec σ Unit) s = .ok () (f s) := rfl

@[simp] theorem map_apply {β : Type} (f : α → β) (x : Exec σ α) (s : σ) :
    (f <$> x) s = match x s with
      | .ok a s' => .ok (f a) s'
      | .error e s' => .error e s' := by
  simp only [Functor.map, EStateM.map]
  cases x s <;> rfl

/-- A handler goes on from what the operation left behind when it faulted. -/
@[simp] theorem tryCatch_apply (x : Exec σ α) (handler : Fault → Exec σ α) (s : σ) :
    tryCatch x handler s = match x s with
      | .ok a s' => .ok a s'
      | .error e s' => handler e s' := by
  simp only [tryCatch, tryCatchThe, MonadExceptOf.tryCatch]
  delta EStateM.tryCatch
  cases x s <;> rfl

/-- The second operation runs where the first one returned, and not at all where it faulted. -/
theorem bind_apply {β : Type} (x : Exec σ α) (f : α → Exec σ β) (s : σ) :
    (x >>= f) s = match x s with
      | .ok a s' => f a s'
      | .error e s' => .error e s' := by
  simp only [bind, EStateM.bind]
  cases x s <;> rfl

theorem within_apply (part : τ → σ) (put : σ → τ → τ) (x : Exec σ α) (t : τ) :
    within part put x t = match x (part t) with
      | .ok a s => .ok a (put s t)
      | .error e s => .error e (put s t) := rfl

theorem bind_eq_ok {β : Type} {x : Exec σ α} {f : α → Exec σ β} {s s' : σ} {a : α}
    (h : x s = .ok a s') : (x >>= f) s = f a s' := by
  rw [bind_apply, h]

theorem bind_eq_error {β : Type} {x : Exec σ α} {f : α → Exec σ β} {s s' : σ} {e : Fault}
    (h : x s = .error e s') : (x >>= f) s = .error e s' := by
  rw [bind_apply, h]

/-! ### Answers and what is left -/

section

variable {β : Type} (x : Exec σ α)

theorem answer_within (part : τ → σ) (put : σ → τ → τ) (t : τ) :
    (within part put x).answer t = x.answer (part t) := by
  unfold answer
  rw [within_apply]
  cases x (part t) <;> rfl

theorem after_within (part : τ → σ) (put : σ → τ → τ) (t : τ) :
    (within part put x).after t = put (x.after (part t)) t := by
  unfold after
  rw [within_apply]
  cases x (part t) <;> rfl

/-- An operation whose value is passed on in another form. -/
theorem answer_bind_pure (f : α → β) (s : σ) :
    (x >>= fun a => pure (f a)).answer s = (x.answer s).map f := by
  unfold answer
  rw [bind_apply]
  cases x s <;> rfl

theorem after_bind_pure (f : α → β) (s : σ) : (x >>= fun a => pure (f a)).after s = x.after s := by
  unfold after
  rw [bind_apply]
  cases x s <;> rfl

end

section

variable {x : Exec σ α} {s s' : σ} {a : α} {e : Fault}

theorem answer_of_ok (h : x s = .ok a s') : x.answer s = .ok a := by
  rw [answer, h]

theorem answer_of_error (h : x s = .error e s') : x.answer s = .error e := by
  rw [answer, h]

theorem after_of_ok (h : x s = .ok a s') : x.after s = s' := by
  rw [after, h]

theorem after_of_error (h : x s = .error e s') : x.after s = s' := by
  rw [after, h]

/-- An operation that answers with a fault has ended with that fault. -/
theorem eq_error_of_answer (h : x.answer s = .error e) : x s = .error e (x.after s) := by
  unfold answer at h
  unfold after
  cases hx : x s with
  | ok a s' =>
    rw [hx] at h
    cases h
  | error e' s' =>
    rw [hx] at h
    cases h
    rfl

/-- An operation that answers with a value has returned it. -/
theorem eq_ok_of_answer (h : x.answer s = .ok a) : x s = .ok a (x.after s) := by
  unfold answer at h
  unfold after
  cases hx : x s with
  | ok a' s' =>
    rw [hx] at h
    cases h
    rfl
  | error e s' =>
    rw [hx] at h
    cases h

end

end Exec

end Chip8
