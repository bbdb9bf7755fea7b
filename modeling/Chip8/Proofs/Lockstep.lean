import Chip8.Exec

/-!
# The same operation on two states

An operation that is done on two related states may end in the same way on both, with the
same answer, and leave related states again. `Lockstep` says this of the two results. It goes
through whatever operations are made of, so what an operation does to related states follows
from what its parts do to them.
-/

namespace Chip8.Exec

variable {σ α β : Type} {R : σ → σ → Prop}

/-- Both operations return the same or fault alike, and the states that they leave are related. -/
inductive Lockstep (R : σ → σ → Prop) :
    EStateM.Result Fault σ α → EStateM.Result Fault σ α → Prop
  /-- Both return the same. -/
  | ok {a : α} {s t : σ} (h : R s t) : Lockstep R (.ok a s) (.ok a t)
  /-- Both fault alike. -/
  | error {e : Fault} {s t : σ} (h : R s t) : Lockstep R (.error e s) (.error e t)

namespace Lockstep

variable {x : Exec σ α} {s t : σ}

theorem answer (h : Lockstep R (x s) (x t)) : x.answer s = x.answer t := by
  unfold Exec.answer
  generalize x s = r at h ⊢
  generalize x t = r' at h ⊢
  cases h with
  | ok _ => rfl
  | error _ => rfl

theorem after (h : Lockstep R (x s) (x t)) : R (x.after s) (x.after t) := by
  unfold Exec.after
  generalize x s = r at h ⊢
  generalize x t = r' at h ⊢
  cases h with
  | ok h => exact h
  | error h => exact h

/-- What follows has to be in step only on the states that the first operation leaves. -/
theorem bind {f : α → Exec σ β} (h : Lockstep R (x s) (x t))
    (hf : ∀ a s' t', x s = .ok a s' → R s' t' → Lockstep R (f a s') (f a t')) :
    Lockstep R ((x >>= f) s) ((x >>= f) t) := by
  rw [bind_apply, bind_apply]
  generalize hs : x s = r at h hf
  generalize x t = r' at h
  cases h with
  | ok h => exact hf _ _ _ rfl h
  | error h => exact .error h

/-- So has a handler on those that a fault leaves. -/
theorem tryCatch {handler : Fault → Exec σ α} (h : Lockstep R (x s) (x t))
    (hhandler : ∀ e s' t', R s' t' → Lockstep R (handler e s') (handler e t')) :
    Lockstep R (MonadExcept.tryCatch x handler s) (MonadExcept.tryCatch x handler t) := by
  rw [tryCatch_apply, tryCatch_apply]
  generalize x s = r at h
  generalize x t = r' at h
  cases h with
  | ok h => exact .ok h
  | error h => exact hhandler _ _ _ h

end Lockstep

end Chip8.Exec
