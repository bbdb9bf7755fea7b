import Chip8.Proofs.Commands

/-!
# What operations keep

An operation keeps a property if what it leaves has it whenever what it is given does, whether it
returns or faults. What is put together from operations that keep a property keeps it too, so only
the parts have to be looked at, and a fault in between makes no difference.

Commands that only look keep every property, which is to say that they change nothing. Commands that
only report keep all that does not depend on the journal.

* `Keeps.bind`, `Keeps.tryCatch` and `Keeps.within`: operations that are put together.
* `Board.keeps_push` to `Board.keeps_execute`: what changes the bank keeps its size.
* `keeps_of_looks` and `keeps_of_reports`: commands that do not change the board.
-/

namespace Chip8

/-! ### What operations keep -/

namespace Exec

variable {σ τ α β : Type} {P : σ → Prop} {Q : τ → Prop}

/-- The operation keeps the property, whether it returns or faults. -/
def Keeps (P : σ → Prop) (x : Exec σ α) : Prop := ∀ s, P s → P (x.after s)

theorem keeps_pure (a : α) : Keeps P (pure a : Exec σ α) := fun _ h => h

theorem keeps_throw (e : Fault) : Keeps P (throw e : Exec σ α) := fun _ h => h

theorem keeps_get : Keeps P (get : Exec σ σ) := fun _ h => h

theorem keeps_modify {f : σ → σ} (hf : ∀ s, P s → P (f s)) : Keeps P (modify f : Exec σ Unit) := hf

theorem Keeps.bind {x : Exec σ α} {f : α → Exec σ β} (hx : Keeps P x) (hf : ∀ a, Keeps P (f a)) :
    Keeps P (x >>= f) := by
  intro s h
  have hmid := hx s h
  unfold after at hmid ⊢
  rw [bind_apply]
  cases hxs : x s with
  | ok a s' =>
    rw [hxs] at hmid
    exact hf a s' hmid
  | error e s' =>
    rw [hxs] at hmid
    exact hmid

/-- An operation whose answer is passed on. -/
theorem Keeps.replying {x : Exec σ α} (hx : Keeps P x) (f : α → β) : Keeps P (x >>= fun a => pure (f a)) :=
  hx.bind fun a => keeps_pure (f a)

/-- A handler goes on from what the fault has left. -/
theorem Keeps.tryCatch {x : Exec σ α} {handler : Fault → Exec σ α} (hx : Keeps P x)
    (hhandler : ∀ e, Keeps P (handler e)) : Keeps P (MonadExcept.tryCatch x handler) := by
  intro s h
  have hmid := hx s h
  unfold after at hmid ⊢
  rw [tryCatch_apply]
  cases hxs : x s with
  | ok a s' =>
    rw [hxs] at hmid
    exact hmid
  | error e s' =>
    rw [hxs] at hmid
    exact hhandler e s' hmid

theorem Keeps.mapM {f : α → Exec σ β} (hf : ∀ a, Keeps P (f a)) (as : List α) : Keeps P (as.mapM f) := by
  induction as with
  | nil => exact keeps_pure []
  | cons a as ih =>
    rw [List.mapM_cons]
    exact (hf a).bind fun b => ih.replying (b :: ·)

/-- An operation that only looks at a part. -/
theorem Keeps.looking {x : Exec σ α} {part : τ → σ} {put : σ → τ → τ} (hx : ∀ s, Keeps (· = s) x)
    (hput : ∀ t, put (part t) t = t) : Keeps Q (within part put x) := by
  intro t h
  rw [after_within, hx (part t) (part t) rfl, hput]
  exact h

/-- An operation on a part. -/
theorem Keeps.within {x : Exec σ α} {part : τ → σ} {put : σ → τ → τ} (hx : Keeps P x)
    (hpart : ∀ t, Q t → P (part t)) (hput : ∀ s t, P s → Q t → Q (put s t)) :
    Keeps Q (within part put x) := by
  intro t h
  rw [after_within]
  exact hput _ t (hx _ (hpart t h)) h

end Exec

open Exec

/-! ### The size of the bank -/

namespace Memory

variable {P : Memory → Prop} {n : Int}

theorem keeps_check (a : Int) : Keeps P (check a) := by
  refine keeps_get.bind fun m => ?_
  split
  · exact keeps_pure ()
  · exact keeps_throw _

theorem keeps_read (a : Int) : Keeps P (read a) :=
  (keeps_check a).bind fun _ => keeps_get.replying _

theorem keeps_readWord (a : Int) : Keeps P (readWord a) :=
  (keeps_read a).bind fun _ => (keeps_read (a + 1)).replying _

theorem keeps_readBlock (a size : Int) : Keeps P (readBlock a size) := by
  refine (keeps_check a).bind fun _ => ?_
  split
  · exact (keeps_check _).bind fun _ => keeps_get.replying _
  · exact keeps_get.replying _

theorem keeps_size_write (a b : Int) : Keeps (·.size = n) (write a b) :=
  (keeps_check a).bind fun _ => keeps_modify fun _ h => size_setByte.trans h

theorem keeps_size_writeBlock (a : Int) (block : List UInt8) : Keeps (·.size = n) (writeBlock a block) := by
  have hlay : Keeps (·.size = n) (modify (·.setBlock a block) : Exec Memory Unit) :=
    keeps_modify fun _ h => (size_setBlock block).trans h
  refine (keeps_check a).bind fun _ => ?_
  split
  · exact (keeps_check _).bind fun _ => hlay
  · exact hlay

theorem keeps_size_writeWord (a w : Int) : Keeps (·.size = n) (writeWord a w) :=
  (keeps_check _).bind fun _ => (keeps_size_write a _).bind fun _ => keeps_size_write (a + 1) _

end Memory

namespace Registers

variable {P : Registers → Prop}

theorem keeps_find (index : Int) : Keeps P (find index) := by
  unfold find
  split
  · exact keeps_pure _
  · exact keeps_throw _

theorem keeps_read (index : Int) : Keeps P (read index) :=
  (keeps_find index).bind fun _ => keeps_get.replying _

end Registers

namespace Board

variable {n : Int} {α : Type}

/-- The bank of the board has this size. -/
def Sized (n : Int) (b : Board) : Prop := b.memory.size = n

theorem keeps_onMemory {x : Exec Memory α} (hx : Keeps (·.size = n) x) : Keeps (Sized n) (onMemory x) :=
  hx.within (fun _ h => h) fun _ _ h _ => h

theorem keeps_onRegisters (x : Exec Registers α) : Keeps (Sized n) (onRegisters x) :=
  Keeps.within (P := fun _ => True) (fun _ _ => trivial) (fun _ _ => trivial) fun _ _ _ h => h

theorem keeps_move (f : Registers → Registers) : Keeps (Sized n) (move f) := keeps_modify fun _ h => h

theorem keeps_replaceStack (stack : CallStack) : Keeps (Sized n) (replaceStack stack) :=
  keeps_modify fun _ h => h

theorem keeps_push (address : Int) : Keeps (Sized n) (push address) := by
  refine keeps_get.bind fun b => ?_
  split
  · split
    · exact (keeps_throw _).bind fun _ => (keeps_move _).bind fun _ => keeps_replaceStack _
    · exact (keeps_move _).bind fun _ => keeps_replaceStack _
  · exact (keeps_move _).bind fun _ => keeps_get.bind fun _ => keeps_onMemory (Memory.keeps_size_writeWord _ _)

theorem keeps_pop : Keeps (Sized n) pop := by
  refine keeps_get.bind fun b => ?_
  split
  · split
    · exact keeps_throw _
    · exact (keeps_replaceStack _).bind fun _ => (keeps_move _).replying _
  · refine keeps_get.bind fun _ => (Keeps.looking (fun _ => ?_) fun _ => rfl).bind fun _ =>
      (keeps_move _).replying _
    exact Memory.keeps_readWord _

theorem keeps_savedAddresses {P : Board → Prop} : Keeps P savedAddresses := by
  refine keeps_get.bind fun b => ?_
  split
  · exact keeps_pure _
  · refine keeps_get.bind fun _ => Keeps.mapM (fun _ => (Keeps.looking (fun _ => ?_) fun _ => rfl).replying _) _
    exact Memory.keeps_readWord _

theorem keeps_execute (all : Bool) (i : Instruction) : Keeps (Sized n) (execute all i) := by
  intro b h
  have htop := top_after_execute all b i
  rw [Memory.top_def, Memory.top_def] at htop
  unfold Sized at h ⊢
  omega

end Board

namespace Machine

variable {m : Machine} {n : Int} {α : Type}

/-! ### Looking and reporting -/

section

variable {P : Machine → Prop}

/-- An operation that only looks into the bank. -/
theorem keeps_of_memory_looking {x : Exec Memory α} (hx : ∀ c, Keeps (· = c) x) : Keeps P (onMemory x) :=
  Keeps.looking (fun _ => Keeps.looking hx fun _ => rfl) fun _ => rfl

/-- An operation that only looks at the registers. -/
theorem keeps_of_registers_looking {x : Exec Registers α} (hx : ∀ r, Keeps (· = r) x) : Keeps P (onRegisters x) :=
  Keeps.looking (fun _ => Keeps.looking hx fun _ => rfl) fun _ => rfl

theorem keeps_savedAddresses : Keeps P (onBoard Board.savedAddresses) :=
  Keeps.looking (fun _ => Board.keeps_savedAddresses) fun _ => rfl

theorem keeps_fetch : Keeps P fetch :=
  keeps_get.bind fun _ => keeps_of_memory_looking fun _ => Memory.keeps_readWord _

theorem keeps_describe (label : String) (full : Bool) : Keeps P (describe label full) := by
  refine keeps_get.bind fun _ => ?_
  cases full with
  | false => exact keeps_pure _
  | true => exact keeps_savedAddresses.replying _

variable (hjournal : ∀ m j, P m → P { m with journal := j })

include hjournal in
theorem keeps_changeJournal (f : Journal → Journal) : Keeps P (changeJournal f) :=
  keeps_modify fun m h => hjournal m (f m.journal) h

include hjournal in
theorem keeps_reportCrash (reason : String) : Keeps P (reportCrash reason) :=
  (keeps_changeJournal hjournal _).bind fun _ => keeps_savedAddresses.bind fun _ =>
    keeps_get.bind fun _ => keeps_changeJournal hjournal _

end

/-- The command changes nothing. -/
def Command.looks : Command → Bool
  | .readByte _ | .readWord _ | .readBlock _ _ | .checkRegister _ | .readRegister _ | .savedAddresses | .fetch
  | .tracing | .describe _ _ => true
  | _ => false

/-- The command only adds to the journal or changes its setting. -/
def Command.reports : Command → Bool
  | .setTracing _ | .note _ | .reportCrash _ | .list _ _ => true
  | _ => false

theorem keeps_of_looks {P : Machine → Prop} (fuel : Nat) {c : Command} (hc : c.looks = true) :
    Keeps P (perform fuel c) := by
  cases c with
  | readByte a => exact (keeps_of_memory_looking fun _ => Memory.keeps_read a).replying _
  | readWord a => exact (keeps_of_memory_looking fun _ => Memory.keeps_readWord a).replying _
  | readBlock a size => exact (keeps_of_memory_looking fun _ => Memory.keeps_readBlock a size).replying _
  | checkRegister index => exact (keeps_of_registers_looking fun _ => Registers.keeps_find index).replying _
  | readRegister index => exact (keeps_of_registers_looking fun _ => Registers.keeps_read index).replying _
  | savedAddresses => exact keeps_savedAddresses.replying _
  | fetch => exact keeps_fetch.replying _
  | tracing => exact keeps_get.replying _
  | describe label full => exact (keeps_describe label full).replying _
  | _ => cases hc

theorem keeps_of_reports {P : Machine → Prop} (hjournal : ∀ m j, P m → P { m with journal := j }) (fuel : Nat)
    {c : Command} (hc : c.reports = true) : Keeps P (perform fuel c) := by
  cases c with
  | setTracing | list => exact (keeps_changeJournal hjournal _).replying _
  | note label => exact keeps_get.bind fun _ => (keeps_changeJournal hjournal _).replying _
  | reportCrash reason => exact (keeps_reportCrash hjournal reason).replying _
  | _ => cases hc

end Machine

end Chip8
