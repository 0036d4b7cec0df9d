/-!
Programs that change a state, throw exceptions and may end the process.

`Exec S E α` runs on a state `S`. What was done to the state before an exception
stays done: the handler of `handle` starts from the state at the throw. An aborted
process runs no handler.

The equations `*_apply` evaluate a program at a state, one statement at a time;
they are the simp set of every program written here.
-/

namespace TokuMX.Lib

/-- How a call ends. -/
inductive Outcome (E α : Type) where
  | returned (value : α)
  | thrown (error : E)
  | aborted
deriving DecidableEq

/-- A program over the state `S` with exceptions in `E`. -/
def Exec (S E α : Type) : Type := S → Outcome E α × S

namespace Exec

variable {S E α β : Type}

/-- Run `next` on the result, when there is one. -/
def bind (program : Exec S E α) (next : α → Exec S E β) : Exec S E β := fun s =>
  match program s with
  | (.returned a, s') => next a s'
  | (.thrown e, s') => (.thrown e, s')
  | (.aborted, s') => (.aborted, s')

instance : Monad (Exec S E) where
  pure a := fun s => (.returned a, s)
  bind := bind

/-- `throw error`. -/
def throw (error : E) : Exec S E α := fun s => (.thrown error, s)

/-- End the process. -/
def abort : Exec S E α := fun s => (.aborted, s)

def get : Exec S E S := fun s => (.returned s, s)

def modify (f : S → S) : Exec S E Unit := fun s => (.returned (), f s)

/-- `try { program } catch { handler }`. -/
def handle (program : Exec S E α) (handler : E → Exec S E α) : Exec S E α := fun s =>
  match program s with
  | (.returned a, s') => (.returned a, s')
  | (.thrown e, s') => handler e s'
  | (.aborted, s') => (.aborted, s')

/-- Throw when `bad`. -/
def throwIf (bad : Bool) (error : E) : Exec S E Unit := if bad then throw error else pure ()

/-- `if (c) body`. -/
def when (c : Bool) (body : Exec S E Unit) : Exec S E Unit := if c then body else pure ()

/-- The result of a computation that may fail a check. -/
def ofOption (error : E) : Option α → Exec S E α
  | some a => pure a
  | none => throw error

variable {s : S}

@[simp] theorem pure_apply (a : α) : (pure a : Exec S E α) s = (.returned a, s) := rfl

@[simp] theorem bind_apply (program : Exec S E α) (next : α → Exec S E β) :
    (program >>= next) s =
      match program s with
      | (.returned a, s') => next a s'
      | (.thrown e, s') => (.thrown e, s')
      | (.aborted, s') => (.aborted, s') := rfl

@[simp] theorem throw_apply (error : E) : (throw error : Exec S E α) s = (.thrown error, s) := rfl

@[simp] theorem abort_apply : (abort : Exec S E α) s = (.aborted, s) := rfl

@[simp] theorem get_apply : (get : Exec S E S) s = (.returned s, s) := rfl

@[simp] theorem modify_apply (f : S → S) :
    (modify f : Exec S E Unit) s = (.returned (), f s) := rfl

@[simp] theorem handle_apply (program : Exec S E α) (handler : E → Exec S E α) :
    handle program handler s =
      match program s with
      | (.returned a, s') => (.returned a, s')
      | (.thrown e, s') => handler e s'
      | (.aborted, s') => (.aborted, s') := rfl

@[simp] theorem throwIf_true (error : E) : (throwIf true error : Exec S E Unit) = throw error := rfl

@[simp] theorem throwIf_false (error : E) : (throwIf false error : Exec S E Unit) = pure () := rfl

@[simp] theorem ofOption_some (error : E) (a : α) :
    (ofOption error (some a) : Exec S E α) = pure a := rfl

@[simp] theorem ite_apply {c : Prop} [Decidable c] (yes no : Exec S E α) :
    (if c then yes else no) s = if c then yes s else no s := by
  split <;> rfl

/-- A program that returns has returned from each of its statements. -/
theorem bind_eq_returned {program : Exec S E α} {next : α → Exec S E β} {b : β} {s' : S} :
    (program >>= next) s = (.returned b, s') ↔
      ∃ a t, program s = (.returned a, t) ∧ next a t = (.returned b, s') := by
  rw [bind_apply]
  rcases program s with ⟨a | _ | _, t⟩
  · constructor
    · exact fun rest => ⟨a, t, rfl, rest⟩
    · rintro ⟨_, _, ⟨rfl, rfl⟩, rest⟩
      exact rest
  · simp
  · simp

theorem throwIf_eq_returned {bad : Bool} {error : E} {u : Unit} {s' : S} :
    throwIf bad error s = (.returned u, s') ↔ bad = false ∧ s = s' := by
  cases bad <;> simp

theorem when_eq_returned {c : Bool} {body : Exec S E Unit} {u : Unit} {s' : S} :
    when c body s = (.returned u, s') ↔
      c = true ∧ body s = (.returned u, s') ∨ c = false ∧ s = s' := by
  cases c <;> simp [when]

end Exec

end TokuMX.Lib
