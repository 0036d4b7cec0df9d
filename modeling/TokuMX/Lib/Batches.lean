import Mathlib.Data.List.Basic

/-!
Reading a list in batches.

A reader is a function from a position to the next position and a batch. `sent` is what the
first calls return together.

* `Delivers.of_left` — a reader delivers a list if every batch is the front of what is left at
  its position, and is not empty while something is left.
-/

namespace TokuMX.Lib.Batches

universe u v

variable {S : Type u} {α : Type v} (next : S → S × List α)

/-- The position after `n` calls. -/
def after : Nat → S → S
  | 0, s => s
  | n + 1, s => (next (after n s)).1

/-- What `n` calls return. -/
def sent : Nat → S → List α
  | 0, _ => []
  | n + 1, s => sent n s ++ (next (after next n s)).2

/-- Every object is sent once, in order, and no call is in vain before the end. -/
structure Delivers (s : S) (all : List α) : Prop where
  ordered : ∀ n, sent next n s <+: all
  progress : ∀ n, sent next n s ≠ all → (next (after next n s)).2 ≠ []
  complete : ∃ n, sent next n s = all

variable {next} {s : S} {all front rest : List α} {x y : α} {n : Nat}

theorem after_add (n m : Nat) (s : S) : after next (n + m) s = after next m (after next n s) := by
  induction m with
  | zero => rfl
  | succ m ih => rw [Nat.add_succ, after, ih, after]

theorem sent_add (n m : Nat) (s : S) :
    sent next (n + m) s = sent next n s ++ sent next m (after next n s) := by
  induction m with
  | zero => simp [sent]
  | succ m ih => rw [Nat.add_succ, sent, ih, sent, after_add, List.append_assoc]

section

variable {left : S → List α}

theorem sent_append_left
    (step : ∀ n, (next (after next n s)).2 ++ left (after next (n + 1) s) = left (after next n s))
    (n : Nat) : sent next n s ++ left (after next n s) = left s := by
  induction n with
  | zero => rfl
  | succ n ih => rw [sent, List.append_assoc, step n, ih]

theorem Delivers.of_left
    (step : ∀ n, (next (after next n s)).2 ++ left (after next (n + 1) s) = left (after next n s))
    (progress : ∀ n, left (after next n s) ≠ [] → (next (after next n s)).2 ≠ []) :
    Delivers next s (left s) := by
  have parts := sent_append_left step
  -- each call takes something off what is left
  have shrinks : ∀ n, (left (after next n s)).length ≤ (left s).length - n := by
    intro n
    induction n with
    | zero => exact Nat.le_refl _
    | succ n ih =>
      have total := congrArg List.length (step n)
      rw [List.length_append] at total
      by_cases none : left (after next n s) = []
      · rw [none, List.length_nil] at total
        omega
      · have some := List.length_pos_iff.mpr (progress n none)
        have before := List.length_pos_iff.mpr none
        omega
  refine ⟨fun n => ⟨_, parts n⟩, ?_, (left s).length, ?_⟩
  · intro n unfinished
    apply progress n
    intro none
    apply unfinished
    rw [← parts n, none, List.append_nil]
  · have none : left (after next (left s).length s) = [] :=
      List.length_eq_zero_iff.mp (by simpa using shrinks (left s).length)
    have whole := parts (left s).length
    rwa [none, List.append_nil] at whole

end

theorem Delivers.head_eq {more : List α} (delivers : Delivers next s all)
    (split : all = front ++ x :: rest) (sends : sent next n s = front ++ y :: more) : y = x := by
  have ordered := delivers.ordered n
  rw [split, sends, List.prefix_append_right_inj] at ordered
  exact (List.cons_prefix_cons.mp ordered).1

theorem Delivers.sent_later (delivers : Delivers next s all)
    (split : all = sent next n s ++ x :: rest) : ∃ m, x ∈ sent next m (after next n s) := by
  obtain ⟨m, finished⟩ := delivers.complete
  refine ⟨m, ?_⟩
  -- nothing follows once all is sent
  have still : sent next (n + m) s = all := by
    refine (delivers.ordered (n + m)).eq_of_length_le ?_
    rw [← finished, Nat.add_comm, sent_add, List.length_append]
    exact Nat.le_add_right _ _
  rw [sent_add, split, List.append_cancel_left_eq] at still
  rw [still]
  exact List.mem_cons_self

end TokuMX.Lib.Batches
