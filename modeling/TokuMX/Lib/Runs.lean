import Mathlib.Data.List.Induction
import Mathlib.Order.Basic

/-!
Finite runs of a labelled step relation.

A run is a list of labels together with the two states it connects. Safety
results come in a few shapes, and each has one rule here:

* `Run.invariant` — a predicate every step preserves holds in every state a run
  reaches from a state where it holds;
* `Run.history` — the same for a predicate that also reads the labels consumed
  so far, for properties stated over the trace and not over the state;
* `Run.monotone` — a quantity no step decreases is monotone along runs;
* `Run.length_le` — a number every step lowers bounds the length of runs.

`Run.append_iff` and `Run.snoc_iff` cut a run at any point, so a statement about
two moments of one run is a statement about two runs that share a state.
-/

namespace TokuMX.Lib

universe u v

variable {S : Type u} {E : Type v}

/-- `Run step s es t`: the labels `es`, taken in order, lead from `s` to `t`. -/
inductive Run (step : S → E → S → Prop) : S → List E → S → Prop where
  | nil (s : S) : Run step s [] s
  | cons {s t r : S} {e : E} {es : List E} :
      step s e t → Run step t es r → Run step s (e :: es) r

namespace Run

variable {step : S → E → S → Prop} {s t r : S} {e : E} {es fs : List E}

@[simp] theorem nil_iff : Run step s [] t ↔ s = t := by
  constructor
  · intro run
    cases run
    rfl
  · rintro rfl
    exact .nil s

theorem cons_iff : Run step s (e :: es) t ↔ ∃ m, step s e m ∧ Run step m es t := by
  constructor
  · intro run
    cases run with
    | cons first rest => exact ⟨_, first, rest⟩
  · rintro ⟨m, first, rest⟩
    exact .cons first rest

theorem append (left : Run step s es t) (right : Run step t fs r) :
    Run step s (es ++ fs) r := by
  induction left with
  | nil => exact right
  | cons first _ ih => exact .cons first (ih right)

theorem append_iff : Run step s (es ++ fs) r ↔ ∃ m, Run step s es m ∧ Run step m fs r := by
  constructor
  · intro run
    induction es generalizing s with
    | nil => exact ⟨s, .nil s, run⟩
    | cons e es ih =>
      obtain ⟨m, first, rest⟩ := cons_iff.mp run
      obtain ⟨k, left, right⟩ := ih rest
      exact ⟨k, .cons first left, right⟩
  · rintro ⟨m, left, right⟩
    exact left.append right

theorem snoc_iff : Run step s (es ++ [e]) r ↔ ∃ m, Run step s es m ∧ step m e r := by
  simp [append_iff, cons_iff]

/-- A predicate every step preserves holds at the end of every run. -/
theorem invariant {P : S → Prop} (run : Run step s es t)
    (preserved : ∀ a e b, P a → step a e b → P b) (start : P s) : P t := by
  induction run with
  | nil => exact start
  | cons first _ ih => exact ih (preserved _ _ _ start first)

/-- The rule for predicates that read the trace: `P es t` speaks about the labels
consumed so far and the state they lead to. -/
theorem history {P : List E → S → Prop} (run : Run step s es t) (start : P [] s)
    (preserved : ∀ past a e b, Run step s past a → P past a → step a e b →
      P (past ++ [e]) b) : P es t := by
  induction es using List.reverseRecOn generalizing t with
  | nil =>
    rw [nil_iff] at run
    exact run ▸ start
  | append_singleton past e ih =>
    obtain ⟨a, before, last⟩ := snoc_iff.mp run
    exact preserved past a e t before (ih before) last

/-- A quantity that no step decreases is monotone along runs. The steps are only
asked about from states where `P` holds. -/
theorem monotone {P : S → Prop} {α : Type*} [Preorder α] {f : S → α}
    (run : Run step s es t) (preserved : ∀ a e b, P a → step a e b → P b)
    (up : ∀ a e b, P a → step a e b → f a ≤ f b) (start : P s) : f s ≤ f t := by
  induction run with
  | nil => exact le_rfl
  | cons first _ ih =>
    exact (up _ _ _ start first).trans (ih (preserved _ _ _ start first))

/-- A number that every step lowers bounds the length of runs. -/
theorem length_le {P : S → Prop} {f : S → Nat} (run : Run step s es t)
    (preserved : ∀ a e b, P a → step a e b → P b)
    (down : ∀ a e b, P a → step a e b → f b < f a) (start : P s) : es.length + f t ≤ f s := by
  induction run with
  | nil => simp
  | cons first _ ih =>
    have less := down _ _ _ start first
    have rest := ih (preserved _ _ _ start first)
    rw [List.length_cons]
    omega

end Run

end TokuMX.Lib
