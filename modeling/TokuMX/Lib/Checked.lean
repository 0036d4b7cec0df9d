import Mathlib.Data.List.Forall2
import Mathlib.Data.Option.Basic
import Mathlib.Tactic.SplitIfs

/-!
Computations that stop at a failed check.

A function whose body asserts something is modelled in `Option`: `none` is the
run that stops there. `check c` is the assertion; `check_bind_eq_some` is its
inversion rule, so a proof takes a successful computation apart from the front
without unfolding it. `ensure c e` is the same for a function whose failures are
told apart: the run stops with the error `e`.
-/

namespace TokuMX.Lib

/-- Continue exactly when `c` holds. -/
def check (c : Prop) [Decidable c] : Option Unit := if c then some () else none

variable {α : Type} {c : Prop} [Decidable c]

@[simp] theorem check_eq_some {u : Unit} : check c = some u ↔ c := by
  unfold check
  split_ifs with h <;> simp [h]

@[simp] theorem check_bind_eq_some {f : Unit → Option α} {a : α} :
    (check c).bind f = some a ↔ c ∧ f () = some a := by
  unfold check
  split_ifs with h <;> simp [h]

/-- Continue exactly when `c` holds, and stop with `e` otherwise. -/
def ensure {ε : Type*} (c : Prop) [Decidable c] (e : ε) : Except ε Unit :=
  if c then .ok () else .error e

@[simp] theorem ensure_eq_ok {ε : Type*} {e : ε} {u : Unit} : ensure c e = .ok u ↔ c := by
  unfold ensure
  split_ifs with h <;> simp [h]

@[simp] theorem ensure_bind_eq_ok {ε : Type*} {β : Type} {e : ε} {f : Unit → Except ε β}
    {b : β} : (ensure c e >>= f) = .ok b ↔ c ∧ f () = .ok b := by
  unfold ensure
  split_ifs with h
  · simp [h, bind, Except.bind]
  · simp [h, bind, Except.bind]

theorem ensure_bind_of {ε : Type*} {β : Type} {e : ε} {f : Unit → Except ε β} (h : c) :
    (ensure c e >>= f) = f () := by
  simp [ensure, h, bind, Except.bind]

theorem ensure_bind_of_not {ε : Type*} {β : Type} {e : ε} {f : Unit → Except ε β} (h : ¬c) :
    (ensure c e >>= f) = .error e := by
  simp [ensure, h, bind, Except.bind]

/-- A loop of checks succeeds exactly when every one of them holds. -/
@[simp] theorem forM_ensure_eq_ok {ε β : Type*} {p : β → Prop} [DecidablePred p] {e : β → ε}
    {l : List β} {u : Unit} : (forM l fun b => ensure (p b) (e b)) = .ok u ↔ ∀ b ∈ l, p b := by
  induction l with
  | nil => simp [pure, Except.pure]
  | cons b bs ih => rw [List.forM_cons, ensure_bind_eq_ok, ih, List.forall_mem_cons]

theorem except_bind_eq_ok {ε : Type*} {β γ : Type} {x : Except ε β} {f : β → Except ε γ}
    {c : γ} : (x >>= f) = .ok c ↔ ∃ b, x = .ok b ∧ f b = .ok c := by
  cases x <;> simp [bind, Except.bind]

theorem except_bind_eq_error {ε : Type*} {β γ : Type} {x : Except ε β} {f : β → Except ε γ}
    {e : ε} : (x >>= f) = .error e ↔ x = .error e ∨ ∃ b, x = .ok b ∧ f b = .error e := by
  cases x <;> simp [bind, Except.bind]

/-- Every result of a list of computations is the result of one of them. -/
theorem mem_of_mapM {ε β γ : Type} {f : β → Except ε γ} {l : List β} {r : List γ}
    (result : l.mapM f = .ok r) {c : γ} (mem : c ∈ r) : ∃ b ∈ l, f b = .ok c := by
  induction l generalizing r with
  | nil =>
    cases result
    cases mem
  | cons b l ih =>
    rw [List.mapM_cons, except_bind_eq_ok] at result
    obtain ⟨c', first, result⟩ := result
    obtain ⟨r', rest, same⟩ := except_bind_eq_ok.mp result
    cases same
    rcases List.mem_cons.mp mem with rfl | later
    · exact ⟨b, List.mem_cons_self, first⟩
    · obtain ⟨b', mem', done⟩ := ih rest later
      exact ⟨b', List.mem_cons_of_mem _ mem', done⟩

/-- A list of computations that all succeed. -/
theorem forall₂_of_mapM {β γ : Type} {f : β → Option γ} {l : List β} {r : List γ}
    (result : l.mapM f = some r) : List.Forall₂ (fun b c => f b = some c) l r := by
  induction l generalizing r with
  | nil =>
    cases result
    exact .nil
  | cons b bs ih =>
    rw [List.mapM_cons] at result
    obtain ⟨c, first, rest⟩ := Option.bind_eq_some_iff.mp result
    obtain ⟨cs, tail, made⟩ := Option.bind_eq_some_iff.mp rest
    cases made
    exact .cons first (ih tail)

/-- Two lists related one after the other. -/
theorem forall₂_zip {α β γ : Type} {P : α → β → Prop} {R : α × β → γ → Prop} {l : List α}
    {m : List β} {n : List γ} (left : List.Forall₂ P l m)
    (right : List.Forall₂ R (l.zip m) n) :
    List.Forall₂ (fun a c => ∃ b, P a b ∧ R (a, b) c) l n := by
  induction left generalizing n with
  | nil =>
    cases right
    exact .nil
  | cons first _ ih =>
    cases right with
    | cons here rest => exact .cons ⟨_, first, here⟩ (ih rest)

theorem forall₂_left {α β : Type} {R : α → β → Prop} {l : List α} {m : List β}
    (all : List.Forall₂ R l m) {a : α} (mem : a ∈ l) : ∃ b, R a b := by
  induction all with
  | nil => cases mem
  | cons first _ ih =>
    rcases List.mem_cons.mp mem with rfl | mem
    · exact ⟨_, first⟩
    · exact ih mem

/-- A loop that may stop with an error keeps what each of its rounds keeps. -/
theorem foldlM_invariant {ε β γ : Type} {f : β → γ → Except ε β} {P : β → Prop} {l : List γ}
    {b r : β} (result : l.foldlM f b = .ok r) (start : P b)
    (step : ∀ x ∈ l, ∀ a c, P a → f a x = .ok c → P c) : P r := by
  induction l generalizing b with
  | nil =>
    cases result
    exact start
  | cons x xs ih =>
    rw [List.foldlM_cons, except_bind_eq_ok] at result
    obtain ⟨a, first, rest⟩ := result
    refine ih rest (step x (.head _) b a start first) fun y hy => step y (.tail _ hy)

/-- A loop that no round can stop with the error does not end with it. -/
theorem foldlM_ne_error {ε β γ : Type} {f : β → γ → Except ε β} {e : ε} {l : List γ} {b : β}
    (step : ∀ x ∈ l, ∀ a, f a x ≠ .error e) : l.foldlM f b ≠ .error e := by
  induction l generalizing b with
  | nil => exact nofun
  | cons x xs ih =>
    rw [List.foldlM_cons]
    cases first : f b x with
    | error e' =>
      intro same
      exact step x (.head _) b (first.trans same)
    | ok a => exact ih fun y hy => step y (.tail _ hy)

end TokuMX.Lib
