import Mathlib.Data.List.Basic
import Mathlib.Data.List.Sort

/-!
Cursors: states with a current element, until they are exhausted, and a move to the next.

* `Yields` — iterating from a state comes to an end, with these elements.
* `Yields.of_left` — the rule: if a list says what is left in each state, that is what is yielded.
-/

namespace TokuMX.Lib

variable {C α : Type}

/-- Iterating from a state gives these elements and comes to an end. -/
inductive Yields (current : C → Option α) (advance : C → C) : C → List α → Prop
  | done {c : C} (exhausted : current c = none) : Yields current advance c []
  | more {c : C} {a : α} {l : List α} (here : current c = some a)
      (rest : Yields current advance (advance c) l) : Yields current advance c (a :: l)

namespace Yields

variable {current : C → Option α} {advance : C → C} {c : C} {l l' : List α}

theorem unique (yields : Yields current advance c l) (yields' : Yields current advance c l') :
    l = l' := by
  induction yields generalizing l' with
  | done exhausted =>
    cases yields' with
    | done _ => rfl
    | more here _ => simp [exhausted] at here
  | more here _ ih =>
    cases yields' with
    | done exhausted => simp [exhausted] at here
    | more here' rest =>
      rw [here, Option.some.injEq] at here'
      rw [here', ih rest]

/-- What is left of a cursor is what it yields. -/
theorem of_left {left : C → List α} {Inv : C → Prop}
    (head : ∀ c, Inv c → current c = (left c).head?)
    (tail : ∀ c, Inv c → left (advance c) = (left c).tail)
    (keeps : ∀ c, Inv c → Inv (advance c)) (inv : Inv c) : Yields current advance c (left c) := by
  generalize rows : left c = l
  induction l generalizing c with
  | nil => exact .done (by rw [head c inv, rows]; rfl)
  | cons a l ih =>
    refine .more (by rw [head c inv, rows]; rfl) (ih (keeps c inv) ?_)
    rw [tail c inv, rows]
    rfl

end Yields

section Sorted

variable {R : α → α → Prop} {p : α → Bool} {l : List α}

theorem dropWhile_eq_filter (sorted : l.Pairwise R) (closed : ∀ a b, R a b → p b → p a) :
    l.dropWhile p = l.filter fun a => !p a := by
  induction l with
  | nil => rfl
  | cons a l ih =>
    obtain ⟨first, rest⟩ := List.pairwise_cons.mp sorted
    cases before : p a
    · have after : ∀ b ∈ l, (!p b) = true := fun b mem => by
        cases here : p b
        · rfl
        · simp [closed a b (first b mem) here] at before
      simp [before, List.filter_eq_self.mpr after]
    · simp [before, ih rest]

theorem takeWhile_eq_filter (sorted : l.Pairwise R) (closed : ∀ a b, R a b → p b → p a) :
    l.takeWhile p = l.filter p := by
  induction l with
  | nil => rfl
  | cons a l ih =>
    obtain ⟨first, rest⟩ := List.pairwise_cons.mp sorted
    cases before : p a
    · have after : ∀ b ∈ l, ¬ p b := fun b mem here => by
        simp [closed a b (first b mem) here] at before
      simp [before, List.filter_eq_nil_iff.mpr after]
    · simp [before, ih rest]

end Sorted

section Parts

theorem flatMap_filter_of_nil {β : Type} {p : β → Bool} {f : β → List α} {l : List β}
    (nothing : ∀ b ∈ l, p b = false → f b = []) : (l.filter p).flatMap f = l.flatMap f := by
  induction l with
  | nil => rfl
  | cons b l ih =>
    have rest := ih fun c mem => nothing c (List.mem_cons_of_mem b mem)
    cases here : p b
    · simp [here, rest, nothing b List.mem_cons_self here]
    · simp [here, rest]

theorem flatMap_range_getElem? {β : Type} (f : β → List α) (l : List β) :
    ((List.range l.length).flatMap fun i => l[i]?.elim [] f) = l.flatMap f := by
  induction l with
  | nil => rfl
  | cons b l ih =>
    rw [List.length_cons, List.range_succ_eq_map, List.flatMap_cons, List.flatMap_map]
    simp only [List.getElem?_cons_zero, Option.elim_some, List.getElem?_cons_succ, ih,
      List.flatMap_cons]

/-- The numbers from `s` to `e` among the first `n`. -/
theorem filter_range_between {s e n : Nat} (lt : e < n) :
    ((List.range n).filter fun i => s ≤ i ∧ i ≤ e) = List.range' s (e + 1 - s) := by
  have sorted : ((List.range n).filter fun i => s ≤ i ∧ i ≤ e).Pairwise (· < ·) :=
    List.pairwise_lt_range.filter _
  refine List.Perm.eq_of_pairwise (fun a b _ _ less greater => absurd less (lt_asymm greater))
    sorted List.pairwise_lt_range' ?_
  refine (List.perm_ext_iff_of_nodup (sorted.imp (·.ne)) (List.nodup_range')).mpr fun i => ?_
  simp only [List.mem_filter, List.mem_range, decide_eq_true_eq, List.mem_range'_1]
  omega

end Parts

end TokuMX.Lib
