import Mathlib.Data.Int.Order.Basic
import Mathlib.Data.Set.Defs
import Mathlib.Tactic.SplitIfs

/-!
Comparing compound keys field by field, some fields descending.

`decides` takes the results of the single fields to the result for the key: the first that
is not zero, negated if its field descends. Two ways of comparing fields order keys alike
in every direction exactly when they agree on each field as long as the fields before it
are equal (`agree_iff`): whichever of them does not see a difference leaves the decision to
later fields, whose direction is independent.
-/

namespace TokuMX.Lib

/-- The result for a key whose fields, from the `i`-th on, compare as `results`. -/
def decides (descends : Nat → Bool) : Nat → List Int → Int
  | _, [] => 0
  | i, x :: results =>
    if x ≠ 0 then (if descends i then -x else x) else decides descends (i + 1) results

/-- The same signs, as long as the second list's results are zero. -/
def Matches : List Int → List Int → Prop
  | x :: xs, y :: ys => x.sign = y.sign ∧ (y = 0 → Matches xs ys)
  | _, _ => True

variable {descends other : Nat → Bool} {i : Nat} {x y : Int} {xs ys : List Int}

theorem decides_cons_zero (zero : x = 0) :
    decides descends i (x :: xs) = decides descends (i + 1) xs := by
  rw [decides, if_neg (not_not.mpr zero)]

theorem sign_decides_cons (nonzero : x ≠ 0) :
    (decides descends i (x :: xs)).sign = if descends i then -x.sign else x.sign := by
  rw [decides, if_pos nonzero]
  split_ifs
  · exact Int.sign_neg x
  · rfl

theorem sign_decides_head (same : x.sign = y.sign) :
    (decides descends i (x :: xs)).sign = (decides descends i (y :: xs)).sign := by
  by_cases zero : y = 0
  · have zero' : x = 0 := by simpa [zero] using same
    rw [zero, zero']
  · have nonzero : x ≠ 0 := fun zero' => zero (by simpa [zero', eq_comm] using same)
    rw [sign_decides_cons zero, sign_decides_cons nonzero, same]

theorem decides_congr (same : ∀ k, i ≤ k → descends k = other k) :
    decides descends i xs = decides other i xs := by
  induction xs generalizing i with
  | nil => rfl
  | cons x xs ih =>
    rw [decides, decides, same i (Nat.le_refl i), ih fun k le => same k (by omega)]

theorem sign_decides_of_matches (length : xs.length = ys.length) (agree : Matches xs ys) :
    (decides descends i xs).sign = (decides descends i ys).sign := by
  induction xs generalizing ys i with
  | nil =>
    cases ys with
    | nil => rfl
    | cons y ys => simp at length
  | cons x xs ih =>
    cases ys with
    | nil => simp at length
    | cons y ys =>
      obtain ⟨here, later⟩ := agree
      rw [sign_decides_head here]
      by_cases zero : y = 0
      · rw [decides_cons_zero zero, decides_cons_zero zero]
        exact ih (by simpa using length) (later zero)
      · rw [sign_decides_cons zero, sign_decides_cons zero]

/-- A field that only one side sees a difference in, seen from both directions. -/
theorem eq_zero_of_undecided {directions : Set (Nat → Bool)}
    (ascending : (fun _ => false) ∈ directions) (single : (fun k => decide (k = i)) ∈ directions)
    (agree : ∀ descends ∈ directions,
      (decides descends (i + 1) xs).sign = (decides descends i (y :: ys)).sign) : y = 0 := by
  by_contra nonzero
  have up := agree _ ascending
  have down := agree _ single
  have rest : decides (fun k => decide (k = i)) (i + 1) xs = decides (fun _ => false) (i + 1) xs :=
    decides_congr fun k above => decide_eq_false (by omega)
  rw [sign_decides_cons nonzero] at up down
  rw [rest, up] at down
  simp only [Bool.false_eq_true, if_false, decide_true, if_true] at down
  have := Int.sign_eq_zero_iff_zero.not.mpr nonzero
  omega

theorem matches_of_agree {directions : Set (Nat → Bool)} (length : xs.length = ys.length)
    (ascending : (fun _ => false) ∈ directions)
    (single : ∀ k, i ≤ k → k < i + ys.length → (fun j => decide (j = k)) ∈ directions)
    (agree : ∀ descends ∈ directions,
      (decides descends i xs).sign = (decides descends i ys).sign) : Matches xs ys := by
  induction xs generalizing ys i with
  | nil => trivial
  | cons x xs ih =>
    cases ys with
    | nil => trivial
    | cons y ys =>
      simp only [List.length_cons] at length single
      have here : (fun j => decide (j = i)) ∈ directions := single i (Nat.le_refl i) (by omega)
      by_cases zero : x = 0
      · have undecided : ∀ descends ∈ directions,
            (decides descends (i + 1) xs).sign = (decides descends i (y :: ys)).sign := by
          intro descends mem
          rw [← agree descends mem, decides_cons_zero zero]
        have zero' : y = 0 := eq_zero_of_undecided ascending here undecided
        refine ⟨by rw [zero, zero'], fun _ => ih (i := i + 1) (by omega) ?_ ?_⟩
        · intro k above below
          exact single k (by omega) (by omega)
        · intro descends mem
          rw [undecided descends mem, decides_cons_zero zero']
      · by_cases zero' : y = 0
        · have undecided : ∀ descends ∈ directions,
              (decides descends (i + 1) ys).sign = (decides descends i (x :: xs)).sign := by
            intro descends mem
            rw [agree descends mem, decides_cons_zero zero']
          exact absurd (eq_zero_of_undecided ascending here undecided) zero
        · have signs := agree _ ascending
          rw [sign_decides_cons zero, sign_decides_cons zero'] at signs
          exact ⟨by simpa using signs, fun absurdly => absurd absurdly zero'⟩

/-- Two ways of comparing fields order keys alike in every direction exactly when they agree
as long as fields are equal. -/
theorem agree_iff {directions : Set (Nat → Bool)} (length : xs.length = ys.length)
    (ascending : (fun _ => false) ∈ directions)
    (single : ∀ k < ys.length, (fun j => decide (j = k)) ∈ directions) :
    (∀ descends ∈ directions, (decides descends 0 xs).sign = (decides descends 0 ys).sign) ↔
      Matches xs ys := by
  constructor
  · intro agree
    exact matches_of_agree length ascending (fun k _ below => single k (by omega)) agree
  · intro agree descends _
    exact sign_decides_of_matches length agree

end TokuMX.Lib
