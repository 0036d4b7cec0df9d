import Mathlib.Data.List.Basic
import Mathlib.Order.Lattice
import Mathlib.Order.Nat

/-!
Search among increasing pivots.

Increasing pivots cut a line into ranges, each closed above. `rank pivots k` is the
number of the range that holds `k`; `bisect` is the binary search that finds it.

* `bisect_eq_rank` — the search finds the range.
-/

namespace TokuMX.Lib

variable {K : Type} [LinearOrder K]

/-- The number of pivots below `k`. -/
def rank (pivots : List K) (k : K) : Nat := pivots.countP (· < k)

/-- Binary search between `low` and `high`, in at most `rounds` rounds. -/
def bisect (pivots : List K) (k : K) : (rounds low high : Nat) → Nat
  | 0, low, _ => low
  | rounds + 1, low, high =>
    if low < high then
      let mid := (high + low) / 2
      match pivots[mid]? with
      | none => low
      | some pivot =>
        if k = pivot then mid
        else if k < pivot then bisect pivots k rounds low mid
        else bisect pivots k rounds (mid + 1) high
    else low

variable {pivots : List K} {k k' pivot : K}

theorem rank_le_length : rank pivots k ≤ pivots.length := List.countP_le_length

theorem rank_mono (le : k ≤ k') : rank pivots k ≤ rank pivots k' := by
  apply List.countP_mono_left
  intro pivot _ below
  exact decide_eq_true ((of_decide_eq_true below).trans_le le)

theorem rank_append_of_le (le : k ≤ pivot) : rank (pivots ++ [pivot]) k = rank pivots k := by
  simp [rank, not_lt.mpr le]

/-- If the first pivot is not below `k`, none is. -/
theorem rank_cons_eq_zero (sorted : (pivot :: pivots).Pairwise (· < ·)) (above : k ≤ pivot) :
    rank (pivot :: pivots) k = 0 := by
  rw [rank, List.countP_eq_zero]
  intro p mem
  rcases List.mem_cons.mp mem with rfl | later
  · simpa using above
  · simpa using above.trans ((List.pairwise_cons.mp sorted).1 p later).le

theorem rank_tail (sorted : (pivot :: pivots).Pairwise (· < ·)) :
    rank pivots k = rank (pivot :: pivots) k - 1 := by
  by_cases below : pivot < k
  · simp [rank, below]
  · have none := rank_cons_eq_zero sorted (not_lt.mp below)
    have fewer : rank pivots k ≤ rank (pivot :: pivots) k :=
      (List.sublist_cons_self pivot pivots).countP_le
    omega

section

variable (sorted : pivots.Pairwise (· < ·))
include sorted

theorem rank_drop (n : Nat) : rank (pivots.drop n) k = rank pivots k - n := by
  induction n generalizing pivots with
  | zero => rfl
  | succ n ih =>
    cases pivots with
    | nil => simp [rank]
    | cons pivot pivots =>
      rw [List.drop_succ_cons, ih (List.pairwise_cons.mp sorted).2, rank_tail sorted]
      omega

/-- The pivots below `k` come first. -/
theorem lt_rank_iff {i : Nat} (found : pivots[i]? = some pivot) :
    i < rank pivots k ↔ pivot < k := by
  induction i generalizing pivots with
  | zero =>
    cases pivots with
    | nil => simp at found
    | cons first pivots =>
      cases found
      constructor
      · intro counted
        by_contra above
        rw [rank_cons_eq_zero sorted (not_lt.mp above)] at counted
        exact absurd counted (lt_irrefl 0)
      · intro below
        simp [rank, below]
  | succ i ih =>
    cases pivots with
    | nil => simp at found
    | cons first pivots =>
      rw [← ih (List.pairwise_cons.mp sorted).2 (by simpa using found), rank_tail sorted]
      omega

/-- A pivot is the end of its own range. -/
theorem rank_of_getElem? {i : Nat} (found : pivots[i]? = some k) : rank pivots k = i := by
  have upper : rank pivots k ≤ i := Nat.not_lt.mp (mt (lt_rank_iff sorted found).mp (lt_irrefl _))
  refine Nat.le_antisymm upper ?_
  cases i with
  | zero => exact Nat.zero_le _
  | succ i =>
    obtain ⟨inside, rfl⟩ := List.getElem?_eq_some_iff.mp found
    have before : i < pivots.length := by omega
    have less := List.pairwise_iff_getElem.mp sorted i (i + 1) before inside (by omega)
    exact (lt_rank_iff sorted (List.getElem?_eq_getElem before)).mpr less

/-- Without pivot `i` the ranges on its two sides are one. -/
theorem rank_eraseIdx {i : Nat} (inside : i < pivots.length) :
    rank (pivots.eraseIdx i) k =
      if i < rank pivots k then rank pivots k - 1 else rank pivots k := by
  have split := lt_rank_iff (k := k) sorted (List.getElem?_eq_getElem inside)
  have whole : rank pivots k = rank (pivots.eraseIdx i) k + if pivots[i] < k then 1 else 0 := by
    rw [List.eraseIdx_eq_take_drop_succ]
    conv_lhs => rw [← List.take_append_drop i pivots, List.drop_eq_getElem_cons inside]
    simp only [rank, List.countP_append, List.countP_cons, decide_eq_true_eq]
    omega
  by_cases below : pivots[i] < k
  · rw [if_pos (split.mpr below), whole, if_pos below]
    omega
  · rw [if_neg (mt split.mp below), whole, if_neg below]
    omega

/-- The range of `k` is the first whose pivot is not below `k`. -/
theorem rank_first :
    (∀ p, pivots[rank pivots k]? = some p → k ≤ p) ∧
      ∀ j p, j < rank pivots k → pivots[j]? = some p → p < k := by
  constructor
  · intro p found
    exact not_lt.mp (mt (lt_rank_iff sorted found).mpr (lt_irrefl _))
  · intro j p before found
    exact (lt_rank_iff sorted found).mp before

theorem bisect_eq_rank {rounds low high : Nat} (from_low : low ≤ rank pivots k)
    (to_high : rank pivots k ≤ high) (inside : high < pivots.length)
    (enough : high ≤ low + rounds) : bisect pivots k rounds low high = rank pivots k := by
  induction rounds generalizing low high with
  | zero =>
    unfold bisect
    omega
  | succ rounds ih =>
    unfold bisect
    by_cases open_interval : low < high
    · rw [if_pos open_interval]
      have mid_lt : (high + low) / 2 < pivots.length := by omega
      have found := List.getElem?_eq_getElem mid_lt
      have split := lt_rank_iff (k := k) sorted found
      simp only [found]
      by_cases equal : k = pivots[(high + low) / 2]
      · rw [if_pos equal]
        -- at a boundary: every pivot before this one is below `k`
        have not_below : ¬ pivots[(high + low) / 2] < k := equal ▸ lt_irrefl _
        have upper : rank pivots k ≤ (high + low) / 2 := Nat.not_lt.mp (mt split.mp not_below)
        rcases Nat.eq_zero_or_pos ((high + low) / 2) with zero | positive
        · omega
        · have before_lt : (high + low) / 2 - 1 < pivots.length := by omega
          have below : pivots[(high + low) / 2 - 1] < k := by
            rw [equal]
            exact List.pairwise_iff_getElem.mp sorted _ _ _ _ (by omega)
          have := (lt_rank_iff sorted (List.getElem?_eq_getElem before_lt)).mpr below
          omega
      · rw [if_neg equal]
        by_cases below : k < pivots[(high + low) / 2]
        · rw [if_pos below]
          have upper : rank pivots k ≤ (high + low) / 2 := Nat.not_lt.mp (mt split.mp below.asymm)
          exact ih from_low upper mid_lt (by omega)
        · rw [if_neg below]
          have lower : (high + low) / 2 < rank pivots k := by
            rw [split]
            exact lt_of_le_of_ne (not_lt.mp below) (Ne.symm equal)
          exact ih lower to_high inside (by omega)
    · rw [if_neg open_interval]
      omega

end

end TokuMX.Lib
