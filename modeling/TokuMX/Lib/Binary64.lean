import Mathlib.Data.BitVec
import Mathlib.Data.Nat.Log
import Mathlib.Tactic.Linarith
import Mathlib.Tactic.Ring

/-!
Doubles as the words they are stored in.

A word is a sign bit over a magnitude, and comparing two doubles that are not NaN is
comparing magnitudes under their signs. `ofInt` is the conversion of an integer to the
nearest double, ties to even; `trunc` the conversion back.

* `rank_ofInt_lt` — the conversion keeps two integers in order, and apart, when one of them
  is below `2 ^ 53`.
* `trunc_ofInt` — below `2 ^ 53` it loses nothing.
-/

namespace TokuMX.Lib.Binary64

/-- The 64 bits of a double. -/
abbrev Word := BitVec 64

def magnitude (x : Word) : Nat := x.toNat % 2 ^ 63

/-- Beyond the infinities. -/
def isNaN (x : Word) : Bool := 2047 * 2 ^ 52 < magnitude x

/-- The place of a word in the order of the doubles; both zeros are at `0`. -/
def rank (x : Word) : Int := if x.toNat < 2 ^ 63 then magnitude x else -(magnitude x : Int)

/-- `x < y` of doubles. -/
def lt (x y : Word) : Bool := !isNaN x && !isNaN y && rank x < rank y

/-- `x == y` of doubles. -/
def eq (x y : Word) : Bool := !isNaN x && !isNaN y && rank x = rank y

/-- `n / 2 ^ s` to the nearest integer, ties to even. -/
def roundShift (n s : Nat) : Nat :=
  if 2 ^ s < 2 * (n % 2 ^ s) ∨ 2 * (n % 2 ^ s) = 2 ^ s ∧ n / 2 ^ s % 2 = 1 then n / 2 ^ s + 1
  else n / 2 ^ s

/-- The 53 bits of `n` that a double keeps, the leading one included. A carry makes it
`2 ^ 53`. -/
def significand (n : Nat) : Nat :=
  if n.log2 ≤ 52 then n * 2 ^ (52 - n.log2) else roundShift n (n.log2 - 52)

/-- The magnitude of `n` as a double: the biased exponent over the significand, whose leading
bit counts as one in the exponent. -/
def magnitudeOf (n : Nat) : Nat := if n = 0 then 0 else (1022 + n.log2) * 2 ^ 52 + significand n

/-- `(double) n`. -/
def ofInt (n : Int) : Word :=
  BitVec.ofNat 64 ((if n < 0 then 2 ^ 63 else 0) + magnitudeOf n.natAbs)

/-- The integer part of a magnitude. -/
def wholePart (magnitude : Nat) : Nat :=
  let exponent := magnitude / 2 ^ 52
  let significand := 2 ^ 52 + magnitude % 2 ^ 52
  if exponent < 1023 then 0
  else if exponent ≤ 1075 then significand / 2 ^ (1075 - exponent)
  else significand * 2 ^ (exponent - 1075)

/-- The integer part of a double. -/
def trunc (x : Word) : Int :=
  if x.toNat < 2 ^ 63 then wholePart (magnitude x) else -(wholePart (magnitude x) : Int)

/-! ### Magnitudes -/

theorem roundShift_cases (n s : Nat) :
    roundShift n s = n / 2 ^ s ∨ roundShift n s = n / 2 ^ s + 1 := by
  unfold roundShift
  split_ifs
  · exact .inr rfl
  · exact .inl rfl

section Binade

variable {n m : Nat}

theorem significand_of_exact (small : n.log2 ≤ 52) : significand n = n * 2 ^ (52 - n.log2) := by
  rw [significand, if_pos small]

theorem le_significand (positive : n ≠ 0) : 2 ^ 52 ≤ significand n := by
  have least := Nat.log2_self_le positive
  unfold significand
  split_ifs with small
  · calc 2 ^ 52 = 2 ^ n.log2 * 2 ^ (52 - n.log2) := by rw [← Nat.pow_add]; congr 1; omega
      _ ≤ n * 2 ^ (52 - n.log2) := Nat.mul_le_mul_right _ least
  · have quotient : 2 ^ 52 ≤ n / 2 ^ (n.log2 - 52) := by
      rw [Nat.le_div_iff_mul_le (by positivity), ← Nat.pow_add]
      convert least using 2
      omega
    rcases roundShift_cases n (n.log2 - 52) with down | up <;> omega

theorem significand_lt_of_exact (small : n.log2 ≤ 52) : significand n < 2 ^ 53 := by
  rw [significand_of_exact small]
  calc n * 2 ^ (52 - n.log2) < 2 ^ (n.log2 + 1) * 2 ^ (52 - n.log2) :=
        Nat.mul_lt_mul_of_pos_right Nat.lt_log2_self (by positivity)
    _ = 2 ^ 53 := by rw [← Nat.pow_add]; congr 1; omega

theorem significand_le (n : Nat) : significand n ≤ 2 ^ 53 := by
  by_cases small : n.log2 ≤ 52
  · exact (significand_lt_of_exact small).le
  · have quotient : n / 2 ^ (n.log2 - 52) < 2 ^ 53 := by
      rw [Nat.div_lt_iff_lt_mul (by positivity), ← Nat.pow_add]
      convert Nat.lt_log2_self (n := n) using 2
      omega
    rw [significand, if_neg small]
    rcases roundShift_cases n (n.log2 - 52) with down | up <;> omega

theorem log2_mono (le : n ≤ m) : n.log2 ≤ m.log2 := by
  simpa only [Nat.log2_eq_log_two] using Nat.log_mono_right le

theorem magnitudeOf_pos (positive : n ≠ 0) : 0 < magnitudeOf n := by
  have := le_significand positive
  rw [magnitudeOf, if_neg positive]
  omega

theorem log2_le_of_lt (exact : n < 2 ^ 53) : n.log2 ≤ 52 := by
  by_cases zero : n = 0
  · simp [zero]
  · have := (Nat.log2_lt zero).mpr exact
    omega

/-- Below `2 ^ 53` no rounding takes place, so no greater integer rounds to the same. -/
theorem magnitudeOf_lt (less : n < m) (exact : n < 2 ^ 53) : magnitudeOf n < magnitudeOf m := by
  by_cases zero : n = 0
  · subst zero
    exact magnitudeOf_pos (by omega)
  · have zero' : m ≠ 0 := by omega
    have small := log2_le_of_lt exact
    rw [magnitudeOf, magnitudeOf, if_neg zero, if_neg zero']
    rcases (log2_mono less.le).lt_or_eq with lower | same
    · have := significand_lt_of_exact small
      have := le_significand zero'
      omega
    · have : significand n < significand m := by
        rw [significand_of_exact small, significand_of_exact (same ▸ small), same]
        exact Nat.mul_lt_mul_of_pos_right less (by positivity)
      omega

theorem magnitudeOf_le_inf (range : n ≤ 2 ^ 63) : magnitudeOf n ≤ 1088 * 2 ^ 52 := by
  by_cases zero : n = 0
  · simp [magnitudeOf, zero]
  · have log : n.log2 ≤ 63 := by
      have := log2_mono range
      rwa [Nat.log2_two_pow] at this
    have := significand_le n
    rw [magnitudeOf, if_neg zero]
    omega

theorem wholePart_magnitudeOf (exact : n < 2 ^ 53) : wholePart (magnitudeOf n) = n := by
  by_cases zero : n = 0
  · subst zero
    rfl
  · have small := log2_le_of_lt exact
    have lower := le_significand zero
    have upper := significand_lt_of_exact small
    have exponent : magnitudeOf n / 2 ^ 52 = 1023 + n.log2 := by
      rw [magnitudeOf, if_neg zero]
      omega
    have rest : 2 ^ 52 + magnitudeOf n % 2 ^ 52 = significand n := by
      rw [magnitudeOf, if_neg zero]
      omega
    simp only [wholePart, exponent, rest]
    rw [if_neg (by omega), if_pos (by omega), significand_of_exact small,
      show 1075 - (1023 + n.log2) = 52 - n.log2 by omega, Nat.mul_div_cancel _ (by positivity)]

end Binade

/-! ### Integers -/

section Int

variable {a b n : Int}

section

variable (range : n.natAbs ≤ 2 ^ 63)
include range

theorem toNat_ofInt : (ofInt n).toNat = (if n < 0 then 2 ^ 63 else 0) + magnitudeOf n.natAbs := by
  have := magnitudeOf_le_inf range
  rw [ofInt, BitVec.toNat_ofNat, Nat.mod_eq_of_lt]
  split_ifs <;> omega

theorem magnitude_ofInt : magnitude (ofInt n) = magnitudeOf n.natAbs := by
  have := magnitudeOf_le_inf range
  rw [magnitude, toNat_ofInt range]
  split_ifs <;> omega

theorem isNaN_ofInt : isNaN (ofInt n) = false := by
  have := magnitudeOf_le_inf range
  rw [isNaN, magnitude_ofInt range, decide_eq_false_iff_not]
  omega

theorem rank_ofInt :
    rank (ofInt n) = if n < 0 then -(magnitudeOf n.natAbs : Int) else magnitudeOf n.natAbs := by
  have := magnitudeOf_le_inf range
  rw [rank, magnitude_ofInt range, toNat_ofInt range]
  split_ifs <;> omega

end

theorem rank_ofInt_lt (less : a < b) (ha : a.natAbs ≤ 2 ^ 63) (hb : b.natAbs ≤ 2 ^ 63)
    (exact : a.natAbs < 2 ^ 53 ∨ b.natAbs < 2 ^ 53) : rank (ofInt a) < rank (ofInt b) := by
  rw [rank_ofInt ha, rank_ofInt hb]
  split_ifs with negA negB negB
  · have := magnitudeOf_lt (show b.natAbs < a.natAbs by omega) (by omega)
    omega
  · have := magnitudeOf_pos (show a.natAbs ≠ 0 by omega)
    omega
  · omega
  · have := magnitudeOf_lt (show a.natAbs < b.natAbs by omega) (by omega)
    omega

theorem trunc_ofInt (exact : n.natAbs < 2 ^ 53) : trunc (ofInt n) = n := by
  have range : n.natAbs ≤ 2 ^ 63 := by omega
  have := magnitudeOf_le_inf range
  rw [trunc, magnitude_ofInt range, toNat_ofInt range, wholePart_magnitudeOf exact]
  split_ifs <;> omega

end Int

end TokuMX.Lib.Binary64
