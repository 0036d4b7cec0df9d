import TokuMX.BSON.Value

/-!
The modifier `$inc` (`Mod::appendIncremented` and `ModState::appendIncValue` in
`db/ops/update_internal.cpp` and `update_internal.h`).

The sum is a double if either number is one, else a long if either is one. The sum of two
ints is an int, unless both are positive and their sum, as it comes out in 32 bits, is
negative: then they are added as longs. Two negative ints whose sum leaves the range are not
looked for, and wrap around (`appendIncremented_exact_iff`).

What adding doubles gives is a parameter. That an `int` wraps around is what the test in the
source relies on.
-/

namespace TokuMX.Update

open TokuMX.Lib TokuMX.BSON

/-- `incType`, with the one of `incdouble`, `inclong` and `incint` that it is for. -/
inductive IncValue where
  | double (d : Binary64.Word)
  | long (n : BitVec 64)
  | int (n : BitVec 32)

/-- `ModState::appendIncValue`: the value appended. -/
def IncValue.append : IncValue → Value
  | double d => .numberDouble d
  | long n => .numberLong n
  | int n => .numberInt n

/-- `BSONElement::numberDouble`. -/
def numberDouble (v : Value) : Binary64.Word := v.number.getD 0

/-- `BSONElement::numberLong`, of integers. -/
def numberLong : Value → BitVec 64
  | .numberInt n => n.signExtend 64
  | .numberLong n => n
  | _ => 0

def isDouble : Value → Bool
  | .numberDouble _ => true
  | _ => false

def isLong : Value → Bool
  | .numberLong _ => true
  | _ => false

/-- The test that the source makes for an overflow. -/
def overflows (elt input : BitVec 32) : Bool :=
  (elt + input).slt 0#32 && (0#32).slt elt && (0#32).slt input

theorem overflows_iff (elt input : BitVec 32) :
    overflows elt input = true ↔ 2 ^ 31 ≤ elt.toInt + input.toInt := by
  have sum : (elt + input).toInt = (elt.toInt + input.toInt).bmod (2 ^ 32) :=
    BitVec.toInt_add elt input
  have elt_lt : elt.toInt < 2 ^ 31 := BitVec.toInt_lt
  have input_lt : input.toInt < 2 ^ 31 := BitVec.toInt_lt
  have zero : (0#32).toInt = 0 := rfl
  simp only [overflows, Bool.and_eq_true, BitVec.slt_iff_toInt_lt, zero, sum]
  rw [Int.bmod_def]
  constructor
  · rintro ⟨⟨negative, _⟩, _⟩
    split_ifs at negative <;> omega
  · intro large
    split_ifs <;> omega

section

variable (addDouble : Binary64.Word → Binary64.Word → Binary64.Word)

/-- What `Mod::appendIncremented` leaves in the state. -/
def incremented (elt input : Value) : IncValue :=
  if isDouble input || isDouble elt then
    .double (addDouble (numberDouble elt) (numberDouble input))
  else if isLong input || isLong elt then .long (numberLong elt + numberLong input)
  else if overflows (numberInt elt) (numberInt input) then
    .long (numberLong elt + numberLong input)
  else .int (numberInt elt + numberInt input)

/-- `Mod::appendIncremented`: the value appended. -/
def appendIncremented (elt input : Value) : Value := (incremented addDouble elt input).append

theorem appendIncremented_int (elt input : BitVec 32) :
    appendIncremented addDouble (.numberInt elt) (.numberInt input) =
      if 2 ^ 31 ≤ elt.toInt + input.toInt then
        .numberLong (elt.signExtend 64 + input.signExtend 64)
      else .numberInt (elt + input) := by
  rw [← ite_congr (propext (overflows_iff elt input)) (fun _ => rfl) (fun _ => rfl)]
  show (if overflows elt input = true then IncValue.long _ else IncValue.int _).append = _
  rw [apply_ite IncValue.append]
  rfl

/-- The number as an int if it fits in one, else as a long. -/
def exactly (n : Int) : Value :=
  if -2 ^ 31 ≤ n ∧ n < 2 ^ 31 then .numberInt (BitVec.ofInt 32 n)
  else .numberLong (BitVec.ofInt 64 n)

/-- Two ints are added up exactly if and only if the sum does not fall below the ints. -/
theorem appendIncremented_exact_iff (elt input : BitVec 32) :
    appendIncremented addDouble (.numberInt elt) (.numberInt input) =
        exactly (elt.toInt + input.toInt) ↔
      -2 ^ 31 ≤ elt.toInt + input.toInt := by
  rw [appendIncremented_int, exactly]
  by_cases above : 2 ^ 31 ≤ elt.toInt + input.toInt
  · rw [if_pos above, if_neg (fun fits => absurd fits.2 (not_lt.mpr above))]
    have exact_sum : BitVec.ofInt 64 (elt.toInt + input.toInt) =
        elt.signExtend 64 + input.signExtend 64 := by
      rw [BitVec.ofInt_add, BitVec.signExtend, BitVec.signExtend]
    exact ⟨fun _ => by omega, fun _ => by rw [exact_sum]⟩
  · rw [if_neg above]
    constructor
    · -- below the ints the sum comes out as an int, where it should be a long
      intro same
      by_contra below
      rw [if_neg (fun fits => below fits.1)] at same
      cases same
    · intro fits
      rw [if_pos ⟨fits, not_le.mp above⟩, BitVec.ofInt_add, BitVec.ofInt_toInt, BitVec.ofInt_toInt]

end

/-- The least int and `-1` come out as the greatest int, whatever is done with doubles. -/
theorem appendIncremented_wraps :
    appendIncremented (fun d _ => d) (.numberInt (BitVec.ofInt 32 (-1)))
        (.numberInt (BitVec.ofInt 32 (-2 ^ 31))) = .numberInt (BitVec.ofInt 32 (2 ^ 31 - 1)) ∧
      exactly ((BitVec.ofInt 32 (-1)).toInt + (BitVec.ofInt 32 (-2 ^ 31)).toInt) =
        .numberLong (BitVec.ofInt 64 (-2 ^ 31 - 1)) :=
  ⟨rfl, rfl⟩

end TokuMX.Update
