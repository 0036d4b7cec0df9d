import TokuMX.Repl.GTID
import TokuMX.Storage.KeyOrder
import Mathlib.Tactic.IntervalCases

/-!
The sixteen bytes of an identifier (`db/gtid.cpp`), as the `_id` of an oplog entry has them.

Each counter is written with its bytes swapped, so high byte first, and `memcmp` then orders
the bytes as `GTID::cmp` orders the identifiers. Both comparisons that meet them come down to
`memcmp`: `compareElementValues` of two values of binary data, and `KeyV1` of two stored keys
(`serializeBinaryData_order`).

The counters are words here, as a word is what is swapped; `GTIDWords.gtid` is the identifier
in the terms of `Repl/GTID.lean`.
-/

namespace TokuMX.Repl

open TokuMX.Lib TokuMX.BSON TokuMX.Storage

/-- `SWAP64`. -/
def swap64 (x : BitVec 64) : BitVec 64 :=
  (x &&& 0xff00000000000000#64) >>> 56 |||
  (x &&& 0x00ff000000000000#64) >>> 40 |||
  (x &&& 0x0000ff0000000000#64) >>> 24 |||
  (x &&& 0x000000ff00000000#64) >>> 8 |||
  (x &&& 0x00000000ff000000#64) <<< 8 |||
  (x &&& 0x0000000000ff0000#64) <<< 24 |||
  (x &&& 0x000000000000ff00#64) <<< 40 |||
  (x &&& 0x00000000000000ff#64) <<< 56

theorem getLsbD_swap64 (x : BitVec 64) {i b : Nat} (byte : i < 8) (bit : b < 8) :
    (swap64 x).getLsbD (8 * i + b) = x.getLsbD (8 * (7 - i) + b) := by
  simp only [swap64, BitVec.getLsbD_or, BitVec.getLsbD_and, BitVec.getLsbD_ushiftRight,
    BitVec.getLsbD_shiftLeft]
  -- of the eight terms one mask has the bit
  interval_cases i <;> interval_cases b <;>
    simp only [Nat.reduceMul, Nat.reduceAdd, Nat.reduceSub, Nat.reduceLT, BitVec.reduceGetLsb,
      decide_true, decide_false, Bool.not_true, Bool.not_false, Bool.and_true, Bool.and_false,
      Bool.true_and, Bool.false_and, Bool.or_false, Bool.false_or]

theorem wordBytes_swap64 (x : BitVec 64) : wordBytes (swap64 x) = (wordBytes x).reverse :=
  wordBytes_eq_reverse fun _ byte _ bit => getLsbD_swap64 x byte bit

theorem swap64_swap64 (x : BitVec 64) : swap64 (swap64 x) = x := by
  apply BitVec.eq_of_getLsbD_eq
  intro k below
  have byte : k / 8 < 8 := by omega
  have twice := getLsbD_swap64 (swap64 x) byte (Nat.mod_lt k (by decide))
  rwa [getLsbD_swap64 x (by omega) (Nat.mod_lt k (by decide)), Nat.div_add_mod,
    show 7 - (7 - k / 8) = k / 8 by omega, Nat.div_add_mod] at twice

/-- `class GTID`, with its two words. -/
structure GTIDWords where
  primarySeqNo : BitVec 64
  gtSeqNo : BitVec 64
deriving DecidableEq, Repr

namespace GTIDWords

def gtid (g : GTIDWords) : GTID := ⟨g.primarySeqNo.toNat, g.gtSeqNo.toNat⟩

/-- `GTID::serializeBinaryData`. -/
def serializeBinaryData (g : GTIDWords) : List UInt8 :=
  wordBytes (swap64 g.primarySeqNo) ++ wordBytes (swap64 g.gtSeqNo)

/-- `GTID::GTID(const char*)`, where there are sixteen bytes to read. -/
def ofBinaryData (binData : List UInt8) : Option GTIDWords := do
  let (swappedPrim, pos) ← readWord binData
  let (swappedSec, _) ← readWord pos
  some ⟨swap64 swappedPrim, swap64 swappedSec⟩

@[simp] theorem length_serializeBinaryData (g : GTIDWords) :
    g.serializeBinaryData.length = 16 := by
  simp [serializeBinaryData, wordBytes]

theorem ofBinaryData_serializeBinaryData (g : GTIDWords) :
    ofBinaryData g.serializeBinaryData = some g := by
  have second := readWord_wordBytes (swap64 g.gtSeqNo) []
  rw [List.append_nil] at second
  simp [ofBinaryData, serializeBinaryData, second, swap64_swap64]

theorem memcmp_swap64 (x y : BitVec 64) :
    memcmp (wordBytes (swap64 x)) (wordBytes (swap64 y)) =
      if x.toNat < y.toNat then -1 else if y.toNat < x.toNat then 1 else 0 := by
  have fits : ∀ z : BitVec 64, z.toNat < 256 ^ 8 := fun z => lt_of_lt_of_eq z.isLt (by norm_num)
  rw [wordBytes_swap64, wordBytes_swap64]
  exact memcmp_reverse_leBytes (fits x) (fits y)

theorem memcmp_serializeBinaryData (a b : GTIDWords) :
    memcmp a.serializeBinaryData b.serializeBinaryData = GTID.cmp a.gtid b.gtid := by
  unfold serializeBinaryData GTID.cmp gtid
  rw [memcmp_append (by simp [wordBytes]), memcmp_swap64, memcmp_swap64]
  dsimp only
  split_ifs <;> omega

/-- The value that holds an identifier. -/
def toValue (subtype : UInt8) (g : GTIDWords) : Value := .binData subtype g.serializeBinaryData

theorem compareElementValues_toValue (subtype : UInt8) (a b : GTIDWords) :
    compareElementValues (a.toValue subtype) (b.toValue subtype) = GTID.cmp a.gtid b.gtid := by
  rw [← memcmp_serializeBinaryData]
  simp [toValue, compareElementValues, compareScalars, memcmp]

theorem woCompare_toValue (subtype : UInt8) (a b : GTIDWords) :
    BSON.woCompare [a.toValue subtype] [b.toValue subtype] ⟨0⟩ = GTID.cmp a.gtid b.gtid := by
  have type : ∀ g : GTIDWords, (g.toValue subtype).canonicalType = 30 := fun _ => rfl
  have value : (a.toValue subtype).woCompare (b.toValue subtype) = GTID.cmp a.gtid b.gtid := by
    simp [Value.woCompare, type, compareElementValues_toValue]
  simp only [BSON.woCompare, woCompareLoop, value, BSON.Ordering.descending]
  simp [eq_comm]

/-- The bytes of an identifier are read back as it, and are ordered as the identifiers are:
as values of binary data, and as stored keys. -/
theorem serializeBinaryData_order (subtype : UInt8) (a b : GTIDWords) :
    ofBinaryData a.serializeBinaryData = some a ∧
      (compareElementValues (a.toValue subtype) (b.toValue subtype)).sign =
        (GTID.cmp a.gtid b.gtid).sign ∧
      ∃ x, (keyV1Owned [a.toValue subtype]).woCompare (keyV1Owned [b.toValue subtype]) ⟨0⟩ =
          some x ∧
        x.sign = (GTID.cmp a.gtid b.gtid).sign := by
  refine ⟨ofBinaryData_serializeBinaryData a, ?_, ?_⟩
  · rw [compareElementValues_toValue]
  · rw [← woCompare_toValue subtype]
    exact woCompare_singleton _ _ _

end GTIDWords

end TokuMX.Repl
