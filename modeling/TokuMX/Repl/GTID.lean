import Mathlib.Data.Prod.Lex
import Mathlib.Order.Lattice

/-!
Global transaction identifiers (`db/gtid.h`, `db/gtid.cpp`).

A GTID is a pair of sequence numbers; `GTID.cmp` orders them by primary and then
by transaction. `cmp` is the comparison the code calls everywhere, so it is the
definition translated from the source; `LinearOrder GTID` is the order it decides
(`cmp_lt_zero`, `cmp_eq_zero`, `cmp_pos`), and every later statement is in terms
of `<` and `≤`.

The two counters are 64-bit in the source. They are natural numbers here: no run
hands out `2^64` identifiers.
-/

namespace TokuMX.Repl

/-- `class GTID`: `_primarySeqNo` and `_GTSeqNo`. -/
structure GTID where
  primarySeqNo : Nat
  gtSeqNo : Nat
deriving DecidableEq, Repr

namespace GTID

/-- `GTID::cmp`. -/
def cmp (a b : GTID) : Int :=
  if a.primarySeqNo ≠ b.primarySeqNo then
    if a.primarySeqNo < b.primarySeqNo then -1 else 1
  else if a.gtSeqNo = b.gtSeqNo then 0
  else if a.gtSeqNo < b.gtSeqNo then -1 else 1

/-- `GTID::inc`. -/
def inc (g : GTID) : GTID := { g with gtSeqNo := g.gtSeqNo + 1 }

/-- `GTID::inc_primary`. -/
def incPrimary (g : GTID) : GTID := ⟨g.primarySeqNo + 1, 0⟩

/-- The lexicographic order on the two counters. -/
instance : LinearOrder GTID :=
  LinearOrder.lift' (fun g => toLex (g.primarySeqNo, g.gtSeqNo)) (by
    rintro ⟨p, s⟩ ⟨q, t⟩ same
    simpa using same)

theorem lt_iff {a b : GTID} : a < b ↔ a.primarySeqNo < b.primarySeqNo ∨
    a.primarySeqNo = b.primarySeqNo ∧ a.gtSeqNo < b.gtSeqNo :=
  Prod.Lex.toLex_lt_toLex

theorem le_iff {a b : GTID} : a ≤ b ↔ a.primarySeqNo < b.primarySeqNo ∨
    a.primarySeqNo = b.primarySeqNo ∧ a.gtSeqNo ≤ b.gtSeqNo :=
  Prod.Lex.toLex_le_toLex

theorem cmp_lt_zero {a b : GTID} : cmp a b < 0 ↔ a < b := by
  rw [lt_iff]
  unfold cmp
  split_ifs <;> omega

theorem cmp_pos {a b : GTID} : 0 < cmp a b ↔ b < a := by
  rw [lt_iff]
  unfold cmp
  split_ifs <;> omega

theorem cmp_nonneg {a b : GTID} : 0 ≤ cmp a b ↔ b ≤ a := by
  rw [← not_lt, cmp_lt_zero, not_lt]

theorem cmp_nonpos {a b : GTID} : cmp a b ≤ 0 ↔ a ≤ b := by
  rw [← not_lt, cmp_pos, not_lt]

theorem cmp_eq_zero {a b : GTID} : cmp a b = 0 ↔ a = b := by
  rw [le_antisymm_iff, cmp_nonpos, cmp_nonneg, ← le_antisymm_iff]

theorem lt_inc (g : GTID) : g < g.inc := lt_iff.mpr (.inr ⟨rfl, Nat.lt_succ_self _⟩)

theorem lt_incPrimary (g : GTID) : g < g.incPrimary := lt_iff.mpr (.inl (Nat.lt_succ_self _))

/-- `inc` is the least step: nothing lies strictly between `g` and `g.inc`. -/
theorem inc_le_iff {g h : GTID} : g.inc ≤ h ↔ g < h := by
  rw [le_iff, lt_iff]
  simp only [inc, Nat.succ_le_iff]

end GTID

end TokuMX.Repl
