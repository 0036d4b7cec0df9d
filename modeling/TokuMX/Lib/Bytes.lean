import Mathlib.Data.BitVec
import Mathlib.Data.Int.Order.Basic
import Mathlib.Tactic.SplitIfs
import TokuMX.Lib.Comparison

/-!
Byte strings: reading, words stored low byte first, and the order of `memcmp`.

* `readWord_wordBytes` — a stored word is read back.
* `compareCounted_terminated` — comparing two strings of known length gives the same sign
  with a zero byte at the end of each as without.
-/

namespace TokuMX.Lib

/-! ### Reading -/

/-- The bytes of a text in ASCII. -/
def ascii (text : String) : List UInt8 := text.toList.map fun c => UInt8.ofNat c.toNat

/-- The first byte, and the rest. -/
def readByte : List UInt8 → Option (UInt8 × List UInt8)
  | [] => none
  | b :: rest => some (b, rest)

/-- The first `n` bytes, and the rest. -/
def readBytes (n : Nat) (bytes : List UInt8) : Option (List UInt8 × List UInt8) :=
  if n ≤ bytes.length then some (bytes.take n, bytes.drop n) else none

@[simp] theorem readByte_cons (b : UInt8) (rest : List UInt8) :
    readByte (b :: rest) = some (b, rest) := rfl

variable {n : Nat} {bytes : List UInt8}

theorem readBytes_append (length : bytes.length = n) (rest : List UInt8) :
    readBytes n (bytes ++ rest) = some (bytes, rest) := by
  subst length
  simp [readBytes]

/-! ### Words -/

/-- `n` in `width` bytes, low byte first. -/
def leBytes : Nat → Nat → List UInt8
  | 0, _ => []
  | width + 1, n => UInt8.ofNat n :: leBytes width (n / 256)

/-- The number in some bytes, low byte first. -/
def ofLeBytes : List UInt8 → Nat
  | [] => 0
  | b :: bytes => b.toNat + 256 * ofLeBytes bytes

@[simp] theorem length_leBytes (width n : Nat) : (leBytes width n).length = width := by
  induction width generalizing n with
  | zero => rfl
  | succ width ih => simp [leBytes, ih]

variable {width : Nat}

theorem ofLeBytes_leBytes (fits : n < 256 ^ width) : ofLeBytes (leBytes width n) = n := by
  induction width generalizing n with
  | zero =>
    rw [Nat.pow_zero] at fits
    rw [leBytes, ofLeBytes]
    omega
  | succ width ih =>
    have rest : n / 256 < 256 ^ width := by
      rw [Nat.pow_succ] at fits
      exact Nat.div_lt_of_lt_mul (by omega)
    rw [leBytes, ofLeBytes, ih rest, UInt8.toNat_ofNat']
    omega

theorem ofLeBytes_lt (bytes : List UInt8) : ofLeBytes bytes < 256 ^ bytes.length := by
  induction bytes with
  | nil => exact Nat.one_pos
  | cons b bytes ih =>
    have byte := b.toNat_lt
    rw [ofLeBytes, List.length_cons, Nat.pow_succ]
    omega

theorem leBytes_ofLeBytes (bytes : List UInt8) :
    leBytes bytes.length (ofLeBytes bytes) = bytes := by
  induction bytes with
  | nil => rfl
  | cons b bytes ih =>
    have byte := b.toNat_lt
    have low : UInt8.ofNat (b.toNat + 256 * ofLeBytes bytes) = b := by
      apply UInt8.toNat.inj
      rw [UInt8.toNat_ofNat']
      omega
    have high : (b.toNat + 256 * ofLeBytes bytes) / 256 = ofLeBytes bytes := by omega
    rw [ofLeBytes, List.length_cons, leBytes, low, high, ih]

/-- The eight bytes of a word. -/
def wordBytes (x : BitVec 64) : List UInt8 := leBytes 8 x.toNat

/-- A word, and the rest. -/
def readWord (bytes : List UInt8) : Option (BitVec 64 × List UInt8) := do
  let (word, rest) ← readBytes 8 bytes
  some (BitVec.ofNat 64 (ofLeBytes word), rest)

@[simp] theorem readWord_wordBytes (x : BitVec 64) (rest : List UInt8) :
    readWord (wordBytes x ++ rest) = some (x, rest) := by
  have fits : x.toNat < 256 ^ 8 := by
    have := x.isLt
    omega
  simp [readWord, wordBytes, readBytes_append, ofLeBytes_leBytes fits]

/-- The four bytes of a half word. -/
def halfBytes (x : BitVec 32) : List UInt8 := leBytes 4 x.toNat

/-- A half word, and the rest. -/
def readHalf (bytes : List UInt8) : Option (BitVec 32 × List UInt8) := do
  let (half, rest) ← readBytes 4 bytes
  some (BitVec.ofNat 32 (ofLeBytes half), rest)

@[simp] theorem readHalf_halfBytes (x : BitVec 32) (rest : List UInt8) :
    readHalf (halfBytes x ++ rest) = some (x, rest) := by
  have fits : x.toNat < 256 ^ 4 := by
    have := x.isLt
    omega
  simp [readHalf, halfBytes, readBytes_append, ofLeBytes_leBytes fits]

theorem getElem_leBytes {i : Nat} (h : i < (leBytes width n).length) :
    (leBytes width n)[i] = UInt8.ofNat (n / 256 ^ i) := by
  induction width generalizing n i with
  | zero => exact absurd h (Nat.not_lt_zero i)
  | succ width ih =>
    cases i with
    | zero => simp [leBytes]
    | succ i =>
      simp only [leBytes, List.getElem_cons_succ]
      rw [ih, Nat.div_div_eq_div_mul, Nat.pow_succ']

theorem ofNat_eq_of_bits {m : Nat} (bits : ∀ b < 8, m.testBit b = n.testBit b) :
    UInt8.ofNat m = UInt8.ofNat n := by
  apply UInt8.toNat.inj
  rw [UInt8.toNat_ofNat', UInt8.toNat_ofNat']
  apply Nat.eq_of_testBit_eq
  intro b
  rw [Nat.testBit_mod_two_pow, Nat.testBit_mod_two_pow]
  by_cases bit : b < 8
  · rw [bits b bit]
  · simp [bit]

/-- A word whose bytes are those of another, the other way round. -/
theorem wordBytes_eq_reverse {x y : BitVec 64}
    (bits : ∀ i < 8, ∀ b < 8, x.getLsbD (8 * i + b) = y.getLsbD (8 * (7 - i) + b)) :
    wordBytes x = (wordBytes y).reverse := by
  apply List.ext_getElem
  · simp [wordBytes]
  · intro i inside _
    have byte : i < 8 := by simpa [wordBytes] using inside
    have length : (wordBytes y).length - 1 - i = 7 - i := by simp [wordBytes]
    rw [List.getElem_reverse]
    simp only [length]
    simp only [wordBytes, getElem_leBytes]
    apply ofNat_eq_of_bits
    intro b bit
    have power : ∀ k, 256 ^ k = 2 ^ (8 * k) := fun k => (Nat.pow_mul 2 8 k).symm
    rw [power, power, Nat.testBit_div_two_pow, Nat.testBit_div_two_pow, Nat.add_comm b,
      Nat.add_comm b]
    exact bits i byte b bit

/-! ### How much is read -/

variable {rest : List UInt8}

theorem readByte_length {b : UInt8} (read : readByte bytes = some (b, rest)) :
    bytes.length = rest.length + 1 := by
  cases bytes with
  | nil => cases read
  | cons _ _ =>
    cases read
    rfl

theorem readBytes_length {part : List UInt8} (read : readBytes n bytes = some (part, rest)) :
    bytes.length = rest.length + n ∧ part.length = n := by
  unfold readBytes at read
  split_ifs at read with enough
  cases read
  rw [List.length_drop, List.length_take]
  omega

theorem readWord_length {x : BitVec 64} (read : readWord bytes = some (x, rest)) :
    bytes.length = rest.length + 8 := by
  simp only [readWord, Option.bind_eq_bind, Option.bind_eq_some_iff] at read
  obtain ⟨⟨part, rest'⟩, read, same⟩ := read
  cases same
  exact (readBytes_length read).1

theorem readHalf_length {x : BitVec 32} (read : readHalf bytes = some (x, rest)) :
    bytes.length = rest.length + 4 := by
  simp only [readHalf, Option.bind_eq_bind, Option.bind_eq_some_iff] at read
  obtain ⟨⟨part, rest'⟩, read, same⟩ := read
  cases same
  exact (readBytes_length read).1

/-- What is read from a string is read from a longer one. -/
theorem readBytes_prefix {part : List UInt8} (read : readBytes n bytes = some (part, rest))
    (more : List UInt8) : readBytes n (bytes ++ more) = some (part, rest ++ more) := by
  unfold readBytes at read ⊢
  split_ifs at read with enough
  cases read
  rw [if_pos (by rw [List.length_append]; omega), List.take_append_of_le_length enough,
    List.drop_append_of_le_length enough]

theorem readHalf_prefix {x : BitVec 32} (read : readHalf bytes = some (x, rest))
    (more : List UInt8) : readHalf (bytes ++ more) = some (x, rest ++ more) := by
  simp only [readHalf, Option.bind_eq_bind, Option.bind_eq_some_iff] at read ⊢
  obtain ⟨⟨part, rest'⟩, read, same⟩ := read
  cases same
  exact ⟨_, readBytes_prefix read more, rfl⟩

/-! ### Order -/

/-- The sign of `memcmp` of two stretches of one length. -/
def memcmp : List UInt8 → List UInt8 → Int
  | a :: l, b :: r => if a < b then -1 else if b < a then 1 else memcmp l r
  | _, _ => 0

theorem memcmp_nil (r : List UInt8) : memcmp [] r = 0 := rfl

theorem memcmp_cons (a b : UInt8) (l r : List UInt8) :
    memcmp (a :: l) (b :: r) = if a < b then -1 else if b < a then 1 else memcmp l r := rfl

@[simp] theorem memcmp_self (l : List UInt8) : memcmp l l = 0 := by
  induction l with
  | nil => rfl
  | cons a l ih => simp [memcmp_cons, ih]

variable {l r : List UInt8}

/-- `memcmp` compares the lists of bytes. -/
theorem memcmp_signs (length : l.length = r.length) :
    Signs (memcmp l r) (l.map UInt8.toNat) (r.map UInt8.toNat) := by
  induction l generalizing r with
  | nil =>
    cases r with
    | nil => exact ⟨by simp, by simp⟩
    | cons b r => cases length
  | cons a l ih =>
    cases r with
    | nil => cases length
    | cons b r =>
      rw [memcmp_cons]
      split_ifs with less greater
      · exact .of_lt (by decide) (List.cons_lt_cons_iff.mpr (.inl (UInt8.lt_iff_toNat_lt.mp less)))
      · exact .of_gt (by decide)
          (List.cons_lt_cons_iff.mpr (.inl (UInt8.lt_iff_toNat_lt.mp greater)))
      · obtain rfl : a = b := UInt8.le_antisymm (UInt8.not_lt.mp greater) (UInt8.not_lt.mp less)
        exact (ih (Nat.succ.inj length)).cons _

/-- Two stretches of one length, and what follows them. -/
theorem memcmp_append {a b : List UInt8} (length : a.length = b.length) (x y : List UInt8) :
    memcmp (a ++ x) (b ++ y) = if memcmp a b ≠ 0 then memcmp a b else memcmp x y := by
  induction a generalizing b with
  | nil =>
    obtain rfl := List.length_eq_zero_iff.mp length.symm
    rfl
  | cons c a ih =>
    cases b with
    | nil => cases length
    | cons d b =>
      have rest := ih (Nat.succ.inj length)
      simp only [List.cons_append, memcmp_cons]
      by_cases less : c < d
      · simp [less]
      · by_cases greater : d < c
        · simp [less, greater]
        · simpa [less, greater] using rest

/-- With the high byte first, `memcmp` compares the numbers. -/
theorem memcmp_reverse_leBytes {m : Nat} (left : m < 256 ^ width) (right : n < 256 ^ width) :
    memcmp (leBytes width m).reverse (leBytes width n).reverse =
      if m < n then -1 else if n < m then 1 else 0 := by
  induction width generalizing m n with
  | zero =>
    obtain rfl : m = 0 := Nat.lt_one_iff.mp left
    obtain rfl : n = 0 := Nat.lt_one_iff.mp right
    rfl
  | succ width ih =>
    -- the high bytes decide, and the low ones where those are equal
    have high : ∀ k < 256 ^ (width + 1), k / 256 < 256 ^ width := by
      intro k below
      rw [Nat.pow_succ'] at below
      exact Nat.div_lt_of_lt_mul below
    have low : ∀ j k : Nat, UInt8.ofNat j < UInt8.ofNat k ↔ j % 256 < k % 256 := by
      intro j k
      rw [UInt8.lt_iff_toNat_lt, UInt8.toNat_ofNat', UInt8.toNat_ofNat']
    rw [leBytes, leBytes, List.reverse_cons, List.reverse_cons,
      memcmp_append (by simp), ih (high m left) (high n right)]
    simp only [memcmp_cons, memcmp_nil, low]
    split_ifs <;> omega

/-- Strings of known length: by their common part, then the longer is the greater. -/
def compareCounted (s t : List UInt8) : Int :=
  let common := min s.length t.length
  let result := memcmp (s.take common) (t.take common)
  if result ≠ 0 then result else (s.length : Int) - t.length

theorem compareCounted_nil_cons (b : UInt8) (t : List UInt8) :
    (compareCounted [] (b :: t)).sign = -1 := by
  apply Int.sign_eq_neg_one_of_neg
  simp only [compareCounted, List.take_nil, memcmp_nil, List.length_nil, List.length_cons]
  omega

theorem compareCounted_cons_nil (a : UInt8) (s : List UInt8) :
    (compareCounted (a :: s) []).sign = 1 := by
  apply Int.sign_eq_one_of_pos
  simp only [compareCounted, List.length_nil, Nat.min_zero, List.take_zero, memcmp_nil,
    List.length_cons]
  omega

theorem compareCounted_cons_cons (a b : UInt8) (s t : List UInt8) :
    compareCounted (a :: s) (b :: t) =
      if a < b then -1 else if b < a then 1 else compareCounted s t := by
  simp only [compareCounted, List.length_cons, Nat.add_min_add_right, List.take_succ_cons,
    memcmp_cons]
  split_ifs <;> first | rfl | omega

/-- A terminating zero byte makes no difference: it is the least byte. -/
theorem compareCounted_terminated (s t : List UInt8) :
    (compareCounted (s ++ [0]) (t ++ [0])).sign = (compareCounted s t).sign := by
  induction s generalizing t with
  | nil =>
    cases t with
    | nil => rfl
    | cons b t =>
      rw [compareCounted_nil_cons, List.nil_append, List.cons_append, compareCounted_cons_cons]
      split_ifs with less greater
      · rfl
      · exact absurd greater UInt8.not_lt_zero
      · cases t <;> exact compareCounted_nil_cons _ _
  | cons a s ih =>
    cases t with
    | nil =>
      rw [compareCounted_cons_nil, List.nil_append, List.cons_append, compareCounted_cons_cons]
      split_ifs with less greater
      · exact absurd less UInt8.not_lt_zero
      · rfl
      · cases s <;> exact compareCounted_cons_nil _ _
    | cons b t =>
      rw [List.cons_append, List.cons_append, compareCounted_cons_cons, compareCounted_cons_cons]
      split_ifs
      · rfl
      · rfl
      · exact ih t

/-- Two strings that are continued behind a zero byte: by what stands before it, then by what
follows. -/
theorem compareCounted_zero_append {p q : List UInt8} (hp : 0 ∉ p) (hq : 0 ∉ q) (x y : List UInt8) :
    compareCounted (p ++ 0 :: x) (q ++ 0 :: y) =
      if memcmp (p ++ [0]) (q ++ [0]) ≠ 0 then memcmp (p ++ [0]) (q ++ [0])
      else compareCounted x y := by
  induction p generalizing q with
  | nil =>
    cases q with
    | nil => simp [compareCounted_cons_cons]
    | cons b q =>
      have positive : 0 < b := UInt8.pos_iff_ne_zero.mpr fun zero => hq (by simp [zero])
      simp [compareCounted_cons_cons, memcmp_cons, positive]
  | cons a p ih =>
    cases q with
    | nil =>
      have positive : 0 < a := UInt8.pos_iff_ne_zero.mpr fun zero => hp (by simp [zero])
      have above : ¬ a < 0 := UInt8.not_lt_zero
      simp [compareCounted_cons_cons, memcmp_cons, positive, above]
    | cons b q =>
      have rest := ih (fun mem => hp (.tail _ mem)) fun mem => hq (.tail b mem)
      simp only [List.cons_append, compareCounted_cons_cons, memcmp_cons]
      by_cases less : a < b
      · simp [less]
      · by_cases greater : b < a
        · simp [less, greater]
        · simpa [less, greater] using rest

theorem eq_of_memcmp (length : l.length = r.length) (same : memcmp l r = 0) : l = r := by
  induction l generalizing r with
  | nil => exact (List.length_eq_zero_iff.mp length.symm).symm
  | cons a l ih =>
    cases r with
    | nil => cases length
    | cons b r =>
      rw [memcmp_cons] at same
      have less : ¬ a < b := fun less => by simp [less] at same
      have greater : ¬ b < a := fun greater => by simp [less, greater] at same
      rw [if_neg less, if_neg greater] at same
      have head : a = b := UInt8.le_antisymm (UInt8.not_lt.mp greater) (UInt8.not_lt.mp less)
      rw [head, ih (Nat.succ.inj length) same]

/-- Strings of one length. -/
theorem compareCounted_of_length (length : l.length = r.length) :
    compareCounted l r = memcmp l r := by
  have all : r.take l.length = r := by rw [length, List.take_length]
  rw [compareCounted, ← length, min_self, List.take_length, all]
  split_ifs with differ
  · rfl
  · rw [not_not.mp differ, sub_self]

theorem eq_of_compareCounted (same : compareCounted l r = 0) : l = r := by
  rw [compareCounted] at same
  split_ifs at same with differ
  · exact absurd same differ
  · have length : l.length = r.length := by omega
    have all : memcmp l r = 0 := by
      simpa [length, List.take_of_length_le, length.le] using differ
    exact eq_of_memcmp length all

end TokuMX.Lib
