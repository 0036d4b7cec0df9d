import TokuMX.BSON.Validate

/-!
The grammar of BSON documents, and what the reads of `validateBSON` (`bson/bson_validate.cpp`)
consume of one.

`Derives` is the grammar over byte strings; the machine of the validator works on
positions, so what lies between two of them is written `Consumes b p x q`.
-/

namespace TokuMX.BSON.Validation

open TokuMX.Lib

/-! ### The grammar -/

/-- A length as it is stored. -/
def int32 (n : Nat) : List UInt8 := halfBytes (BitVec.ofNat 32 n)

/-- A string: its length, which counts the zero byte at its end, and its bytes. -/
def IsString (x : List UInt8) : Prop :=
  ∃ text : List UInt8, text.length + 1 < 2 ^ 31 ∧ x = int32 (text.length + 1) ++ (text ++ [0])

/-- The length of the values of a type, where all have the same. -/
def fixedWidth : BSONType → Option Nat
  | .minKey | .maxKey | .jstNULL | .undefined => some 0
  | .jstOID => some 12
  | .numberInt => some 4
  | .bool => some 1
  | .numberDouble | .numberLong | .timestamp | .date => some 8
  | _ => none

/-- The types whose values are one string. -/
def IsStringType (type : BSONType) : Prop := type = .string ∨ type = .code ∨ type = .symbol

/-- The values that hold no document. -/
inductive Scalar : BSONType → List UInt8 → Prop where
  | fixed {type data} :
      fixedWidth type = some data.length → Scalar type data
  | string {type x} : IsStringType type → IsString x → Scalar type x
  | dbRef {x oid} : IsString x → oid.length = 12 → Scalar .dbRef (x ++ oid)
  | regEx {regex flags} : 0 ∉ regex → 0 ∉ flags →
      Scalar .regEx ((regex ++ [0]) ++ (flags ++ [0]))
  | binData {subtype data} : data.length < 2 ^ 31 →
      Scalar .binData (int32 data.length ++ subtype :: data)

inductive Nonterminal where
  | document
  | elements
  | value (type : BSONType)

/-- The type and the name of an element. -/
def elementHeader (type : BSONType) (name : List UInt8) : List UInt8 :=
  type.toByte :: (name ++ [0])

/-- The grammar of documents. -/
inductive Derives : Nonterminal → List UInt8 → Prop where
  | document {body} : Derives .elements body → body.length + 5 < 2 ^ 31 →
      Derives .document (int32 (body.length + 5) ++ (body ++ [0]))
  | none : Derives .elements []
  | element {type name value before} : Derives .elements before →
      0 ∉ name → Derives (.value type) value →
      Derives .elements (before ++ (elementHeader type name ++ value))
  | scalar {type value} : Scalar type value →
      Derives (.value type) value
  | object {value} : Derives .document value → Derives (.value .object) value
  | array {value} : Derives .document value → Derives (.value .array) value
  | codeWScope {code scope} : IsString code → Derives .document scope →
      4 + (code ++ scope).length < 2 ^ 31 →
      Derives (.value .codeWScope) (int32 (4 + (code ++ scope).length) ++ (code ++ scope))

/-- The bytes that may be read. -/
def Memory.readable (b : Memory) : List UInt8 := b.bytes.take b.maxLength

/-- The buffer starts with a document. -/
def StartsWithDocument (b : Memory) : Prop := ∃ d, Derives .document d ∧ d <+: b.readable

/-- The validator accepts the buffer. -/
def Accepts (b : Memory) : Prop := ∃ fuel, validateBSON b fuel = some (.ok ())

/-! ### Positions and bytes -/

/-- `x` is what lies from `p` up to `q`. -/
structure Consumes (b : Memory) (p : Nat) (x : List UInt8) (q : Nat) : Prop where
  stop : q = p + x.length
  inside : q ≤ b.maxLength
  bytes : b.readable.drop p = x ++ b.readable.drop q

/-- The length field at a position is at least `low`. -/
def AtLeast (b : Memory) (low : Int) (p : Nat) : Prop :=
  ∀ size q, Consumes b p (halfBytes size) q → low ≤ size.toInt

/-- The length field of a value: a string's is at least one, a binary's is not negative, nor
the largest `int` where the buffer is large enough for `1 + size` to lead back into it. -/
def ValueLengths (b : Memory) (p : Nat) : BSONType → Prop
  | .string | .code | .symbol | .dbRef => AtLeast b 1 p
  | .binData => AtLeast b 0 p ∧ (b.maxLength < 2 ^ 31 ∨
      ∀ size q, Consumes b p (halfBytes size) q → size.toNat + 1 < 2 ^ 31)
  | _ => True

/-- The length field of the element at a position. -/
def ElementLengths (b : Memory) (p : Nat) : Prop :=
  ∀ type name q, 0 ∉ name → Consumes b p (elementHeader type name) q → ValueLengths b q type

variable {b : Memory} {p q r : Nat} {x y : List UInt8}

theorem Memory.length_readable (b : Memory) : b.readable.length = b.maxLength := by
  rw [Memory.readable, List.length_take, Nat.min_eq_left b.backed]

theorem Consumes.nil (inside : p ≤ b.maxLength) : Consumes b p [] p := ⟨rfl, inside, rfl⟩

theorem Consumes.append (left : Consumes b p x q) (right : Consumes b q y r) :
    Consumes b p (x ++ y) r := by
  refine ⟨?_, right.inside, ?_⟩
  · rw [List.length_append, right.stop, left.stop, Nat.add_assoc]
  · rw [left.bytes, right.bytes, List.append_assoc]

theorem Consumes.split (all : Consumes b p (x ++ y) r) :
    Consumes b p x (p + x.length) ∧ Consumes b (p + x.length) y r := by
  have stop := all.stop
  have inside := all.inside
  rw [List.length_append] at stop
  have later : b.readable.drop (p + x.length) = y ++ b.readable.drop r := by
    rw [← List.drop_drop, all.bytes, List.append_assoc, List.drop_left]
  exact ⟨⟨rfl, by omega, by rw [all.bytes, later, List.append_assoc]⟩, by omega, inside, later⟩

/-- Bytes are determined by where they are and how many. -/
theorem Consumes.unique (left : Consumes b p x q) (right : Consumes b p y r)
    (length : x.length = y.length) : x = y := by
  have same := left.bytes.symm.trans right.bytes
  exact (List.append_inj same length).1

theorem consumes_take (inside : p + r ≤ b.maxLength) :
    Consumes b p ((b.bytes.drop p).take r) (p + r) := by
  have backed := b.backed
  have length : ((b.bytes.drop p).take r).length = r := by
    rw [List.length_take, List.length_drop]
    omega
  refine ⟨by rw [length], inside, ?_⟩
  have front : (b.bytes.drop p).take r = (b.readable.drop p).take r := by
    rw [Memory.readable, List.drop_take, List.take_take, Nat.min_eq_left (by omega)]
  rw [front, ← List.drop_drop, List.take_append_drop]

theorem startsWith_iff {d : List UInt8} : d <+: b.readable ↔ Consumes b 0 d d.length := by
  constructor
  · rintro ⟨rest, split⟩
    have length := congrArg List.length split
    rw [List.length_append, b.length_readable] at length
    refine ⟨(Nat.zero_add _).symm, by omega, ?_⟩
    rw [← split, List.drop_left, List.drop_zero]
  · intro consumes
    exact ⟨_, consumes.bytes.symm⟩

/-! ### What the reads consume -/

variable {width n : Nat}

theorem readNumber_eq_ok {reason : String} (near : p ≤ b.maxLength + 12) (narrow : width ≤ 8) :
    readNumber b width reason p = .ok (n, q) ↔
      ∃ data, data.length = width ∧ ofLeBytes data = n ∧ Consumes b p data q := by
  have backed := b.backed
  have addressable := b.addressable
  rw [readNumber_eq reason (by omega)]
  constructor
  · intro read
    split_ifs at read with short
    obtain ⟨rfl, rfl⟩ := Prod.mk.inj (Except.ok.inj read)
    refine ⟨_, ?_, rfl, consumes_take (not_lt.mp short)⟩
    rw [List.length_take, List.length_drop]
    omega
  · rintro ⟨data, rfl, rfl, consumes⟩
    have stop := consumes.stop
    have inside := consumes.inside
    have taken : Consumes b p ((b.bytes.drop p).take data.length) (p + data.length) :=
      consumes_take (by omega)
    have same := taken.unique consumes (by
      rw [List.length_take, List.length_drop]
      omega)
    rw [if_neg (by omega), same, stop]

variable {size : BitVec 32}

theorem readInt_eq_ok (reason : String) (near : p ≤ b.maxLength + 12) :
    readInt b reason p = .ok (size, q) ↔ Consumes b p (halfBytes size) q := by
  simp only [readInt, except_bind_eq_ok, Prod.exists, readNumber_eq_ok near (by decide : 4 ≤ 8),
    pure, Except.pure, Except.ok.injEq, Prod.mk.injEq]
  constructor
  · rintro ⟨n, q', ⟨data, length, rfl, consumes⟩, rfl, rfl⟩
    have small := ofLeBytes_lt data
    rw [length] at small
    have value : (BitVec.ofNat 32 (ofLeBytes data)).toNat = ofLeBytes data := by
      rw [BitVec.toNat_ofNat]
      omega
    rw [halfBytes, value, ← length, leBytes_ofLeBytes]
    exact consumes
  · intro consumes
    have small : size.toNat < 256 ^ 4 := by
      have := size.isLt
      omega
    refine ⟨_, q, ⟨halfBytes size, length_leBytes _ _, rfl, consumes⟩, ?_, rfl⟩
    rw [halfBytes, ofLeBytes_leBytes small, BitVec.ofNat_toNat, BitVec.setWidth_eq]

theorem readChar_eq_ok {c : UInt8} (reason : String) (near : p ≤ b.maxLength + 12) :
    readChar b reason p = .ok (c, q) ↔ Consumes b p [c] q := by
  simp only [readChar, except_bind_eq_ok, Prod.exists, readNumber_eq_ok near (by decide : 1 ≤ 8),
    pure, Except.pure, Except.ok.injEq, Prod.mk.injEq]
  constructor
  · rintro ⟨n, q', ⟨data, length, rfl, consumes⟩, rfl, rfl⟩
    obtain ⟨byte, rfl⟩ := List.length_eq_one_iff.mp length
    simpa [ofLeBytes] using consumes
  · intro consumes
    exact ⟨_, q, ⟨[c], rfl, rfl, consumes⟩, by simp [ofLeBytes], rfl⟩

theorem region_eq (b : Memory) (p : Nat) : region b p = b.readable.drop p := by
  rw [region, Memory.readable, List.drop_take]

theorem readCString_eq_ok (inside : p ≤ b.maxLength) :
    readCString b p = .ok q ↔ ∃ name, 0 ∉ name ∧ Consumes b p (name ++ [0]) q := by
  have length := length_region inside
  rw [readCString_eq inside]
  constructor
  · intro read
    cases found : (region b p).findIdx? (· = 0) with
    | none => simp [found] at read
    | some n =>
      simp only [found, Except.ok.injEq] at read
      obtain ⟨short, zero, before⟩ := List.findIdx?_eq_some_iff_getElem.mp found
      have split : (region b p).take (n + 1) = (region b p).take n ++ [0] := by
        rw [List.take_add_one, List.getElem?_eq_getElem short, of_decide_eq_true zero]
        rfl
      refine ⟨(region b p).take n, ?_, ?_⟩
      · intro mem
        obtain ⟨i, bound, value⟩ := List.mem_iff_getElem.mp mem
        rw [List.length_take] at bound
        rw [List.getElem_take] at value
        exact before i (by omega) (decide_eq_true value)
      · rw [← split, ← read]
        have taken := consumes_take (b := b) (p := p) (r := n + 1) (by omega)
        rwa [show (b.bytes.drop p).take (n + 1) = (region b p).take (n + 1) by
          rw [region, List.take_take, Nat.min_eq_left (by omega)]] at taken
  · rintro ⟨name, clean, consumes⟩
    have shape : region b p = name ++ (0 :: b.readable.drop q) := by
      rw [region_eq, consumes.bytes, List.append_assoc]
      rfl
    have found : (region b p).findIdx? (· = 0) = some name.length := by
      rw [List.findIdx?_eq_some_iff_getElem]
      refine ⟨by simp [shape], by simp [shape], fun i before zero => ?_⟩
      simp only [shape, List.getElem_append_left before, decide_eq_true_eq] at zero
      exact clean (zero ▸ List.getElem_mem before)
    have stop := consumes.stop
    rw [List.length_append] at stop
    simp only [found, stop]
    rfl

theorem skipWithin_eq_ok (near : p ≤ b.maxLength) (narrow : width ≤ 2 ^ 31) :
    skipWithin b width p = .ok q ↔
      q < b.maxLength ∧ ∃ data, data.length = width ∧ Consumes b p data q := by
  have backed := b.backed
  have addressable := b.addressable
  have moved : skip width p = p + width := uint64_of_nonneg (by simp) (by omega)
  rw [skipWithin, moved]
  constructor
  · intro skipped
    split_ifs at skipped with inside
    obtain rfl := Except.ok.inj skipped
    refine ⟨inside, _, ?_, consumes_take inside.le⟩
    rw [List.length_take, List.length_drop]
    omega
  · rintro ⟨inside, data, rfl, consumes⟩
    have stop := consumes.stop
    rw [if_pos (by omega), stop]

/-- The position does not move to before the start of the buffer. -/
theorem skipWithin_before {size : Int} (before : p + size < 0) (near : -2 ^ 63 ≤ size) :
    skipWithin b size p = .error (.invalidBSON "invalid bson") := by
  have backed := b.backed
  have addressable := b.addressable
  refine if_neg ?_
  unfold skip uint64
  omega

/-! ### Strings -/

/-- There is one length field at a position. -/
theorem Consumes.atLeast {low : Int} (length : Consumes b p (halfBytes size) q)
    (enough : low ≤ size.toInt) : AtLeast b low p := by
  intro size' q' length'
  have same : halfBytes size' = halfBytes size :=
    length'.unique length ((length_leBytes _ _).trans (length_leBytes _ _).symm)
  have read := readHalf_halfBytes size' []
  rw [same, readHalf_halfBytes] at read
  rwa [← (Prod.mk.inj (Option.some.inj read)).1]

/-- An `int` that is not negative. -/
theorem toNat_of_toInt (low : Nat) (positive : (low : Int) ≤ size.toInt) :
    low ≤ size.toNat ∧ size.toNat < 2 ^ 31 ∧ size.toInt = size.toNat := by
  have bound := size.isLt
  rw [BitVec.toInt_eq_toNat_cond] at positive ⊢
  split_ifs at positive ⊢ <;> omega

theorem toInt_ofNat (small : n < 2 ^ 31) :
    (BitVec.ofNat 32 n).toNat = n ∧ (BitVec.ofNat 32 n).toInt = n := by
  have value : (BitVec.ofNat 32 n).toNat = n := by
    rw [BitVec.toNat_ofNat]
    omega
  refine ⟨value, ?_⟩
  rw [BitVec.toInt_eq_toNat_cond, value, if_pos (by omega)]

theorem toInt_sub_one (positive : 1 ≤ size.toNat) (small : size.toNat < 2 ^ 31) :
    (size - 1).toInt = ((size.toNat - 1 : Nat) : Int) := by
  have value : (size - 1).toNat = size.toNat - 1 := by
    rw [BitVec.toNat_sub, show (1 : BitVec 32).toNat = 1 from rfl]
    omega
  rw [BitVec.toInt_eq_toNat_cond, value, if_pos (by omega)]

theorem toInt_one_add (small : size.toNat + 1 < 2 ^ 31) :
    (1 + size).toInt = ((1 + size.toNat : Nat) : Int) := by
  have value : (1 + size).toNat = 1 + size.toNat := by
    rw [BitVec.toNat_add, show (1 : BitVec 32).toNat = 1 from rfl]
    omega
  rw [BitVec.toInt_eq_toNat_cond, value, if_pos (by omega)]

/-- The stored length of something, read as an `int`. -/
theorem int32_toNat (size : BitVec 32) : int32 size.toNat = halfBytes size := by
  rw [int32, BitVec.ofNat_toNat, BitVec.setWidth_eq]

@[simp] theorem length_int32 (n : Nat) : (int32 n).length = 4 := length_leBytes _ _

/-- A string whose length is in order. -/
theorem readUTF8String_eq_ok (near : p ≤ b.maxLength + 12) :
    (readUTF8String b p = .ok q ∧ AtLeast b 1 p) ↔
      ∃ x, IsString x ∧ Consumes b p x q := by
  simp only [readUTF8String, except_bind_eq_ok, Prod.exists, readInt_eq_ok _ near]
  constructor
  · rintro ⟨⟨size, p₁, length, p₂, skipped, c, p₃, last, closed⟩, good⟩
    have positive := good size p₁ length
    obtain ⟨one, small, -⟩ := toNat_of_toInt 1 positive
    have inside := length.inside
    rw [toInt_sub_one one small, skipWithin_eq_ok inside (by omega)] at skipped
    obtain ⟨before, text, size', consumes⟩ := skipped
    rw [readChar_eq_ok _ (by omega)] at last
    split_ifs at closed with zero
    obtain rfl := Except.ok.inj closed
    subst zero
    have counted : size.toNat = text.length + 1 := by omega
    refine ⟨_, ⟨text, by omega, rfl⟩, ?_⟩
    rw [← counted, int32_toNat]
    exact length.append (consumes.append last)
  · rintro ⟨x, ⟨text, small, rfl⟩, consumes⟩
    obtain ⟨length, rest⟩ := consumes.split
    obtain ⟨body, last⟩ := rest.split
    obtain ⟨value, value'⟩ := toInt_ofNat small
    have inside := body.inside
    have before := last.stop
    have within := last.inside
    rw [List.length_singleton] at before
    refine ⟨⟨_, _, length, _, ?_, 0, q, (readChar_eq_ok _ (by omega)).mpr last, by simp⟩, ?_⟩
    · rw [toInt_sub_one (by omega) (by omega), value, Nat.add_sub_cancel,
        skipWithin_eq_ok (by omega) (by omega)]
      exact ⟨by omega, text, rfl, body⟩
    · exact length.atLeast (by omega)

/-! ### Values without documents -/

variable {type : BSONType}

theorem validateValue_fixed (fixed : fixedWidth type = some width) :
    ValueLengths b p type ∧ validateValue b p type =
      if width = 0 then .ok ⟨p, .withinObj⟩
      else do return ⟨← skipWithin b (width : Int) p, .withinObj⟩ := by
  cases type <;> simp only [fixedWidth, Option.some.injEq, reduceCtorEq] at fixed <;>
    subst fixed <;> exact ⟨trivial, rfl⟩

theorem fixedWidth_le (fixed : fixedWidth type = some width) : width ≤ 12 := by
  cases type <;> simp only [fixedWidth, Option.some.injEq, reduceCtorEq] at fixed <;> omega

/-- A value of the grammar is read in one step, if it does not end the buffer, and its
lengths are in order. -/
theorem validateValue_scalar (small : b.maxLength < 2 ^ 31) {value : List UInt8}
    (scalar : Scalar type value) (consumes : Consumes b p value q) (within : q < b.maxLength) :
    validateValue b p type = .ok ⟨q, .withinObj⟩ ∧ ValueLengths b p type := by
  have stop := consumes.stop
  have start : p ≤ b.maxLength := by omega
  have near : p ≤ b.maxLength + 12 := by omega
  cases scalar with
  | fixed width =>
    obtain ⟨good, read⟩ := validateValue_fixed (b := b) (p := p) width
    refine ⟨?_, good⟩
    rw [read]
    split_ifs with none
    · rw [stop, none, Nat.add_zero]
    · have narrow := fixedWidth_le width
      have skipped := (skipWithin_eq_ok start (by omega)).mpr ⟨within, value, rfl, consumes⟩
      simp [skipped, bind, Except.bind, pure, Except.pure]
  | string isString string =>
    obtain ⟨read, good⟩ := (readUTF8String_eq_ok near).mpr ⟨_, string, consumes⟩
    rcases isString with rfl | rfl | rfl <;>
      exact ⟨by simp [validateValue, read, bind, Except.bind, pure, Except.pure], good⟩
  | @dbRef x oid string length =>
    obtain ⟨first, last⟩ := consumes.split
    obtain ⟨read, good⟩ := (readUTF8String_eq_ok near).mpr ⟨_, string, first⟩
    have addressable := b.addressable
    have backed := b.backed
    have behind : skip 12 (p + x.length) = q :=
      uint64_of_nonneg (by rw [last.stop, length]; rfl) (by omega)
    exact ⟨by simp [validateValue, read, behind, bind, Except.bind, pure, Except.pure], good⟩
  | regEx regex flags =>
    obtain ⟨first, last⟩ := consumes.split
    have inside := first.inside
    have read := (readCString_eq_ok start).mpr ⟨_, regex, first⟩
    have read' := (readCString_eq_ok inside).mpr ⟨_, flags, last⟩
    refine ⟨?_, trivial⟩
    simp only [validateValue, read, read', bind, Except.bind, pure, Except.pure]
  | @binData subtype data short =>
    obtain ⟨length, rest⟩ := consumes.split
    obtain ⟨value, value'⟩ := toInt_ofNat short
    have inside := length.inside
    have total := rest.stop
    rw [List.length_cons] at total
    have read := (readInt_eq_ok "invalid bson" near).mpr length
    have skipped : skipWithin b (1 + BitVec.ofNat 32 data.length).toInt
        (p + (int32 data.length).length) = .ok q := by
      rw [toInt_one_add (by omega), value]
      exact (skipWithin_eq_ok inside (by omega)).mpr
        ⟨within, _, by rw [List.length_cons, Nat.add_comm], rest⟩
    refine ⟨?_, ?_⟩
    · simp only [validateValue, read, skipped, bind, Except.bind, pure, Except.pure]
    · exact ⟨length.atLeast (by omega), .inl small⟩

/-- Conversely, a value without a frame of its own is a value of the grammar, unless the
machine is then behind the end of the buffer. -/
theorem scalar_of_validateValue (inside : p ≤ b.maxLength)
    (read : validateValue b p type = .ok ⟨q, .withinObj⟩) (good : ValueLengths b p type) :
    (∃ value, Scalar type value ∧ Consumes b p value q) ∨ b.maxLength < q := by
  have near : p ≤ b.maxLength + 12 := by omega
  have fixed : ∀ {width}, fixedWidth type = some width →
      ∃ value, Scalar type value ∧ Consumes b p value q := by
    intro width fixed
    have narrow := fixedWidth_le fixed
    rw [(validateValue_fixed fixed).2] at read
    split_ifs at read with none
    · obtain ⟨rfl, -⟩ := Control.mk.inj (Except.ok.inj read)
      exact ⟨[], .fixed (fixed.trans (by rw [none]; rfl)), .nil inside⟩
    · simp only [except_bind_eq_ok, pure, Except.pure, Except.ok.injEq, Control.mk.injEq,
        and_true] at read
      obtain ⟨q', skipped, rfl⟩ := read
      obtain ⟨-, data, rfl, consumes⟩ := (skipWithin_eq_ok inside (by omega)).mp skipped
      exact ⟨data, .fixed fixed, consumes⟩
  cases type
  case minKey | maxKey | jstNULL | undefined | jstOID | numberInt | bool | numberDouble
    | numberLong | timestamp | date => exact .inl (fixed rfl)
  all_goals simp only [validateValue, except_bind_eq_ok, Prod.exists, readInt_eq_ok _ near, pure,
    Except.pure, Except.ok.injEq, Control.mk.injEq, and_true, and_false, reduceCtorEq,
    exists_eq_right] at read
  case code | symbol | string =>
    obtain ⟨x, string, consumes⟩ := (readUTF8String_eq_ok near).mp ⟨read, good⟩
    exact .inl ⟨x, .string (by simp [IsStringType]) string, consumes⟩
  case dbRef =>
    obtain ⟨q', read, rfl⟩ := read
    obtain ⟨x, string, consumes⟩ := (readUTF8String_eq_ok near).mp ⟨read, good⟩
    have addressable := b.addressable
    have backed := b.backed
    have behind : skip 12 q' = q' + 12 := uint64_of_nonneg rfl (by
      have := consumes.inside
      omega)
    rw [behind]
    rcases Nat.lt_or_ge b.maxLength (q' + 12) with beyond | within
    · exact .inr beyond
    · have oid : Consumes b q' _ (q' + 12) := consumes_take within
      refine .inl ⟨_, .dbRef string ?_, consumes.append oid⟩
      rw [List.length_take, List.length_drop]
      omega
  case regEx =>
    obtain ⟨q', first, second⟩ := read
    obtain ⟨regex, clean, consumes⟩ := (readCString_eq_ok inside).mp first
    obtain ⟨flags, clean', consumes'⟩ := (readCString_eq_ok consumes.inside).mp second
    exact .inl ⟨_, .regEx clean clean', consumes.append consumes'⟩
  case binData =>
    obtain ⟨size, p₁, length, skipped⟩ := read
    obtain ⟨-, narrow, -⟩ := toNat_of_toInt 0 (good.1 size p₁ length)
    have inside := length.inside
    have room : size.toNat + 1 < 2 ^ 31 := by
      rcases good.2 with small | room
      swap
      · exact room size p₁ length
      by_contra full
      have most : (1 + size).toInt = -2 ^ 31 := by
        have value : (1 + size).toNat = 2 ^ 31 := by
          rw [BitVec.toNat_add, show (1 : BitVec 32).toNat = 1 from rfl]
          omega
        rw [BitVec.toInt_eq_toNat_cond, value]
        rfl
      rw [most, skipWithin_before (by omega) (by omega)] at skipped
      cases skipped
    rw [toInt_one_add room, skipWithin_eq_ok inside (by omega)] at skipped
    obtain ⟨-, data, counted, consumes⟩ := skipped
    obtain ⟨subtype, data, rfl⟩ := List.exists_cons_of_length_eq_add_one
      (counted.trans (Nat.add_comm _ _))
    have size' : size.toNat = data.length := by
      rw [List.length_cons] at counted
      omega
    refine .inl ⟨int32 data.length ++ subtype :: data, .binData (by omega), ?_⟩
    rw [← size', int32_toNat]
    exact length.append consumes

/-! ### Elements -/

theorem toByte_of_ofByte {byte : UInt8} (known : BSONType.ofByte byte = some type) :
    type.toByte = byte := by
  unfold BSONType.ofByte at known
  simpa using List.find?_some known

theorem toByte_ne_zero (type : BSONType) : type.toByte ≠ 0 := by
  cases type <;> decide

/-- One element begins at a position. -/
theorem elementHeader_unique {type' : BSONType} {name name' : List UInt8} (clean : 0 ∉ name)
    (clean' : 0 ∉ name') (header : Consumes b p (elementHeader type name) q)
    (header' : Consumes b p (elementHeader type' name') r) : type' = type ∧ r = q := by
  obtain ⟨first, rest⟩ := Consumes.split (x := [type.toByte]) header
  obtain ⟨first', rest'⟩ := Consumes.split (x := [type'.toByte]) header'
  have same := (List.cons.inj (first'.unique first rfl)).1
  have read := (readCString_eq_ok first.inside).mpr ⟨name, clean, rest⟩
  have read' := (readCString_eq_ok first'.inside).mpr ⟨name', clean', rest'⟩
  refine ⟨?_, Except.ok.inj (read'.symm.trans read)⟩
  exact Option.some.inj (by rw [← BSONType.ofByte_toByte, same, BSONType.ofByte_toByte])

/-- None begins where an object ends. -/
theorem not_elementHeader {name : List UInt8} (last : Consumes b p [0] q)
    (header : Consumes b p (elementHeader type name) r) : False := by
  obtain ⟨first, -⟩ := Consumes.split (x := [type.toByte]) header
  exact toByte_ne_zero type (List.cons.inj (first.unique last rfl)).1

/-- An element of the grammar: what is left is its value. -/
theorem validateElementInfo_element {name : List UInt8} (clean : 0 ∉ name)
    (header : Consumes b p (elementHeader type name) q) :
    validateElementInfo b p = validateValue b q type ∧
      (ValueLengths b q type → ElementLengths b p) := by
  have stop := header.stop
  have inside := header.inside
  obtain ⟨first, rest⟩ := Consumes.split (x := [type.toByte]) header
  have byte := (readChar_eq_ok "invalid bson" (by omega)).mpr first
  have name' := (readCString_eq_ok first.inside).mpr ⟨name, clean, rest⟩
  constructor
  · simp only [validateElementInfo, byte, name', bind, Except.bind, toByte_ne_zero, if_false,
      BSONType.ofByte_toByte]
  · intro good type' name'' q' clean' header'
    obtain ⟨rfl, rfl⟩ := elementHeader_unique clean clean' header header'
    exact good

/-- The end of an object. -/
theorem validateElementInfo_end (last : Consumes b p [0] q) :
    validateElementInfo b p = .ok ⟨q, .endObj⟩ ∧ ElementLengths b p := by
  have stop := last.stop
  have inside := last.inside
  rw [List.length_singleton] at stop
  have byte := (readChar_eq_ok "invalid bson" (by omega)).mpr last
  constructor
  · simp only [validateElementInfo, byte, bind, Except.bind, if_true]
  · intro type' name' q' _ header'
    exact (not_elementHeader last header').elim

variable {c : Control}

theorem validateElementInfo_eq_ok (near : p ≤ b.maxLength + 12)
    (read : validateElementInfo b p = .ok c) (good : ElementLengths b p) :
    (c.state = .endObj ∧ Consumes b p [0] c.position) ∨
      ∃ type name q, 0 ∉ name ∧ Consumes b p (elementHeader type name) q ∧
        validateValue b q type = .ok c ∧ ValueLengths b q type := by
  simp only [validateElementInfo, except_bind_eq_ok, Prod.exists] at read
  obtain ⟨byte, p₁, first, read⟩ := read
  have consumes := (readChar_eq_ok "invalid bson" near).mp first
  split_ifs at read with last
  · obtain rfl := Except.ok.inj read
    subst last
    exact .inl ⟨rfl, consumes⟩
  · obtain ⟨q, name', read⟩ := except_bind_eq_ok.mp read
    cases known : BSONType.ofByte byte with
    | none => simp [known] at read
    | some type =>
      rw [known] at read
      obtain ⟨name, clean, rest⟩ := (readCString_eq_ok consumes.inside).mp name'
      have header : Consumes b p (elementHeader type name) q := by
        rw [elementHeader, toByte_of_ofByte known]
        exact consumes.append rest
      exact .inr ⟨type, name, q, clean, header, read, good type name q clean header⟩

end TokuMX.BSON.Validation
