import TokuMX.BSON.Value

/-!
Objects as they lie in memory (`bson/bsonobj.h`, `bson/bsonobjiterator.h`,
`bson/bson-inl.h`, `bson/bsonobjbuilder.h`).

An object is its size in four bytes, its elements, and a zero byte. An element is a type
byte, its name up to a zero byte, and its value, whose length follows from the type or
stands before it. `parseObj` is what iterating over an object yields; a `BSONObj` is bytes
that can be iterated over, together with what that yields.
-/

namespace TokuMX.BSON

open TokuMX.Lib

/-- A length: an `int` that is not negative. -/
def readLength (p : List UInt8) : Option (Nat × List UInt8) := do
  let (n, p) ← readHalf p
  if n.toNat < 2 ^ 31 then some (n.toNat, p) else none

/-- A name, up to its zero byte. -/
def readCString : List UInt8 → Option (List UInt8 × List UInt8)
  | [] => none
  | b :: p =>
    if b = 0 then some ([], p)
    else do
      let (s, p) ← readCString p
      some (b :: s, p)

/-- A string with its length, which counts the zero byte at its end. -/
def readString (p : List UInt8) : Option (List UInt8 × List UInt8) := do
  let (size, p) ← readLength p
  if size = 0 then none
  else
    let (s, p) ← readBytes size p
    some (s.dropLast, p)

/-- The elements of an object, between its size and its last byte. -/
def readRegion (p : List UInt8) : Option (List UInt8 × List UInt8) := do
  let (size, _) ← readLength p
  if 5 ≤ size then
    let (data, p) ← readBytes size p
    some ((data.drop 4).dropLast, p)
  else none

/-- The types of elements. -/
inductive BSONType where
  | minKey | numberDouble | string | object | array | binData | undefined | jstOID | bool
  | date | jstNULL | regEx | dbRef | code | symbol | codeWScope | numberInt | timestamp
  | numberLong | maxKey
deriving DecidableEq

def BSONType.toByte : BSONType → UInt8
  | minKey => 0xff
  | numberDouble => 1
  | string => 2
  | object => 3
  | array => 4
  | binData => 5
  | undefined => 6
  | jstOID => 7
  | bool => 8
  | date => 9
  | jstNULL => 10
  | regEx => 11
  | dbRef => 12
  | code => 13
  | symbol => 14
  | codeWScope => 15
  | numberInt => 16
  | timestamp => 17
  | numberLong => 18
  | maxKey => 127

def BSONType.all : List BSONType :=
  [minKey, numberDouble, string, object, array, binData, undefined, jstOID, bool, date, jstNULL,
    regEx, dbRef, code, symbol, codeWScope, numberInt, timestamp, numberLong, maxKey]

/-- The type a byte stands for. -/
def BSONType.ofByte (b : UInt8) : Option BSONType := all.find? (·.toByte = b)

theorem BSONType.ofByte_toByte (t : BSONType) : ofByte t.toByte = some t := by
  cases t <;> rfl

/-- The value of an element that is not an embedded object. -/
def readScalar (type : BSONType) (p : List UInt8) : Option (Value × List UInt8) :=
  match type with
  | .minKey => some (.minKey, p)
  | .maxKey => some (.maxKey, p)
  | .undefined => some (.undefined, p)
  | .jstNULL => some (.null, p)
  | .bool => do
    let (b, p) ← readByte p
    some (.bool (b ≠ 0), p)
  | .numberInt => do
    let (n, p) ← readHalf p
    some (.numberInt n, p)
  | .numberDouble => do
    let (d, p) ← readWord p
    some (.numberDouble d, p)
  | .date => do
    let (millis, p) ← readWord p
    some (.date millis, p)
  | .timestamp => do
    let (t, p) ← readWord p
    some (.timestamp t, p)
  | .numberLong => do
    let (n, p) ← readWord p
    some (.numberLong n, p)
  | .jstOID =>
    if short : p.length < 12 then none
    else some (.oid ⟨p.take 12, List.length_take_of_le (Nat.le_of_not_lt short)⟩, p.drop 12)
  | .string => do
    let (s, p) ← readString p
    some (.string s, p)
  | .code => do
    let (s, p) ← readString p
    some (.code s, p)
  | .symbol => do
    let (s, p) ← readString p
    some (.symbol s, p)
  | .binData => do
    let (size, p) ← readLength p
    let (subtype, p) ← readByte p
    let (d, p) ← readBytes size p
    some (.binData subtype d, p)
  | .regEx => do
    let (regex, p) ← readCString p
    let (flags, p) ← readCString p
    some (.regEx regex flags, p)
  | .dbRef => do
    let (size, _) ← readLength p
    let (value, p) ← readBytes (4 + size + 12) p
    some (.dbRef value, p)
  | .codeWScope => do
    let (size, _) ← readLength p
    let (value, p) ← readBytes size p
    some (.codeWScope (value.drop 8), p)
  | .object => none
  | .array => none

mutual

/-- The value of an element of type `type`. -/
def readValue : Nat → BSONType → List UInt8 → Option (Value × List UInt8)
  | 0, _, _ => none
  | fuel + 1, .object, p => do
    let (region, p) ← readRegion p
    let fields ← readElements fuel region
    some (.object fields, p)
  | fuel + 1, .array, p => do
    let (region, p) ← readRegion p
    let fields ← readElements fuel region
    some (.array fields, p)
  | _ + 1, type, p => readScalar type p

/-- The elements up to the end of `p`. -/
def readElements : Nat → List UInt8 → Option Fields
  | 0, _ => none
  | _ + 1, [] => some .nil
  | fuel + 1, b :: p => do
    let type ← BSONType.ofByte b
    let (name, p) ← readCString p
    let (value, p) ← readValue fuel type p
    let rest ← readElements fuel p
    some (.cons name value rest)

end

def BSONObjMaxInternalSize : Nat := 16 * 1024 * 1024 + 16 * 1024

/-- What iterating over an object yields, if its size is valid. Every round reads at least
one byte. -/
def parseObj (data : List UInt8) : Option Fields := do
  let (region, rest) ← readRegion data
  if rest = [] ∧ data.length ≤ BSONObjMaxInternalSize then readElements data.length region
  else none

/-- An object in memory. -/
structure BSONObj where
  data : List UInt8
  fields : Fields
  parses : parseObj data = some fields

/-- The object at the start of a buffer. -/
def objectAt (p : List UInt8) : Option BSONObj := do
  let (size, _) ← readLength p
  match h : parseObj (p.take size) with
  | some fields => some ⟨p.take size, fields, h⟩
  | none => none

/-- `BSONObj()`. -/
def emptyObj : BSONObj := ⟨[5, 0, 0, 0, 0], .nil, rfl⟩

/-! ### Finding an object again -/

variable {p rest : List UInt8}

theorem readLength_eq_some {size : Nat} :
    readLength p = some (size, rest) ↔
      ∃ n : BitVec 32, readHalf p = some (n, rest) ∧ n.toNat = size ∧ size < 2 ^ 31 := by
  simp only [readLength, Option.bind_eq_bind, Option.bind_eq_some_iff, Prod.exists]
  constructor
  · rintro ⟨n, rest', read, fits⟩
    split_ifs at fits with small
    cases fits
    exact ⟨n, read, rfl, small⟩
  · rintro ⟨n, read, rfl, small⟩
    exact ⟨n, rest, read, if_pos small⟩

theorem readRegion_eq_some {region : List UInt8} :
    readRegion p = some (region, rest) ↔
      ∃ size after data, readLength p = some (size, after) ∧ 5 ≤ size ∧
        readBytes size p = some (data, rest) ∧ region = (data.drop 4).dropLast := by
  simp only [readRegion, Option.bind_eq_bind, Option.bind_eq_some_iff, Prod.exists]
  constructor
  · rintro ⟨size, after, read, body⟩
    split_ifs at body with long
    simp only [Option.bind_eq_some_iff, Option.some.injEq, Prod.mk.injEq, Prod.exists] at body
    obtain ⟨data, rest', taken, rfl, rfl⟩ := body
    exact ⟨size, after, data, read, long, taken, rfl⟩
  · rintro ⟨size, after, data, read, long, taken, rfl⟩
    refine ⟨size, after, read, ?_⟩
    simp [long, taken]

/-- An object is as long as its size says, and its size is an `int`. -/
theorem BSONObj.sized (obj : BSONObj) :
    (∃ after, readLength obj.data = some (obj.data.length, after)) ∧ 5 ≤ obj.data.length ∧
      obj.data.length ≤ BSONObjMaxInternalSize ∧
      readElements obj.data.length ((obj.data.drop 4).dropLast) = some obj.fields := by
  have parses := obj.parses
  simp only [parseObj, Option.bind_eq_bind, Option.bind_eq_some_iff, Prod.exists] at parses
  obtain ⟨region, rest, read, elements⟩ := parses
  split_ifs at elements with whole
  obtain ⟨rfl, valid⟩ := whole
  obtain ⟨size, after, data, length, long, taken, rfl⟩ := readRegion_eq_some.mp read
  obtain ⟨total, part⟩ := readBytes_length taken
  have same : obj.data.length = size := by simpa using total
  have all : data = obj.data := by
    unfold readBytes at taken
    split_ifs at taken
    have first := congrArg Prod.fst (Option.some.inj taken)
    rw [← same, List.take_length] at first
    exact first.symm
  subst same all
  exact ⟨⟨after, length⟩, long, valid, elements⟩

theorem objectAt_append (obj : BSONObj) (rest : List UInt8) :
    objectAt (obj.data ++ rest) = some obj := by
  obtain ⟨⟨after, length⟩, -, -, -⟩ := obj.sized
  obtain ⟨n, half, size, small⟩ := readLength_eq_some.mp length
  have found : readLength (obj.data ++ rest) = some (obj.data.length, after ++ rest) :=
    readLength_eq_some.mpr ⟨n, readHalf_prefix half rest, size, small⟩
  have front : (obj.data ++ rest).take obj.data.length = obj.data := List.take_left
  simp only [objectAt, found, Option.bind_eq_bind, Option.bind_some]
  split
  · next fields parses =>
      have same : obj.fields = fields := by
        rw [front, obj.parses] at parses
        exact Option.some.inj parses
      cases obj
      simp_all
  · next parses =>
      rw [front, obj.parses] at parses
      cases parses

/-! ### Building objects -/

/-- The values of the elements. -/
def Fields.values : Fields → List Value
  | .nil => []
  | .cons _ value rest => value :: rest.values

/-- The names and values of the elements. -/
def Fields.pairs : Fields → List (List UInt8 × Value)
  | .nil => []
  | .cons name value rest => (name, value) :: rest.pairs

def embeddedObject : Value → Fields
  | .object fields | .array fields => fields
  | _ => .nil

/-- Elements without names. -/
def Fields.ofValues : List Value → Fields
  | [] => .nil
  | value :: rest => .cons [] value (ofValues rest)

/-- The type and the value bytes of an element, for the types that keys are built
from. -/
def elementBytes : Value → Option (BSONType × List UInt8)
  | .minKey => some (.minKey, [])
  | .maxKey => some (.maxKey, [])
  | .null => some (.jstNULL, [])
  | .bool b => some (.bool, [if b then 1 else 0])
  | .oid o => some (.jstOID, o.val)
  | .binData t d => some (.binData, halfBytes (BitVec.ofNat 32 d.length) ++ t :: d)
  | .date millis => some (.date, wordBytes millis)
  | .string s => some (.string, halfBytes (BitVec.ofNat 32 (s.length + 1)) ++ (s ++ [0]))
  | .numberInt n => some (.numberInt, halfBytes n)
  | .numberLong n => some (.numberLong, wordBytes n)
  | .numberDouble d => some (.numberDouble, wordBytes d)
  | _ => none

/-- The elements a builder appends, each with the name `""`. -/
def buildElements : List Value → Option (List UInt8)
  | [] => some []
  | v :: vs => do
    let (type, bytes) ← elementBytes v
    let rest ← buildElements vs
    some (type.toByte :: 0 :: bytes ++ rest)

/-- What `done` leaves in the buffer. -/
def build (vs : List Value) : Option (List UInt8) := do
  let body ← buildElements vs
  some (halfBytes (BitVec.ofNat 32 (body.length + 5)) ++ (body ++ [0]))

theorem readLength_halfBytes {n : Nat} (small : n < 2 ^ 31) (rest : List UInt8) :
    readLength (halfBytes (BitVec.ofNat 32 n) ++ rest) = some (n, rest) := by
  have value : (BitVec.ofNat 32 n).toNat = n := by
    rw [BitVec.toNat_ofNat]
    omega
  exact readLength_eq_some.mpr ⟨_, readHalf_halfBytes _ _, value, small⟩

variable {v : Value} {type : BSONType} {bytes : List UInt8}

theorem readScalar_elementBytes (built : elementBytes v = some (type, bytes))
    (small : bytes.length < 2 ^ 31) (rest : List UInt8) :
    readScalar type (bytes ++ rest) = some (v, rest) := by
  cases v with
  | minKey | maxKey | null => cases built; rfl
  | bool b => cases built; cases b <;> rfl
  | oid o =>
    cases built
    have long : ¬ o.val.length + rest.length < 12 := by
      rw [o.property]
      omega
    simp [readScalar, long, List.take_left' o.property, List.drop_left' o.property]
  | binData t d =>
    cases built
    simp only [List.length_append, List.length_cons] at small
    rw [List.append_assoc]
    simp [readScalar, readLength_halfBytes (show d.length < 2 ^ 31 by omega),
      readBytes_append rfl rest]
  | string s =>
    cases built
    simp only [List.length_append, List.length_singleton] at small
    have text : readBytes (s.length + 1) (s ++ [0] ++ rest) = some (s ++ [0], rest) :=
      readBytes_append (by simp) rest
    rw [List.append_assoc]
    simp [readScalar, readString, readLength_halfBytes (show s.length + 1 < 2 ^ 31 by omega),
      -List.append_assoc, text]
  | date | numberInt | numberLong | numberDouble => cases built; simp [readScalar]
  | _ => cases built

/-- An embedded object is not built from. -/
theorem readValue_elementBytes (fuel : Nat) (p : List UInt8)
    (built : elementBytes v = some (type, bytes)) :
    readValue (fuel + 1) type p = readScalar type p := by
  cases v <;> cases built <;> rfl

variable {vs : List Value} {body : List UInt8}

theorem buildElements_cons :
    buildElements (v :: vs) = some body ↔
      ∃ type bytes rest, elementBytes v = some (type, bytes) ∧ buildElements vs = some rest ∧
        body = type.toByte :: 0 :: bytes ++ rest := by
  simp only [buildElements, Option.bind_eq_bind, Option.bind_eq_some_iff, Prod.exists,
    Option.some.injEq]
  constructor
  · rintro ⟨type, bytes, here, rest, later, rfl⟩
    exact ⟨type, bytes, rest, here, later, rfl⟩
  · rintro ⟨type, bytes, rest, here, later, rfl⟩
    exact ⟨type, bytes, here, rest, later, rfl⟩

variable {fuel : Nat}

theorem readElements_buildElements (built : buildElements vs = some body)
    (small : body.length < 2 ^ 31) (enough : vs.length < fuel) :
    readElements fuel body = some (.ofValues vs) := by
  induction vs generalizing body fuel with
  | nil =>
    cases built
    obtain ⟨fuel, rfl⟩ := Nat.exists_eq_succ_of_ne_zero (Nat.ne_zero_of_lt enough)
    rfl
  | cons v vs ih =>
    obtain ⟨type, bytes, rest, here, later, rfl⟩ := buildElements_cons.mp built
    simp only [List.length_append, List.length_cons] at small enough
    obtain ⟨fuel, rfl⟩ : ∃ n, fuel = n + 2 := ⟨fuel - 2, by omega⟩
    have value : readValue (fuel + 1) type (bytes ++ rest) = some (v, rest) := by
      rw [readValue_elementBytes fuel _ here, readScalar_elementBytes here (by omega)]
    have others : readElements (fuel + 1) rest = some (.ofValues vs) :=
      ih later (by omega) (by omega)
    simp [readElements, BSONType.ofByte_toByte, readCString, value, others, Fields.ofValues]

theorem buildElements_length (built : buildElements vs = some body) : vs.length ≤ body.length := by
  induction vs generalizing body with
  | nil => exact Nat.zero_le _
  | cons v vs ih =>
    obtain ⟨type, bytes, rest, -, later, rfl⟩ := buildElements_cons.mp built
    have := ih later
    simp only [List.length_append, List.length_cons]
    omega

/-- What is built is read back. -/
theorem parseObj_build {data : List UInt8} (built : build vs = some data)
    (valid : data.length ≤ BSONObjMaxInternalSize) : parseObj data = some (.ofValues vs) := by
  simp only [build, Option.bind_eq_bind, Option.bind_eq_some_iff, Option.some.injEq] at built
  obtain ⟨body, built, rfl⟩ := built
  have four : (halfBytes (BitVec.ofNat 32 (body.length + 5))).length = 4 := length_leBytes _ _
  have total : (halfBytes (BitVec.ofNat 32 (body.length + 5)) ++ (body ++ [0])).length =
      body.length + 5 := by
    simp only [List.length_append, four, List.length_singleton]
    omega
  rw [total] at valid
  have small : body.length + 5 < 2 ^ 31 := lt_of_le_of_lt valid (by decide)
  have region : readRegion (halfBytes (BitVec.ofNat 32 (body.length + 5)) ++ (body ++ [0])) =
      some (body, []) := by
    have taken := readBytes_append total []
    rw [List.append_nil] at taken
    refine readRegion_eq_some.mpr ⟨_, _, _, readLength_halfBytes small _, by omega, taken, ?_⟩
    rw [List.drop_left' four, List.dropLast_concat]
  have elements := readElements_buildElements built (by omega)
    (show vs.length < body.length + 5 by have := buildElements_length built; omega)
  simp only [parseObj, region, Option.bind_eq_bind, Option.bind_some, total, valid,
    and_self, if_true, elements]

/-! ### How long an object is -/

theorem readLength_length {n : Nat} (read : readLength p = some (n, rest)) :
    p.length = rest.length + 4 := by
  obtain ⟨n, half, -, -⟩ := readLength_eq_some.mp read
  exact readHalf_length half

theorem readString_length {s : List UInt8} (read : readString p = some (s, rest)) :
    p.length = rest.length + 4 + (s.length + 1) := by
  simp only [readString, Option.bind_eq_bind, Option.bind_eq_some_iff, Prod.exists] at read
  obtain ⟨size, after, length, read⟩ := read
  split_ifs at read with empty
  simp only [Option.bind_eq_some_iff, Prod.exists] at read
  obtain ⟨text, rest', taken, same⟩ := read
  cases same
  have := readLength_length length
  obtain ⟨here, whole⟩ := readBytes_length taken
  rw [List.length_dropLast]
  omega

theorem readCString_empty (read : readCString p = some ([], rest)) :
    p.length = rest.length + 1 := by
  cases p with
  | nil => cases read
  | cons b p =>
    simp only [readCString] at read
    split_ifs at read
    · cases read
      rfl
    · simp [Option.bind_eq_some_iff] at read

/-- The value of an element takes as many bytes as the builder makes of it. -/
theorem readScalar_length {t : BSONType} (read : readScalar t p = some (v, rest))
    (built : elementBytes v = some (type, bytes)) : p.length = rest.length + bytes.length := by
  cases t <;>
    simp only [readScalar, Option.bind_eq_bind, Option.bind_eq_some_iff, Prod.exists] at read
  case minKey | maxKey | jstNULL => cases read; cases built; rfl
  case undefined => cases read; cases built
  case object | array => cases read
  case jstOID =>
    split_ifs at read with short
    cases read
    cases built
    simp only [List.length_drop, List.length_take]
    omega
  case binData =>
    obtain ⟨size, p₁, length, subtype, p₂, byte, data, p₃, taken, same⟩ := read
    cases same
    cases built
    have four : (halfBytes (BitVec.ofNat 32 data.length)).length = 4 := length_leBytes _ _
    have := readLength_length length
    have := readByte_length byte
    obtain ⟨here, whole⟩ := readBytes_length taken
    simp only [List.length_append, List.length_cons, four]
    omega
  case regEx | dbRef | codeWScope =>
    obtain ⟨_, _, _, _, _, _, same⟩ := read
    cases same
    cases built
  all_goals
    obtain ⟨x, p₁, value, same⟩ := read
    cases same
    cases built
  case string =>
    have four : (halfBytes (BitVec.ofNat 32 (x.length + 1))).length = 4 := length_leBytes _ _
    have := readString_length value
    simp only [List.length_append, List.length_singleton, four]
    omega
  case bool => exact readByte_length value
  case numberInt =>
    rw [halfBytes, length_leBytes]
    exact readHalf_length value
  all_goals
    rw [wordBytes, length_leBytes]
    exact readWord_length value

theorem readValue_length {t : BSONType} (read : readValue fuel t p = some (v, rest))
    (built : elementBytes v = some (type, bytes)) : p.length = rest.length + bytes.length := by
  cases fuel with
  | zero => simp [readValue] at read
  | succ fuel =>
    cases t with
    | object | array =>
      simp only [readValue, Option.bind_eq_bind, Option.bind_eq_some_iff, Prod.exists] at read
      obtain ⟨_, _, _, _, _, same⟩ := read
      cases same
      cases built
    | _ =>
      rw [readValue] at read <;> first | exact readScalar_length read built | simp

/-- Elements without names are as long as what the builder makes of their values. -/
theorem readElements_length {region : List UInt8}
    (read : readElements fuel region = some (.ofValues vs)) (built : buildElements vs = some body) :
    region.length = body.length := by
  induction vs generalizing region body fuel with
  | nil =>
    cases built
    cases fuel <;> cases region <;> simp [readElements, Fields.ofValues,
      Option.bind_eq_some_iff] at read ⊢
  | cons v vs ih =>
    obtain ⟨type, bytes, rest, here, later, rfl⟩ := buildElements_cons.mp built
    cases fuel with
    | zero => simp [readElements] at read
    | succ fuel =>
      cases region with
      | nil => simp [readElements, Fields.ofValues] at read
      | cons b region =>
        simp only [readElements, Option.bind_eq_bind, Option.bind_eq_some_iff, Prod.exists,
          Fields.ofValues, Option.some.injEq, Fields.cons.injEq] at read
        obtain ⟨t, -, name, p₁, cstring, value, p₂, first, fields, others, rfl, rfl, rfl⟩ := read
        have := readCString_empty cstring
        have := readValue_length first here
        have := ih others later
        simp only [List.length_append, List.length_cons]
        omega

/-- An object without names is as long as what the builder makes of its values. -/
theorem BSONObj.length_build {obj : BSONObj} {data : List UInt8}
    (unnamed : obj.fields = .ofValues vs) (built : build vs = some data) :
    data.length = obj.data.length := by
  obtain ⟨-, long, -, elements⟩ := obj.sized
  simp only [build, Option.bind_eq_bind, Option.bind_eq_some_iff, Option.some.injEq] at built
  obtain ⟨body, built, rfl⟩ := built
  have four : (halfBytes (BitVec.ofNat 32 (body.length + 5))).length = 4 := length_leBytes _ _
  have region := readElements_length (unnamed ▸ elements) built
  rw [List.length_dropLast, List.length_drop] at region
  simp only [List.length_append, List.length_singleton, four]
  omega

end TokuMX.BSON
