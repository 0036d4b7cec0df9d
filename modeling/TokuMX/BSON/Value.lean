import TokuMX.Lib.Binary64
import TokuMX.Lib.Bytes

/-!
BSON values and their order (`bson/bson-inl.h`, `bson/bsontypes.h`, `bson/ordering.h`,
`db/jsobj.cpp`).

`compareElementValues` compares two values of one canonical type, `Value.woCompare` two
values of any types, and `woCompare` two objects field by field under an `Ordering`, which
may make fields descend. Top-level field names are left out: index keys are compared without
them. The field names of embedded objects are compared.

Numbers of different types are compared as doubles, so a 64-bit integer is rounded before
it is compared with a double; two integers of one type are compared exactly.
-/

namespace TokuMX.BSON

open TokuMX.Lib

/-- An object id is twelve bytes. -/
abbrev OID := { bytes : List UInt8 // bytes.length = 12 }

mutual

/-- The values an element can have. Strings are without their terminating zero byte; a
`codeWScope` is what follows its two lengths. -/
inductive Value where
  | minKey
  | undefined
  | null
  | numberDouble (d : Binary64.Word)
  | numberInt (n : BitVec 32)
  | numberLong (n : BitVec 64)
  | string (s : List UInt8)
  | symbol (s : List UInt8)
  | object (fields : Fields)
  | array (fields : Fields)
  | binData (subtype : UInt8) (data : List UInt8)
  | oid (oid : OID)
  | bool (b : Bool)
  | date (millis : BitVec 64)
  | timestamp (t : BitVec 64)
  | regEx (regex flags : List UInt8)
  | dbRef (value : List UInt8)
  | code (s : List UInt8)
  | codeWScope (data : List UInt8)
  | maxKey

/-- The elements of an embedded object. -/
inductive Fields where
  | nil
  | cons (name : List UInt8) (value : Value) (rest : Fields)

end

/-- `canonicalizeBSONType`. -/
def Value.canonicalType : Value → Int
  | minKey => -1
  | maxKey => 127
  | undefined => 0
  | null => 5
  | numberDouble _ | numberInt _ | numberLong _ => 10
  | string _ | symbol _ => 15
  | object _ => 20
  | array _ => 25
  | binData _ _ => 30
  | oid _ => 35
  | bool _ => 40
  | date _ | timestamp _ => 45
  | regEx _ _ => 50
  | dbRef _ => 55
  | code _ => 60
  | codeWScope _ => 65

/-- `number()`, of a number. -/
def Value.number : Value → Option Binary64.Word
  | numberDouble d => some d
  | numberInt n => some (Binary64.ofInt n.toInt)
  | numberLong n => some (Binary64.ofInt n.toInt)
  | _ => none

def Value.isNumber (v : Value) : Bool := v.number.isSome

/-- `BSONElement::numberInt`. What a double too large gives is left to the compiler. -/
def numberInt : Value → BitVec 32
  | .numberDouble d => BitVec.ofInt 32 (Binary64.trunc d)
  | .numberInt n => n
  | .numberLong n => n.setWidth 32
  | _ => 0

def isArray : Value → Bool
  | .array _ => true
  | _ => false

def compareInts (l r : Int) : Int := if l < r then -1 else if l = r then 0 else 1

/-- `dodouble`. -/
def compareDoubles (left right : Binary64.Word) : Int :=
  if Binary64.lt left right then -1
  else if Binary64.eq left right then 0
  else if Binary64.isNaN left then (if Binary64.isNaN right then 0 else -1)
  else 1

/-- Up to the terminating zero byte. -/
def cString (bytes : List UInt8) : List UInt8 := bytes.takeWhile (· ≠ 0)

def strcmp (l r : List UInt8) : Int := memcmp (cString l ++ [0]) (cString r ++ [0])

/-- `codeWScopeScopeDataUnsafe`. -/
def codeWScopeScopeDataUnsafe (data : List UInt8) : List UInt8 :=
  data.drop ((cString data).length + 1)

/-- `compareElementValues`, embedded objects apart. -/
def compareScalars (l r : Value) : Int :=
  match l, r with
  | .undefined, _ | .null, _ | .maxKey, _ | .minKey, _ =>
    (l.canonicalType - r.canonicalType).sign
  | .bool a, .bool b => (a.toNat : Int) - b.toNat
  | .timestamp a, .timestamp b | .timestamp a, .date b => compareInts a.toNat b.toNat
  | .date a, .date b | .date a, .timestamp b => compareInts a.toInt b.toInt
  | .numberLong a, .numberLong b => compareInts a.toInt b.toInt
  | .numberInt a, .numberInt b => compareInts a.toInt b.toInt
  | .oid a, .oid b => memcmp a.val b.val
  | .string a, .string b | .string a, .symbol b | .symbol a, .string b | .symbol a, .symbol b
  | .code a, .code b => compareCounted (a ++ [0]) (b ++ [0])
  | .dbRef a, .dbRef b =>
    if (a.length : Int) - b.length ≠ 0 then (a.length : Int) - b.length else memcmp a b
  | .binData t a, .binData u b =>
    if (a.length : Int) - b.length ≠ 0 then (a.length : Int) - b.length
    else memcmp (t :: a) (u :: b)
  | .regEx a f, .regEx b g => if strcmp a b ≠ 0 then strcmp a b else strcmp f g
  | .codeWScope a, .codeWScope b =>
    if strcmp a b ≠ 0 then strcmp a b
    else strcmp (codeWScopeScopeDataUnsafe a) (codeWScopeScopeDataUnsafe b)
  | l, r =>
    match l.number, r.number with
    | some left, some right => compareDoubles left right
    | _, _ => -1

mutual

/-- `compareElementValues`: of values of one canonical type. -/
def compareElementValues : Value → Value → Int
  | .object l, .object r | .array l, .array r => compareFields l r
  | l, r => compareScalars l r

/-- `BSONObj::woCompare` of embedded objects, by types, names and values. -/
def compareFields : Fields → Fields → Int
  | .nil, .nil => 0
  | .nil, .cons _ _ _ => -1
  | .cons _ _ _, .nil => 1
  | .cons name l ls, .cons name' r rs =>
    let types := l.canonicalType - r.canonicalType
    let x :=
      if types ≠ 0 ∧ ¬ (l.isNumber ∧ r.isNumber) then types
      else if strcmp name name' ≠ 0 then strcmp name name'
      else compareElementValues l r
    if x ≠ 0 then x else compareFields ls rs

end

/-- `BSONElement::woCompare` without field names. -/
def Value.woCompare (l r : Value) : Int :=
  let types := l.canonicalType - r.canonicalType
  if types ≠ 0 ∧ ¬ (l.isNumber ∧ r.isNumber) then types else compareElementValues l r

/-- Which fields descend. -/
structure Ordering where
  bits : BitVec 32

def Ordering.descending (order : Ordering) (mask : BitVec 32) : Bool := order.bits &&& mask ≠ 0

/-- The loop of `BSONObj::woCompare`, with the comparison of elements. -/
def woCompareLoop {α : Type} (compare : α → α → Int) (order : Ordering) :
    BitVec 32 → List α → List α → Int
  | _, [], [] => 0
  | _, [], _ :: _ => -1
  | _, _ :: _, [] => 1
  | mask, l :: ls, r :: rs =>
    let x := if order.descending mask then -compare l r else compare l r
    if x ≠ 0 then x else woCompareLoop compare order (mask <<< 1) ls rs

/-- `BSONObj::woCompare`. -/
def woCompare (l r : List Value) (order : Ordering) : Int :=
  woCompareLoop Value.woCompare order 1 l r

end TokuMX.BSON
