import TokuMX.BSON.ValueOrder

/-!
Values of the aggregation framework (`db/pipeline/value.cpp`, `db/pipeline/document.cpp`).

A `Value` is made from a BSON element. `compare` is written to give the order of
`BSONElement::woCompare`, and `hashCombine` to give values that compare equal the same hash.

Hashing rests on `boost::hash` and `MurmurHash3_x86_32`, on a machine where `size_t` has 64 bits
and `char` is signed. How a finite double that is not zero is hashed depends on the platform and
is left open (`float_hash_impl`).

The code of a `CodeWScope` is what stands before its first zero byte, as in `BSON.Value`; one with
a zero byte in it, which `compare` refuses (16557), is not represented.
-/

namespace TokuMX.Pipeline

open TokuMX.Lib BSON

mutual

/-- A value with its type. `missing` has the type `EOO`. A regular expression is kept as one string
with a zero byte between the pattern and the flags. -/
inductive Value where
  | missing
  | undefined
  | null
  | maxKey
  | minKey
  | bool (b : Bool)
  | timestamp (t : BitVec 64)
  | date (millis : BitVec 64)
  | numberLong (n : BitVec 64)
  | numberInt (n : BitVec 32)
  | numberDouble (d : Binary64.Word)
  | oid (oid : List UInt8)
  | code (s : List UInt8)
  | symbol (s : List UInt8)
  | string (s : List UInt8)
  | object (d : Document)
  | array (a : Values)
  | dbRef (ns oid : List UInt8)
  | binData (subtype : UInt8) (data : List UInt8)
  | regEx (s : List UInt8)
  | codeWScope (code scope : List UInt8)

inductive Document where
  | nil
  | cons (name : List UInt8) (val : Value) (rest : Document)

inductive Values where
  | nil
  | cons (val : Value) (rest : Values)

end

/-! ### Making values -/

/-- `dbrefNS`, as a string that ends at its first zero byte. -/
def dbrefNS (value : List UInt8) : List UInt8 := cString (value.drop 4)

/-- `dbrefOID`. -/
def dbrefOID (value : List UInt8) : List UInt8 :=
  (value.drop (4 + ofLeBytes (value.take 4))).take 12

mutual

/-- The constructor from an element. -/
def Value.ofElement : BSON.Value → Value
  | .minKey => .minKey
  | .maxKey => .maxKey
  | .undefined => .undefined
  | .null => .null
  | .numberDouble d => .numberDouble d
  | .code s => .code s
  | .symbol s => .symbol s
  | .string s => .string s
  | .object fields => .object (Document.ofObject fields)
  | .array fields => .array (Values.ofObject fields)
  | .oid oid => .oid oid.val
  | .bool b => .bool b
  | .date millis => .date millis
  | .regEx regex flags => .regEx (cString regex ++ 0 :: cString flags)
  | .numberInt n => .numberInt n
  | .timestamp t => .timestamp t
  | .numberLong n => .numberLong n
  | .codeWScope data => .codeWScope (cString data) (codeWScopeScopeDataUnsafe data)
  | .binData subtype data => .binData subtype data
  | .dbRef value => .dbRef (dbrefNS value) (dbrefOID value)

/-- `Document(BSONObj)`. -/
def Document.ofObject : Fields → Document
  | .nil => .nil
  | .cons name v rest => .cons (cString name) (Value.ofElement v) (Document.ofObject rest)

/-- The elements of an array, without their names. -/
def Values.ofObject : Fields → Values
  | .nil => .nil
  | .cons _ v rest => .cons (Value.ofElement v) (Values.ofObject rest)

end

/-! ### Comparing -/

/-- `canonicalizeBSONType`, of the value's type. -/
def Value.canonicalType : Value → Int
  | minKey => -1
  | maxKey => 127
  | missing | undefined => 0
  | null => 5
  | numberDouble _ | numberInt _ | numberLong _ => 10
  | string _ | symbol _ => 15
  | object _ => 20
  | array _ => 25
  | binData _ _ => 30
  | oid _ => 35
  | bool _ => 40
  | date _ | timestamp _ => 45
  | regEx _ => 50
  | dbRef _ _ => 55
  | code _ => 60
  | codeWScope _ _ => 65

/-- `StringData::compare`. -/
def compareStrings (l r : List UInt8) : Int :=
  let common := min l.length r.length
  let res := memcmp (l.take common) (r.take common)
  if res ≠ 0 then (if res > 0 then 1 else -1) else compareInts l.length r.length

/-- The cases of `Value::compare` without embedded values, of values of one canonical type. The
eight bytes of a date and a timestamp are read as the left one's type has it. Two numbers are
compared as the wider of their types. -/
def compareScalars : Value → Value → Int
  | .bool a, .bool b => (a.toNat : Int) - b.toNat
  | .timestamp a, .timestamp b | .timestamp a, .date b => compareInts a.toNat b.toNat
  | .date a, .date b | .date a, .timestamp b => compareInts a.toInt b.toInt
  | .numberDouble a, .numberDouble b => compareDoubles a b
  | .numberDouble a, .numberLong b => compareDoubles a (Binary64.ofInt b.toInt)
  | .numberDouble a, .numberInt b => compareDoubles a (Binary64.ofInt b.toInt)
  | .numberLong a, .numberDouble b => compareDoubles (Binary64.ofInt a.toInt) b
  | .numberInt a, .numberDouble b => compareDoubles (Binary64.ofInt a.toInt) b
  | .numberLong a, .numberLong b => compareInts a.toInt b.toInt
  | .numberLong a, .numberInt b => compareInts a.toInt b.toInt
  | .numberInt a, .numberLong b => compareInts a.toInt b.toInt
  | .numberInt a, .numberInt b => compareInts a.toInt b.toInt
  | .oid a, .oid b => memcmp a b
  | .string a, .string b | .string a, .symbol b | .symbol a, .string b | .symbol a, .symbol b
  | .code a, .code b => compareStrings a b
  | .dbRef ns oid, .dbRef ns' oid' =>
    let ret := compareInts ns.length ns'.length
    if ret ≠ 0 then ret else memcmp oid oid'
  | .binData t a, .binData u b =>
    let ret := compareInts a.length b.length
    if ret ≠ 0 then ret
    else
      let ret := compareInts t.toNat u.toNat
      if ret ≠ 0 then ret else compareStrings a b
  | .regEx a, .regEx b => compareStrings a b
  | .codeWScope a s, .codeWScope b t =>
    let ret := compareStrings a b
    if ret ≠ 0 then ret else strcmp s t
  | _, _ => 0

mutual

/-- `Value::compare`. -/
def Value.compare (l r : Value) : Int :=
  let ret := compareInts l.canonicalType r.canonicalType
  if ret ≠ 0 then ret
  else
    match l, r with
    | .object l, .object r => Document.compare l r
    | .array l, .array r => Values.compare l r
    | l, r => compareScalars l r

/-- `Document::compare`. -/
def Document.compare : Document → Document → Int
  | .nil, .nil => 0
  | .nil, .cons _ _ _ => -1
  | .cons _ _ _, .nil => 1
  | .cons name v vs, .cons name' w ws =>
    let nameCmp := compareStrings name name'
    if nameCmp ≠ 0 then nameCmp
    else
      let valueCmp := Value.compare v w
      if valueCmp ≠ 0 then valueCmp else Document.compare vs ws

/-- The elements of two arrays, then their sizes. -/
def Values.compare : Values → Values → Int
  | .nil, .nil => 0
  | .nil, .cons _ _ => -1
  | .cons _ _, .nil => 1
  | .cons v vs, .cons w ws =>
    let ret := Value.compare v w
    if ret ≠ 0 then ret else Values.compare vs ws

end

/-! ### Hashing -/

/-- `boost::hash_combine`, with the hash of the second argument. -/
def hashCombine (seed hash : BitVec 64) : BitVec 64 :=
  seed ^^^ (hash + 0x9e3779b9 + seed <<< 6 + seed >>> 2)

/-- `boost::hash_range` of characters. -/
def hashRange (seed : BitVec 64) (s : List UInt8) : BitVec 64 :=
  s.foldl (fun seed c => hashCombine seed (c.toBitVec.signExtend 64)) seed

/-- `boost::hash` of a double. -/
def floatHashValue (float_hash_impl : Binary64.Word → BitVec 64) (v : Binary64.Word) :
    BitVec 64 :=
  if Binary64.magnitude v = 0 then 0
  else if Binary64.magnitude v = 2047 * 2 ^ 52 then (if v.toNat < 2 ^ 63 then -1 else -2)
  else if Binary64.isNaN v then -3
  else float_hash_impl v

/-- `OID::hash_combine`: three words of four bytes. -/
def oidHashCombine (seed : BitVec 64) (oid : List UInt8) : BitVec 64 :=
  let word (i : Nat) := (BitVec.ofNat 32 (ofLeBytes ((oid.drop (4 * i)).take 4))).signExtend 64
  hashCombine (hashCombine (hashCombine seed (word 0)) (word 1)) (word 2)

/-- `fmix`. -/
def fmix (h : BitVec 32) : BitVec 32 :=
  let h := h ^^^ h >>> 16
  let h := h * 0x85ebca6b
  let h := h ^^^ h >>> 13
  let h := h * 0xc2b2ae35
  h ^^^ h >>> 16

/-- What a block of four bytes, or the tail, adds to the state. -/
def murmurBlock (k1 : BitVec 32) : BitVec 32 := (k1 * 0xcc9e2d51).rotateLeft 15 * 0x1b873593

/-- The body of `MurmurHash3_x86_32`: the blocks, then the tail. -/
def murmurBody : BitVec 32 → List UInt8 → BitVec 32
  | h1, a :: b :: c :: d :: rest =>
    let h1 := h1 ^^^ murmurBlock (BitVec.ofNat 32 (ofLeBytes [a, b, c, d]))
    murmurBody (h1.rotateLeft 13 * 5 + 0xe6546b64) rest
  | h1, [] => h1
  | h1, tail => h1 ^^^ murmurBlock (BitVec.ofNat 32 (ofLeBytes tail))

/-- `MurmurHash3_x86_32` with the seed as its output: only the low half of the seed is read and
written. -/
def murmurHash (seed : BitVec 64) (key : List UInt8) : BitVec 64 :=
  let h1 := murmurBody (seed.setWidth 32) key ^^^ BitVec.ofNat 32 key.length
  (seed >>> 32) <<< 32 ||| (fmix h1).setWidth 64

section Hash

variable (float_hash_impl : Binary64.Word → BitVec 64)

/-- The cases of `Value::hash_combine` without embedded values, after the canonical type. -/
def hashScalars (seed : BitVec 64) : Value → BitVec 64
  | .bool b => hashCombine seed (BitVec.ofNat 64 b.toNat)
  | .timestamp t => hashCombine seed t
  | .date millis => hashCombine seed millis
  | .numberDouble d => hashCombine seed (floatHashValue float_hash_impl d)
  | .numberLong n => hashCombine seed (floatHashValue float_hash_impl (Binary64.ofInt n.toInt))
  | .numberInt n => hashCombine seed (floatHashValue float_hash_impl (Binary64.ofInt n.toInt))
  | .oid oid => oidHashCombine seed oid
  | .code s | .symbol s | .string s => murmurHash seed s
  | .dbRef ns oid => oidHashCombine (hashCombine seed (hashRange 0 ns)) oid
  | .binData subtype data => hashCombine (murmurHash seed data) (subtype.toBitVec.setWidth 64)
  | .regEx s => murmurHash seed s
  | .codeWScope code _ => hashRange seed code
  | _ => seed

mutual

/-- `Value::hash_combine`. -/
def Value.hashCombine (seed : BitVec 64) (v : Value) : BitVec 64 :=
  let seed := Pipeline.hashCombine seed (BitVec.ofInt 64 v.canonicalType)
  match v with
  | .object d => Document.hashCombine seed d
  | .array a => Values.hashCombine seed a
  | v => hashScalars float_hash_impl seed v

/-- `Document::hash_combine`. -/
def Document.hashCombine (seed : BitVec 64) : Document → BitVec 64
  | .nil => seed
  | .cons name v rest => Document.hashCombine (Value.hashCombine (hashRange seed name) v) rest

/-- The elements of an array. -/
def Values.hashCombine (seed : BitVec 64) : Values → BitVec 64
  | .nil => seed
  | .cons v rest => Values.hashCombine (Value.hashCombine seed v) rest

end

end Hash

end TokuMX.Pipeline
