import TokuMX.BSON.ValueOrder

/-!
The compact index key format (`db/storage/key.cpp`).

A key is stored field by field: a byte with a type code and a bit that says whether more
fields follow, then the data. A key with a field that does not fit is stored as the object
itself behind the byte `IsBSON`.

* `toBson_keyV1Owned` — a key is read back from what is stored as it was.

Buffers are read as byte strings; reading past the end fails. A key in the traditional
format is kept as the object it holds.
-/

namespace TokuMX.Storage

open TokuMX.Lib TokuMX.BSON

/-! ### Type codes -/

def cminkey : UInt8 := 1
def cnull : UInt8 := 2
def cdouble : UInt8 := 4
def cstring : UInt8 := 6
def cbindata : UInt8 := 7
def coid : UInt8 := 8
def cfalse : UInt8 := 10
def ctrue : UInt8 := 11
def cdate : UInt8 := 12
def cmaxkey : UInt8 := 14
def cCANONTYPEMASK : UInt8 := 0xf
def cint : UInt8 := 0x10 ||| cdouble
def clong : UInt8 := 0x20 ||| cdouble
def cint64 : UInt8 := 0x30 ||| cdouble
def cHASMORE : UInt8 := 0x40

/-- The leading byte of the traditional format. -/
def IsBSON : UInt8 := 0xff

/-- The code of a length of binary data; `-1` for those that have none. -/
def BinDataLengthToCode : List Int :=
  [0x00, 0x10, 0x20, 0x30, 0x40, 0x50, 0x60, 0x70,
   0x80, -1, 0x90, -1, 0xa0, -1, 0xb0, -1,
   0xc0, -1, -1, -1, 0xd0, -1, -1, -1,
   0xe0, -1, -1, -1, -1, -1, -1, -1,
   0xf0]

def BinDataCodeToLength : List Nat := [0, 1, 2, 3, 4, 5, 6, 7, 8, 10, 12, 14, 16, 20, 24, 32]

def binDataCodeToLength (codeByte : UInt8) : Nat :=
  BinDataCodeToLength.getD (codeByte >>> 4).toNat 0

def BinDataLenMax : Nat := 32
def BinDataTypeMask : UInt8 := 0x0f
def ByteArrayDeprecated : UInt8 := 2

/-! ### Storing -/

/-- The four bits of a subtype. -/
def subtypeBits (t : UInt8) : UInt8 := if 128 ≤ t then (t - 128) ||| 0x08 else t

/-- The byte for length and subtype, if there is one: subtypes 0 to 7 and 128 to 135. -/
def binDataByte (t : UInt8) (len : Nat) : Option UInt8 :=
  if t &&& 0x78 = 0 ∧ t ≠ ByteArrayDeprecated ∧ len ≤ BinDataLenMax then
    let code := BinDataLengthToCode.getD len (-1)
    if 0 ≤ code then some (UInt8.ofNat code.toNat ||| subtypeBits t) else none
  else none

/-- A long that is not stored as a double. -/
def wide (n : BitVec 64) : Bool := 2 ^ 53 ≤ n.toInt ∨ n.toInt ≤ -2 ^ 53

/-- The type code and the data of a field; `none` if the key has to be traditional. -/
def compactElement : Value → Option (UInt8 × List UInt8)
  | .minKey => some (cminkey, [])
  | .null => some (cnull, [])
  | .maxKey => some (cmaxkey, [])
  | .bool b => some (if b then ctrue else cfalse, [])
  | .oid o => some (coid, o.val)
  | .binData t d => (binDataByte t d.length).map fun byte => (cbindata, byte :: d)
  | .date millis => some (cdate, wordBytes millis)
  | .string s => if 255 < s.length then none else some (cstring, UInt8.ofNat s.length :: s)
  | .numberInt n => some (cint, wordBytes (Binary64.ofInt n.toInt))
  | .numberLong n =>
    if wide n then some (cint64, wordBytes n)
    else some (clong, wordBytes (Binary64.ofInt n.toInt))
  | .numberDouble d => if Binary64.isNaN d then none else some (cdouble, wordBytes d)
  | _ => none

/-- `cHASMORE` if more fields follow. -/
def moreBits (more : Bool) : UInt8 := if more then cHASMORE else 0

/-- The loop of the constructor. -/
def compactFields : List Value → Option (List UInt8)
  | [] => none
  | [e] => do
    let (code, data) ← compactElement e
    some ((code ||| moreBits false) :: data)
  | e :: rest => do
    let (code, data) ← compactElement e
    let fields ← compactFields rest
    some ((code ||| moreBits true) :: data ++ fields)

/-- What is stored for a key. -/
inductive KeyV1 where
  | traditional (obj : List Value)
  | compact (bytes : List UInt8)

/-- The constructor from an object. -/
def keyV1Owned (obj : List Value) : KeyV1 :=
  match compactFields obj with
  | some bytes => .compact bytes
  | none => .traditional obj

/-! ### Reading back -/

/-- The subtype in a byte for length and subtype. -/
def binDataSubtype (byte : UInt8) : UInt8 :=
  let subtype := byte &&& BinDataTypeMask
  if subtype &&& 0x8 ≠ 0 then (subtype &&& 0x7) ||| 0x80 else subtype

/-- One field, from behind its type byte. -/
def readElement (code : UInt8) (p : List UInt8) : Option (Value × List UInt8) :=
  if code = cminkey then some (.minKey, p)
  else if code = cnull then some (.null, p)
  else if code = cfalse then some (.bool false, p)
  else if code = ctrue then some (.bool true, p)
  else if code = cmaxkey then some (.maxKey, p)
  else if code = cstring then do
    let (sz, p) ← readByte p
    let (s, p) ← readBytes sz.toNat p
    some (.string s, p)
  else if code = coid then
    if length : 12 ≤ p.length then
      some (.oid ⟨p.take 12, List.length_take_of_le length⟩, p.drop 12)
    else none
  else if code = cbindata then do
    let (byte, p) ← readByte p
    let (d, p) ← readBytes (binDataCodeToLength byte) p
    some (.binData (binDataSubtype byte) d, p)
  else if code = cdate then do
    let (millis, p) ← readWord p
    some (.date millis, p)
  else if code = cdouble then do
    let (d, p) ← readWord p
    some (.numberDouble d, p)
  else if code = cint then do
    let (d, p) ← readWord p
    some (.numberInt (BitVec.ofInt 32 (Binary64.trunc d)), p)
  else if code = clong then do
    let (d, p) ← readWord p
    some (.numberLong (BitVec.ofInt 64 (Binary64.trunc d)), p)
  else if code = cint64 then do
    let (n, p) ← readWord p
    some (.numberLong n, p)
  else none

/-- The loop of `toBson`; every round reads at least one byte. -/
def readFields : Nat → List UInt8 → Option (List Value)
  | 0, _ => none
  | rounds + 1, p => do
    let (bits, p) ← readByte p
    let (e, p) ← readElement (bits &&& 0x3f) p
    if bits &&& cHASMORE = 0 then some [e]
    else
      let rest ← readFields rounds p
      some (e :: rest)

/-- `KeyV1::toBson`. -/
def KeyV1.toBson : KeyV1 → Option (List Value)
  | .traditional obj => some obj
  | .compact bytes => readFields bytes.length bytes

/-! ### What is stored -/

/-- The type code and the word of a number. -/
def storedNumber : Value → Option (UInt8 × Binary64.Word)
  | .numberInt n => some (cint, Binary64.ofInt n.toInt)
  | .numberLong n => if wide n then some (cint64, n) else some (clong, Binary64.ofInt n.toInt)
  | .numberDouble d => if Binary64.isNaN d then none else some (cdouble, d)
  | _ => none

/-- What is stored for a field, by the form of its data. -/
inductive Stored : Value → UInt8 → List UInt8 → Prop where
  | minKey : Stored .minKey cminkey []
  | null : Stored .null cnull []
  | maxKey : Stored .maxKey cmaxkey []
  | bool (b : Bool) : Stored (.bool b) (if b then ctrue else cfalse) []
  | oid (o : OID) : Stored (.oid o) coid o.val
  | binData {t byte : UInt8} {d : List UInt8} (coded : binDataByte t d.length = some byte) :
      Stored (.binData t d) cbindata (byte :: d)
  | date (millis : BitVec 64) : Stored (.date millis) cdate (wordBytes millis)
  | string {s : List UInt8} (short : s.length ≤ 255) :
      Stored (.string s) cstring (UInt8.ofNat s.length :: s)
  | number {e : Value} {code : UInt8} {word : Binary64.Word}
      (number : storedNumber e = some (code, word)) : Stored e code (wordBytes word)

variable {e : Value} {code : UInt8} {data : List UInt8}

theorem stored_of_compactElement (compact : compactElement e = some (code, data)) :
    Stored e code data := by
  cases e with
  | minKey => cases compact; exact .minKey
  | null => cases compact; exact .null
  | maxKey => cases compact; exact .maxKey
  | bool b => cases compact; exact .bool b
  | oid o => cases compact; exact .oid o
  | binData t d =>
    simp only [compactElement, Option.map_eq_some_iff] at compact
    obtain ⟨byte, coded, same⟩ := compact
    cases same
    exact .binData coded
  | date millis => cases compact; exact .date millis
  | string s =>
    simp only [compactElement] at compact
    split_ifs at compact with long
    cases compact
    exact .string (not_lt.mp long)
  | numberInt n => cases compact; exact .number rfl
  | numberLong n =>
    simp only [compactElement] at compact
    split_ifs at compact with far
    · cases compact
      exact .number (if_pos far)
    · cases compact
      exact .number (if_neg far)
  | numberDouble d =>
    simp only [compactElement] at compact
    split_ifs at compact with nan
    cases compact
    exact .number (if_neg nan)
  | _ => cases compact

/-- The codes in use. -/
def codes : List UInt8 :=
  [cminkey, cnull, cmaxkey, cfalse, ctrue, coid, cbindata, cdate, cstring, cdouble, cint, clong,
   cint64]

/-- The flag for more fields does not touch the code, nor the canonical type in it. -/
theorem code_or_more : ∀ code ∈ codes, ∀ more, (code ||| moreBits more) &&& 0x3f = code ∧
      (code ||| moreBits more) &&& cHASMORE = moreBits more ∧
      (code ||| moreBits more) &&& cCANONTYPEMASK = code &&& cCANONTYPEMASK := by
  simp only [codes, List.forall_mem_cons, List.not_mem_nil, false_implies, implies_true, and_true]
  decide

variable {word : Binary64.Word}

theorem storedNumber_code (number : storedNumber e = some (code, word)) :
    code = cdouble ∨ code = cint ∨ code = clong ∨ code = cint64 := by
  cases e with
  | numberInt n =>
    cases number
    exact .inr (.inl rfl)
  | numberLong n =>
    simp only [storedNumber] at number
    split_ifs at number
    · cases number
      exact .inr (.inr (.inr rfl))
    · cases number
      exact .inr (.inr (.inl rfl))
  | numberDouble d =>
    simp only [storedNumber] at number
    split_ifs at number
    cases number
    exact .inl rfl
  | _ => cases number

theorem Stored.code_mem (stored : Stored e code data) : code ∈ codes := by
  cases stored with
  | bool b => cases b <;> decide
  | number number => rcases storedNumber_code number with rfl | rfl | rfl | rfl <;> decide
  | _ => decide

/-! ### Reading back what is stored -/

/-- The subtypes that have a code. -/
def subtypes : List UInt8 := [0, 1, 3, 4, 5, 6, 7, 128, 129, 130, 131, 132, 133, 134, 135]

variable {t : UInt8}

theorem mem_subtypes (low : t &&& 0x78 = 0) (current : t ≠ ByteArrayDeprecated) : t ∈ subtypes := by
  have all : ∀ n < 256, UInt8.ofNat n &&& 0x78 = 0 → UInt8.ofNat n ≠ ByteArrayDeprecated →
      UInt8.ofNat n ∈ subtypes := by
    decide +kernel
  have := all t.toNat t.toNat_lt
  rw [UInt8.ofNat_toNat] at this
  exact this low current

variable {len : Nat}

theorem binDataByte_mem {byte : UInt8} (coded : binDataByte t len = some byte) :
    t ∈ subtypes ∧ len < 33 := by
  by_cases fits : t &&& 0x78 = 0 ∧ t ≠ ByteArrayDeprecated ∧ len ≤ BinDataLenMax
  · exact ⟨mem_subtypes fits.1 fits.2.1, Nat.lt_succ_of_le fits.2.2⟩
  · rw [binDataByte, if_neg fits] at coded
    cases coded

theorem binDataByte_inv {byte : UInt8} (coded : binDataByte t len = some byte) :
    binDataCodeToLength byte = len ∧ binDataSubtype byte = t := by
  have all : (subtypes.all fun t => (List.range 33).all fun len =>
      (binDataByte t len).all fun byte =>
        binDataCodeToLength byte == len && binDataSubtype byte == t) = true := by
    decide
  simp only [List.all_eq_true, List.mem_range, Option.all_eq_true, Bool.and_eq_true,
    beq_iff_eq] at all
  obtain ⟨mem, short⟩ := binDataByte_mem coded
  exact all t mem len short byte coded

/-- Of two bytes for one length, the one of the greater subtype is the greater. -/
theorem binDataByte_sub {u x y : UInt8} (left : binDataByte t len = some x)
    (right : binDataByte u len = some y) :
    ((x.toNat : Int) - y.toNat).sign = if t < u then -1 else if u < t then 1 else 0 := by
  have sum : (subtypes.all fun t => (List.range 33).all fun len =>
      (binDataByte t len).all fun byte =>
        byte.toNat == (BinDataLengthToCode.getD len (-1)).toNat + (subtypeBits t).toNat) =
      true := by
    decide
  have order : (subtypes.all fun t => subtypes.all fun u =>
      (((subtypeBits t).toNat : Int) - (subtypeBits u).toNat).sign ==
        if t < u then -1 else if u < t then 1 else 0) = true := by
    decide
  simp only [List.all_eq_true, List.mem_range, Option.all_eq_true, beq_iff_eq] at sum order
  obtain ⟨ht, short⟩ := binDataByte_mem left
  obtain ⟨hu, -⟩ := binDataByte_mem right
  rw [← order t ht u hu, sum t ht len short x left, sum u hu len short y right]
  congr 1
  omega

theorem natAbs_toInt_lt {n : BitVec 64} (narrow : wide n = false) : n.toInt.natAbs < 2 ^ 53 := by
  unfold wide at narrow
  simp only [decide_eq_false_iff_not, not_or, not_le] at narrow
  omega

theorem readElement_word (make : Binary64.Word → Value)
    (reads : ∀ p, readElement code p = (readWord p).bind fun (word, p) => some (make word, p))
    (rest : List UInt8) : readElement code (wordBytes word ++ rest) = some (make word, rest) := by
  rw [reads, readWord_wordBytes]
  rfl

theorem readElement_number (number : storedNumber e = some (code, word)) (rest : List UInt8) :
    readElement code (wordBytes word ++ rest) = some (e, rest) := by
  cases e with
  | numberInt n =>
    cases number
    rw [readElement_word (fun d => .numberInt (BitVec.ofInt 32 (Binary64.trunc d))) fun _ => rfl,
      Binary64.trunc_ofInt (natAbs_toInt_lt_of_int n), BitVec.ofInt_toInt]
  | numberLong n =>
    simp only [storedNumber] at number
    split_ifs at number with far
    · cases number
      exact readElement_word .numberLong (fun _ => rfl) rest
    · cases number
      rw [readElement_word (fun d => .numberLong (BitVec.ofInt 64 (Binary64.trunc d)))
        fun _ => rfl, Binary64.trunc_ofInt (natAbs_toInt_lt (by simpa using far)),
        BitVec.ofInt_toInt]
  | numberDouble d =>
    simp only [storedNumber] at number
    split_ifs at number
    cases number
    exact readElement_word .numberDouble (fun _ => rfl) rest
  | _ => cases number

/-- A field is read back from what is stored. -/
theorem readElement_stored (stored : Stored e code data) (rest : List UInt8) :
    readElement code (data ++ rest) = some (e, rest) := by
  cases stored with
  | minKey => rfl
  | null => rfl
  | maxKey => rfl
  | bool b => cases b <;> rfl
  | oid o =>
    have reads : readElement coid (o.val ++ rest) =
        if length : 12 ≤ (o.val ++ rest).length then
          some (.oid ⟨(o.val ++ rest).take 12, by rw [List.length_take]; omega⟩,
            (o.val ++ rest).drop 12)
        else none := rfl
    rw [reads, dif_pos (by rw [List.length_append, o.property]; omega)]
    simp [List.take_left' o.property, List.drop_left' o.property]
  | @binData t byte d coded =>
    obtain ⟨length, subtype⟩ := binDataByte_inv coded
    have reads : readElement cbindata (byte :: d ++ rest) =
        (readBytes (binDataCodeToLength byte) (d ++ rest)).bind
          fun (d, p) => some (.binData (binDataSubtype byte) d, p) := rfl
    rw [reads, readBytes_append length.symm, subtype]
    rfl
  | date millis => exact readElement_word .date (fun _ => rfl) rest
  | @string s short =>
    have reads : readElement cstring (UInt8.ofNat s.length :: s ++ rest) =
        (readBytes (UInt8.ofNat s.length).toNat (s ++ rest)).bind
          fun (s, p) => some (.string s, p) := rfl
    have length : (UInt8.ofNat s.length).toNat = s.length :=
      UInt8.toNat_ofNat_of_lt' (Nat.lt_succ_of_le short)
    rw [reads, readBytes_append length.symm]
    rfl
  | number number => exact readElement_number number rest

variable {bytes : List UInt8}

/-- What is stored for one field, with the flag for more. -/
theorem compactFields_singleton (compact : compactFields [e] = some bytes) :
    ∃ code data, Stored e code data ∧ bytes = (code ||| moreBits false) :: data := by
  simp only [compactFields, Option.bind_eq_bind, Option.bind_eq_some_iff] at compact
  obtain ⟨⟨code, data⟩, here, same⟩ := compact
  cases same
  exact ⟨code, data, stored_of_compactElement here, rfl⟩

theorem compactFields_cons {e' : Value} {fields : List Value}
    (compact : compactFields (e :: e' :: fields) = some bytes) :
    ∃ code data rest, Stored e code data ∧ compactFields (e' :: fields) = some rest ∧
      bytes = (code ||| moreBits true) :: data ++ rest := by
  rw [compactFields.eq_3 _ _ (by simp)] at compact
  simp only [Option.bind_eq_bind, Option.bind_eq_some_iff] at compact
  obtain ⟨⟨code, data⟩, here, rest, later, same⟩ := compact
  cases same
  exact ⟨code, data, rest, stored_of_compactElement here, later, rfl⟩

theorem readFields_compact {fields : List Value} {rounds : Nat}
    (compact : compactFields fields = some bytes) (enough : bytes.length ≤ rounds)
    (after : List UInt8) : readFields rounds (bytes ++ after) = some fields := by
  induction fields generalizing bytes rounds with
  | nil => cases compact
  | cons e fields ih =>
    cases fields with
    | nil =>
      obtain ⟨code, data, stored, rfl⟩ := compactFields_singleton compact
      obtain ⟨kind, more, -⟩ := code_or_more code stored.code_mem false
      obtain ⟨rounds, rfl⟩ := Nat.exists_eq_succ_of_ne_zero
        (show rounds ≠ 0 by simp at enough; omega)
      simp only [List.cons_append, readFields, readByte_cons, Option.bind_eq_bind,
        Option.bind_some, kind, readElement_stored stored after, more]
      rfl
    | cons e' fields =>
      obtain ⟨code, data, rest, stored, later, rfl⟩ := compactFields_cons compact
      obtain ⟨kind, more, -⟩ := code_or_more code stored.code_mem true
      obtain ⟨rounds, rfl⟩ := Nat.exists_eq_succ_of_ne_zero
        (show rounds ≠ 0 by simp at enough; omega)
      have readRest : readFields rounds (rest ++ after) = some (e' :: fields) :=
        ih later (by simp at enough; omega)
      have hasMore : moreBits true ≠ 0 := by decide
      simp [readFields, kind, more, readElement_stored stored (rest ++ after), hasMore, readRest]

/-- A key is read back as it was. -/
theorem toBson_keyV1Owned (obj : List Value) : (keyV1Owned obj).toBson = some obj := by
  unfold keyV1Owned
  cases compact : compactFields obj with
  | none => rfl
  | some bytes =>
    have read := readFields_compact compact le_rfl []
    rwa [List.append_nil] at read

end TokuMX.Storage
