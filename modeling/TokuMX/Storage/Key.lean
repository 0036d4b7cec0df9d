import TokuMX.BSON.Object
import TokuMX.Storage.KeyV1

/-!
The buffers that keys are stored in (`db/storage/key.h`, `db/storage/key.cpp`).

A row of an index is a key in the format of `KeyV1`, followed by the primary key as an
object. Nothing in the buffer says where the first ends: `dataSize` finds that out, by a
table of its own.

* `Key.roundTrip` — both parts of a key are read back from its buffer.
-/

namespace TokuMX.Storage

open TokuMX.Lib TokuMX.BSON

/-- The bytes that the constructor of `KeyV1Owned` leaves. -/
def keyV1Bytes (obj : BSONObj) : List UInt8 :=
  match keyV1Owned obj.fields.values with
  | .compact bytes => bytes
  | .traditional _ => IsBSON :: obj.data

/-! ### The size of a key -/

/-- The size of a field by its canonical type; `0` where it depends on the data. -/
def sizes : List Nat := [0, 1, 1, 0, 9, 0, 0, 0, 13, 0, 1, 1, 9, 0, 1, 0]

def sizeOfElement (p : List UInt8) : Option Nat := do
  let (bits, p) ← readByte p
  let type := bits &&& cCANONTYPEMASK
  let sz := sizes.getD type.toNat 0
  if sz = 0 then
    let (n, _) ← readByte p
    if type = cstring then some (n.toNat + 2)
    else if type = cbindata then some (binDataCodeToLength n + 2)
    else none
  else some sz

/-- The loop of `dataSize`; every round passes at least one byte. -/
def dataSizeLoop : Nat → List UInt8 → Option Nat
  | 0, _ => none
  | rounds + 1, p => do
    let z ← sizeOfElement p
    let (bits, _) ← readByte p
    if bits &&& cHASMORE ≠ 0 then
      let rest ← dataSizeLoop rounds (p.drop z)
      some (z + rest)
    else some z

/-- `KeyV1::dataSize`. -/
def dataSize : List UInt8 → Option Nat
  | [] => none
  | b :: rest =>
    if b = IsBSON then (objectAt rest).map fun obj => obj.data.length + 1
    else dataSizeLoop (b :: rest).length (b :: rest)

/-- `KeyV1::toBson`. -/
def toBson : List UInt8 → Option BSONObj
  | [] => none
  | b :: rest =>
    if b = IsBSON then objectAt rest
    else do
      let fields ← readFields (b :: rest).length (b :: rest)
      let data ← build fields
      objectAt data

/-! ### Keys with a primary key -/

/-- A buffer that holds a key, and maybe a primary key. -/
structure Key where
  buf : List UInt8

/-- The constructor for serializing. -/
def Key.ofObjects (key : BSONObj) (pk : Option BSONObj) : Option Key := do
  let data := keyV1Bytes key
  let size ← dataSize data
  some ⟨data.take size ++ (pk.map BSONObj.data).getD []⟩

def Key.key (k : Key) : Option BSONObj := toBson k.buf

def Key.pk (k : Key) : Option BSONObj := do
  let keySize ← dataSize k.buf
  if keySize < k.buf.length then objectAt (k.buf.drop keySize) else some emptyObj

/-! ### The table of sizes -/

theorem sizeOfElement_stored {e : Value} {code : UInt8} {data : List UInt8}
    (stored : Stored e code data) (more : Bool) (after : List UInt8) :
    sizeOfElement ((code ||| moreBits more) :: data ++ after) = some (data.length + 1) := by
  obtain ⟨-, -, type⟩ := code_or_more code stored.code_mem more
  simp only [sizeOfElement, List.cons_append, readByte_cons, Option.bind_eq_bind, Option.bind_some,
    type]
  cases stored with
  | bool b => cases b <;> rfl
  | oid o => simp [o.property, sizes, coid, cCANONTYPEMASK]
  | @binData t byte d coded =>
    rw [List.cons_append, List.length_cons, ← (binDataByte_inv coded).1]
    rfl
  | @string s short =>
    have length : (UInt8.ofNat s.length).toNat = s.length :=
      UInt8.toNat_ofNat_of_lt' (Nat.lt_succ_of_le short)
    rw [List.cons_append, List.length_cons]
    exact congrArg (fun n => some (n + 2)) length
  | @number e code word number =>
    rcases storedNumber_code number with rfl | rfl | rfl | rfl <;> rfl
  | _ => rfl

/-- The table agrees with what the constructor stores. -/
theorem dataSizeLoop_compact {fields : List Value} {bytes : List UInt8} {rounds : Nat}
    (compact : compactFields fields = some bytes) (enough : bytes.length ≤ rounds)
    (after : List UInt8) : dataSizeLoop rounds (bytes ++ after) = some bytes.length := by
  induction fields generalizing bytes rounds with
  | nil => cases compact
  | cons e fields ih =>
    cases fields with
    | nil =>
      obtain ⟨code, data, stored, rfl⟩ := compactFields_singleton compact
      obtain ⟨-, more, -⟩ := code_or_more code stored.code_mem false
      obtain ⟨rounds, rfl⟩ := Nat.exists_eq_succ_of_ne_zero
        (show rounds ≠ 0 by simp at enough; omega)
      have size := sizeOfElement_stored stored false after
      rw [List.cons_append] at size ⊢
      simp only [dataSizeLoop, size, readByte_cons, Option.bind_eq_bind, Option.bind_some, more]
      rfl
    | cons e' fields =>
      obtain ⟨code, data, rest, stored, later, rfl⟩ := compactFields_cons compact
      obtain ⟨-, more, -⟩ := code_or_more code stored.code_mem true
      obtain ⟨rounds, rfl⟩ := Nat.exists_eq_succ_of_ne_zero
        (show rounds ≠ 0 by simp at enough; omega)
      have hasMore : moreBits true ≠ 0 := by decide
      have others : dataSizeLoop rounds (rest ++ after) = some rest.length :=
        ih later (by simp at enough; omega)
      have size := sizeOfElement_stored stored true (rest ++ after)
      rw [List.append_assoc]
      simp only [dataSizeLoop, size]
      simp [more, hasMore, others]
      omega

/-! ### Reading back -/

/-- The first byte of a compact key does not say that it is traditional. -/
theorem compactFields_head {fields : List Value} {bytes : List UInt8}
    (compact : compactFields fields = some bytes) :
    ∃ b rest, bytes = b :: rest ∧ b ≠ IsBSON := by
  have coded : ∀ code ∈ codes, ∀ more, code ||| moreBits more ≠ IsBSON := by
    simp only [codes, List.forall_mem_cons, List.not_mem_nil, false_implies, implies_true, and_true]
    decide
  cases fields with
  | nil => cases compact
  | cons e fields =>
    cases fields with
    | nil =>
      obtain ⟨code, data, stored, rfl⟩ := compactFields_singleton compact
      exact ⟨_, _, rfl, coded code stored.code_mem false⟩
    | cons e' fields =>
      obtain ⟨code, data, rest, stored, -, rfl⟩ := compactFields_cons compact
      exact ⟨_, _, rfl, coded code stored.code_mem true⟩

/-- The builder has every value that is stored in a compact key. -/
theorem elementBytes_of_stored {e : Value} {code : UInt8} {data : List UInt8}
    (stored : Stored e code data) : ∃ type bytes, elementBytes e = some (type, bytes) := by
  cases stored with
  | number number =>
    cases e with
    | numberInt n | numberLong n | numberDouble d => exact ⟨_, _, rfl⟩
    | _ => cases number
  | _ => exact ⟨_, _, rfl⟩

theorem build_of_compact {fields : List Value} {bytes : List UInt8}
    (compact : compactFields fields = some bytes) : ∃ data, build fields = some data := by
  suffices ∃ body, buildElements fields = some body by
    obtain ⟨body, built⟩ := this
    exact ⟨_, by rw [build, built]; rfl⟩
  induction fields generalizing bytes with
  | nil => cases compact
  | cons e fields ih =>
    cases fields with
    | nil =>
      obtain ⟨code, data, stored, -⟩ := compactFields_singleton compact
      obtain ⟨type, bytes, here⟩ := elementBytes_of_stored stored
      exact ⟨_, buildElements_cons.mpr ⟨type, bytes, [], here, rfl, rfl⟩⟩
    | cons e' fields =>
      obtain ⟨code, data, rest, stored, later, -⟩ := compactFields_cons compact
      obtain ⟨type, bytes, here⟩ := elementBytes_of_stored stored
      obtain ⟨body, built⟩ := ih later
      exact ⟨_, buildElements_cons.mpr ⟨type, bytes, body, here, built, rfl⟩⟩

/-- The bytes of a key are those of a compact key or of the object. -/
theorem keyV1Bytes_cases (obj : BSONObj) :
    compactFields obj.fields.values = some (keyV1Bytes obj) ∨
      keyV1Bytes obj = IsBSON :: obj.data := by
  cases compact : compactFields obj.fields.values with
  | some bytes => simp [keyV1Bytes, keyV1Owned, compact]
  | none => simp [keyV1Bytes, keyV1Owned, compact]

theorem dataSize_keyV1Bytes (obj : BSONObj) (after : List UInt8) :
    dataSize (keyV1Bytes obj ++ after) = some (keyV1Bytes obj).length := by
  rcases keyV1Bytes_cases obj with compact | traditional
  · obtain ⟨b, rest, bytes, head⟩ := compactFields_head compact
    have size := dataSizeLoop_compact compact
      (show _ ≤ (keyV1Bytes obj ++ after).length by simp) after
    rw [bytes] at size ⊢
    rw [List.cons_append] at size ⊢
    rw [dataSize, if_neg head, size]
  · rw [traditional, List.cons_append, dataSize, if_pos rfl, objectAt_append]
    rfl

/-- The elements of a key are read back from its bytes. -/
theorem toBson_keyV1Bytes {obj : BSONObj} (unnamed : obj.fields = .ofValues obj.fields.values)
    (after : List UInt8) :
    ∃ read, toBson (keyV1Bytes obj ++ after) = some read ∧ read.fields = obj.fields := by
  rcases keyV1Bytes_cases obj with compact | traditional
  · obtain ⟨data, built⟩ := build_of_compact compact
    -- the object that is built is as long as the one that was stored, so it is valid
    have valid : data.length ≤ BSONObjMaxInternalSize :=
      obj.length_build unnamed built ▸ obj.sized.2.2.1
    obtain ⟨b, rest, bytes, head⟩ := compactFields_head compact
    have fields := readFields_compact compact
      (show _ ≤ (keyV1Bytes obj ++ after).length by simp) after
    let read : BSONObj := ⟨data, .ofValues obj.fields.values, parseObj_build built valid⟩
    have found : objectAt data = some read := by
      have := objectAt_append read []
      rwa [List.append_nil] at this
    refine ⟨read, ?_, unnamed.symm⟩
    rw [bytes] at fields ⊢
    rw [List.cons_append] at fields ⊢
    rw [toBson, if_neg head, fields]
    simp [built, found]
  · refine ⟨obj, ?_, rfl⟩
    rw [traditional, List.cons_append, toBson, if_pos rfl, objectAt_append]

/-- The buffer is the bytes of the key and those of the primary key. -/
theorem Key.ofObjects_eq (key : BSONObj) (pk : Option BSONObj) :
    Key.ofObjects key pk = some ⟨keyV1Bytes key ++ (pk.map BSONObj.data).getD []⟩ := by
  have size := dataSize_keyV1Bytes key []
  rw [List.append_nil] at size
  simp [Key.ofObjects, size]

theorem Key.pk_ofObjects {key : BSONObj} {pk : Option BSONObj} {k : Key}
    (made : Key.ofObjects key pk = some k) : k.pk = some (pk.getD emptyObj) := by
  rw [Key.ofObjects_eq] at made
  cases made
  simp only [Key.pk, dataSize_keyV1Bytes, Option.bind_eq_bind, Option.bind_some]
  cases pk with
  | none => simp
  | some pk =>
    obtain ⟨-, long, -, -⟩ := pk.sized
    have found := objectAt_append pk []
    rw [List.append_nil] at found
    have room : 0 < pk.data.length := by omega
    simp [room, found]

/-- Both parts of a key are read back from its buffer, and `dataSize` is where they meet. -/
theorem Key.roundTrip (key : BSONObj) (pk : Option BSONObj)
    (unnamed : key.fields = .ofValues key.fields.values) :
    ∃ k, Key.ofObjects key pk = some k ∧
      dataSize k.buf = some (keyV1Bytes key).length ∧
      (∃ obj, k.key = some obj ∧ obj.fields = key.fields) ∧
      k.pk = some (pk.getD emptyObj) := by
  refine ⟨_, Key.ofObjects_eq key pk, dataSize_keyV1Bytes key _, ?_,
    Key.pk_ofObjects (Key.ofObjects_eq key pk)⟩
  exact toBson_keyV1Bytes unnamed _

/-- The object `{"": 5}`. -/
def five : BSONObj :=
  ⟨[11, 0, 0, 0, 16, 0, 5, 0, 0, 0, 0], .ofValues [.numberInt 5],
    parseObj_build rfl (Nat.le_of_ble_eq_true rfl)⟩

/-- It is stored compactly, in front of a primary key. -/
theorem Key.roundTrip_five :
    five.fields = .ofValues five.fields.values ∧
      keyV1Bytes five = 0x14 :: wordBytes (Binary64.ofInt 5) ∧
      ∃ k, Key.ofObjects five (some five) = some k ∧
        dataSize k.buf = some (keyV1Bytes five).length ∧
        (∃ obj, k.key = some obj ∧ obj.fields = five.fields) ∧
        k.pk = some five :=
  ⟨rfl, rfl, Key.roundTrip five (some five) rfl⟩

end TokuMX.Storage
