import Mathlib.Control.Monad.Basic
import TokuMX.BSON.Object
import TokuMX.Lib.Checked

/-!
`validateBSON` (`bson/bson_validate.cpp`): the check of documents from outside.

The machine reads elements at a 64-bit position and keeps a frame for every object and
every code with scope that is open. Lengths in the buffer are signed and are added to the
position as they are, so a negative one moves it back.

* `Control`, `step` — the machine; `validateBSONIterative` runs it.
* `validateBSON_ne_undefined` — it reads nothing outside the buffer.
* `validateBSON_loops` — a string whose length is -6 is read forever.
-/

namespace TokuMX.BSON.Validation

open TokuMX.Lib

/-! ### The buffer -/

/-- The memory `originalBuffer` points at; `maxLength` bytes of it may be read. -/
structure Memory where
  bytes : List UInt8
  maxLength : Nat
  backed : maxLength ≤ bytes.length
  addressable : bytes.length < 2 ^ 63

inductive Failure where
  /-- A `Status` with `ErrorCodes::InvalidBSON`. -/
  | invalidBSON (reason : String)
  /-- An access outside of the memory or to a frame that does not exist. -/
  | undefined
deriving DecidableEq

/-- What a `uint64_t` keeps of a number. -/
@[irreducible] def uint64 (n : Int) : Nat := (n % 2 ^ 64).toNat

/-- `Buffer::readNumber` of `width` bytes; `reason` is what its callers report if it
fails. -/
def readNumber (b : Memory) (width : Nat) (reason : String) (position : Nat) :
    Except Failure (Nat × Nat) :=
  if b.maxLength < uint64 (position + width) then .error (.invalidBSON reason)
  else
    match readBytes width (b.bytes.drop position) with
    | some (data, _) => .ok (ofLeBytes data, uint64 (position + width))
    | none => .error .undefined

/-- `readNumber<int>`. -/
def readInt (b : Memory) (reason : String) (position : Nat) : Except Failure (BitVec 32 × Nat) := do
  let (n, position) ← readNumber b 4 reason position
  return (BitVec.ofNat 32 n, position)

/-- `readNumber<char>`. -/
def readChar (b : Memory) (reason : String) (position : Nat) : Except Failure (UInt8 × Nat) := do
  let (n, position) ← readNumber b 1 reason position
  return (UInt8.ofNat n, position)

/-- `Buffer::readCString`. -/
def readCString (b : Memory) (position : Nat) : Except Failure Nat :=
  let count := uint64 (b.maxLength - position)
  let region := (b.bytes.drop position).take count
  match region.findIdx? (· = 0) with
  | some length => .ok (uint64 (position + (length + 1)))
  | none =>
    if region.length < count then .error .undefined
    else .error (.invalidBSON "no end of c-string")

/-- How `Buffer::skip` moves the position. A negative `int` becomes a large `uint64_t`. -/
def skip (size : Int) (position : Nat) : Nat := uint64 (position + size)

/-- `Buffer::skip` where its callers heed what it returns. -/
def skipWithin (b : Memory) (size : Int) (position : Nat) : Except Failure Nat :=
  if skip size position < b.maxLength then .ok (skip size position)
  else .error (.invalidBSON "invalid bson")

/-- `Buffer::readUTF8String`. `size - 1` is taken to wrap around. -/
def readUTF8String (b : Memory) (position : Nat) : Except Failure Nat := do
  let (size, position) ← readInt b "invalid bson" position
  let position ← skipWithin b (size - 1).toInt position
  let (c, position) ← readChar b "invalid bson" position
  if c = 0 then .ok position else .error (.invalidBSON "not null terminate string")

/-! ### The machine -/

/-- `ValidationState::State`. -/
inductive State where
  | beginObj | withinObj | endObj | beginCodeWScope | endCodeWScope | done
deriving DecidableEq

/-- `ValidationObjectFrame`. The start is kept in the 31 bits that the flag leaves. -/
structure Frame where
  startPosition : Nat
  isCodeWithScope : Bool
  expectedSize : BitVec 32
deriving DecidableEq

/-- The frame of what starts at `position`. -/
def Frame.at (position : Nat) (isCodeWithScope : Bool) (expectedSize : BitVec 32) : Frame :=
  ⟨position % 2 ^ 31, isCodeWithScope, expectedSize⟩

/-- `actualLength`, an `int`. -/
def Frame.actualLength (curr : Frame) (position : Nat) : BitVec 32 :=
  BitVec.ofInt 32 (position - curr.startPosition)

/-- Where the machine is, apart from its frames. -/
structure Control where
  position : Nat
  state : State
deriving DecidableEq

/-- The switch of `validateElementInfo`: behind the value, or at the start of one that has
a frame of its own. `1 + size` is taken to wrap around. -/
def validateValue (b : Memory) (position : Nat) : BSONType → Except Failure Control
  | .minKey | .maxKey | .jstNULL | .undefined => .ok ⟨position, .withinObj⟩
  | .jstOID => do return ⟨← skipWithin b 12 position, .withinObj⟩
  | .numberInt => do return ⟨← skipWithin b 4 position, .withinObj⟩
  | .bool => do return ⟨← skipWithin b 1 position, .withinObj⟩
  | .numberDouble | .numberLong | .timestamp | .date =>
    do return ⟨← skipWithin b 8 position, .withinObj⟩
  -- whether the OID is inside the buffer is not asked
  | .dbRef => do return ⟨skip 12 (← readUTF8String b position), .withinObj⟩
  | .regEx => do return ⟨← readCString b (← readCString b position), .withinObj⟩
  | .code | .symbol | .string => do return ⟨← readUTF8String b position, .withinObj⟩
  | .binData => do
    let (size, position) ← readInt b "invalid bson" position
    return ⟨← skipWithin b (1 + size).toInt position, .withinObj⟩
  | .codeWScope => .ok ⟨position, .beginCodeWScope⟩
  | .object | .array => .ok ⟨position, .beginObj⟩

/-- `validateElementInfo`. The state it is called in is `WithinObj`. -/
def validateElementInfo (b : Memory) (position : Nat) : Except Failure Control := do
  let (type, position) ← readChar b "invalid bson" position
  if type = 0 then .ok ⟨position, .endObj⟩
  else
    let position ← readCString b position
    match BSONType.ofByte type with
    | some type => validateValue b position type
    | none => .error (.invalidBSON "invalid bson type")

/-- The state after an object is closed inside these frames. -/
def State.afterObj : List Frame → State
  | [] => .done
  | outer :: _ => if outer.isCodeWithScope then .endCodeWScope else .withinObj

/-- One round of the loop of `validateBSONIterative`. The frames are innermost first. -/
def step (b : Memory) (c : Control) (frames : List Frame) :
    Except Failure (Control × List Frame) :=
  match c.state, frames with
  | .beginObj, frames => do
    let (size, position) ← readInt b "bson size is larger than buffer size" c.position
    return (← validateElementInfo b position, .at c.position false size :: frames)
  | .withinObj, frames => do return (← validateElementInfo b c.position, frames)
  | .endObj, curr :: frames =>
    if curr.actualLength c.position = curr.expectedSize then
      .ok (⟨c.position, .afterObj frames⟩, frames)
    else .error (.invalidBSON "bson length doesn't match what we found")
  | .beginCodeWScope, frames => do
    let (size, position) ← readInt b "invalid bson CodeWScope size" c.position
    let position ← readUTF8String b position
    return (⟨position, .beginObj⟩, .at c.position true size :: frames)
  | .endCodeWScope, curr :: frames =>
    if curr.actualLength c.position = curr.expectedSize then
      if frames = [] then .error (.invalidBSON "unnested CodeWScope")
      else .ok (⟨c.position, .withinObj⟩, frames)
    else .error (.invalidBSON "bson length for CodeWScope doesn't match what we found")
  | .done, frames => .ok (c, frames)
  | .endObj, [] | .endCodeWScope, [] => .error .undefined

/-- `validateBSONIterative`, for at most `fuel` rounds. -/
def validateBSONIterative (b : Memory) : Nat → Control × List Frame → Option (Except Failure Unit)
  | 0, _ => none
  | fuel + 1, (c, frames) =>
    if c.state = .done then some (.ok ())
    else
      match step b c frames with
      | .error failure => some (.error failure)
      | .ok m => validateBSONIterative b fuel m

/-- The machine before the first round. -/
def start : Control × List Frame := (⟨0, .beginObj⟩, [])

/-- `validateBSON`, for at most `fuel` rounds. -/
def validateBSON (b : Memory) (fuel : Nat) : Option (Except Failure Unit) :=
  if b.maxLength < 5 then some (.error (.invalidBSON "bson data has to be at least 5 bytes"))
  else validateBSONIterative b fuel start

/-- The validator reaches a result. -/
def Terminates (b : Memory) : Prop := ∃ fuel status, validateBSON b fuel = some status

/-! ### What is read lies inside the buffer -/

/-- A result is as `post` says, and nothing undefined was done for it. -/
def Safe {α : Type} (post : α → Prop) : Except Failure α → Prop
  | .ok a => post a
  | .error failure => failure ≠ .undefined

theorem Safe.bind {α β : Type} {post : α → Prop} {post' : β → Prop} {x : Except Failure α}
    {f : α → Except Failure β} (first : Safe post x) (rest : ∀ a, post a → Safe post' (f a)) :
    Safe post' (x >>= f) := by
  cases x with
  | error failure => exact first
  | ok a => exact rest a first

variable {b : Memory} {position : Nat}

theorem uint64_of_nonneg {n : Int} {m : Nat} (same : n = m) (small : m < 2 ^ 64) :
    uint64 n = m := by
  subst same
  unfold uint64
  omega

theorem readNumber_eq {width : Nat} (reason : String) (near : position + width < 2 ^ 64) :
    readNumber b width reason position =
      if b.maxLength < position + width then .error (.invalidBSON reason)
      else .ok (ofLeBytes ((b.bytes.drop position).take width), position + width) := by
  have backed := b.backed
  unfold readNumber
  rw [uint64_of_nonneg (Int.natCast_add _ _).symm near]
  split_ifs with short
  · rfl
  · have enough : width ≤ (b.bytes.drop position).length := by
      rw [List.length_drop]
      omega
    rw [readBytes, if_pos enough]

theorem readNumber_safe {width : Nat} (reason : String) (near : position ≤ b.maxLength + 12)
    (narrow : width ≤ 8) :
    Safe (fun r => r.2 = position + width ∧ r.2 ≤ b.maxLength)
      (readNumber b width reason position) := by
  have backed := b.backed
  have addressable := b.addressable
  rw [readNumber_eq reason (by omega)]
  split_ifs with short
  · exact Failure.noConfusion
  · exact ⟨rfl, not_lt.mp short⟩

theorem readInt_safe (reason : String) (near : position ≤ b.maxLength + 12) :
    Safe (fun r => r.2 = position + 4 ∧ r.2 ≤ b.maxLength) (readInt b reason position) :=
  (readNumber_safe reason near (by decide)).bind fun _ read => read

theorem readChar_safe (reason : String) (near : position ≤ b.maxLength + 12) :
    Safe (fun r => r.2 = position + 1 ∧ r.2 ≤ b.maxLength) (readChar b reason position) :=
  (readNumber_safe reason near (by decide)).bind fun _ read => read

/-- What `memchr` looks through. -/
def region (b : Memory) (position : Nat) : List UInt8 :=
  (b.bytes.drop position).take (b.maxLength - position)

theorem length_region (inside : position ≤ b.maxLength) :
    (region b position).length = b.maxLength - position := by
  have backed := b.backed
  rw [region, List.length_take, List.length_drop]
  omega

theorem readCString_eq (inside : position ≤ b.maxLength) :
    readCString b position =
      match (region b position).findIdx? (· = 0) with
      | some length => .ok (position + (length + 1))
      | none => .error (.invalidBSON "no end of c-string") := by
  have backed := b.backed
  have addressable := b.addressable
  have count : uint64 (b.maxLength - position) = b.maxLength - position :=
    uint64_of_nonneg (Int.ofNat_sub inside).symm (by omega)
  have searched : (b.bytes.drop position).take (b.maxLength - position) = region b position := rfl
  have length := length_region inside
  simp only [readCString, count, searched]
  cases found : (region b position).findIdx? (· = 0) with
  | none => exact if_neg (by omega)
  | some n =>
    have bound := (List.findIdx?_eq_some_iff_findIdx_eq.mp found).1
    have near : uint64 (position + (n + 1)) = position + (n + 1) :=
      uint64_of_nonneg (by simp) (by omega)
    simp only [near]

theorem readCString_safe (inside : position ≤ b.maxLength) :
    Safe (fun q => position < q ∧ q ≤ b.maxLength) (readCString b position) := by
  rw [readCString_eq inside]
  cases found : (region b position).findIdx? (· = 0) with
  | none => exact Failure.noConfusion
  | some n =>
    have bound := (List.findIdx?_eq_some_iff_findIdx_eq.mp found).1
    have length := length_region inside
    exact ⟨by omega, by omega⟩

theorem skipWithin_safe (size : Int) :
    Safe (fun q => q < b.maxLength) (skipWithin b size position) := by
  unfold skipWithin
  split_ifs with inside
  · exact inside
  · exact Failure.noConfusion

theorem readUTF8String_safe (near : position ≤ b.maxLength + 12) :
    Safe (fun q => q ≤ b.maxLength) (readUTF8String b position) := by
  refine (readInt_safe _ near).bind fun size _ => ?_
  refine (skipWithin_safe _).bind fun q inside => ?_
  refine (readChar_safe _ (by omega)).bind fun c read => ?_
  dsimp only
  split_ifs with terminated
  · exact read.2
  · exact Failure.noConfusion

/-- Only a DBRef can leave the machine behind the buffer. -/
def Placed (b : Memory) (c : Control) : Prop :=
  c.position ≤ b.maxLength + 12 ∧ (c.state ≠ .withinObj → c.position ≤ b.maxLength)

theorem Placed.of_inside {state : State} (inside : position ≤ b.maxLength) :
    Placed b ⟨position, state⟩ :=
  ⟨by simp only; omega, fun _ => inside⟩

theorem validateValue_safe (inside : position ≤ b.maxLength) (type : BSONType) :
    Safe (Placed b) (validateValue b position type) := by
  have near : position ≤ b.maxLength + 12 := by omega
  have fixed : ∀ size : Int,
      Safe (Placed b) (do return ⟨← skipWithin b size position, .withinObj⟩) := fun size =>
    (skipWithin_safe size).bind fun q within => Placed.of_inside within.le
  have string : Safe (Placed b) (do return ⟨← readUTF8String b position, .withinObj⟩) :=
    (readUTF8String_safe near).bind fun q within => Placed.of_inside within
  cases type with
  | minKey | maxKey | jstNULL | undefined | codeWScope | object | array =>
    exact Placed.of_inside inside
  | jstOID => exact fixed 12
  | numberInt => exact fixed 4
  | bool => exact fixed 1
  | numberDouble | numberLong | timestamp | date => exact fixed 8
  | code | symbol | string => exact string
  | dbRef =>
    refine (readUTF8String_safe near).bind fun q within => ⟨?_, fun other => absurd rfl other⟩
    have addressable := b.addressable
    have backed := b.backed
    have behind : skip 12 q = q + 12 := uint64_of_nonneg rfl (by omega)
    simp only [behind]
    omega
  | regEx =>
    refine (readCString_safe inside).bind fun q first => ?_
    exact (readCString_safe first.2).bind fun q second => Placed.of_inside second.2
  | binData =>
    refine (readInt_safe _ near).bind fun size read => ?_
    exact (skipWithin_safe _).bind fun q within => Placed.of_inside within.le

theorem validateElementInfo_safe (near : position ≤ b.maxLength + 12) :
    Safe (Placed b) (validateElementInfo b position) := by
  refine (readChar_safe _ near).bind fun type read => ?_
  dsimp only
  split_ifs with last
  · exact Placed.of_inside read.2
  · refine (readCString_safe read.2).bind fun q name => ?_
    cases BSONType.ofByte type.1 with
    | none => exact Failure.noConfusion
    | some type => exact validateValue_safe name.2 type

/-- Where the machine can be, and that it has a frame where it needs one. -/
structure Sane (b : Memory) (c : Control) (frames : List Frame) : Prop where
  placed : Placed b c
  framed : frames = [] → c.state = .beginObj ∨ c.state = .done

variable {c : Control} {frames : List Frame}

theorem step_safe (sane : Sane b c frames) : Safe (fun m => Sane b m.1 m.2) (step b c frames) := by
  obtain ⟨near, inside⟩ := sane.placed
  cases state : c.state with
  | beginObj =>
    simp only [step, state]
    refine (readInt_safe _ near).bind fun size read => ?_
    exact (validateElementInfo_safe (by omega)).bind fun c' placed =>
      ⟨placed, fun none => absurd none (List.cons_ne_nil _ _)⟩
  | withinObj =>
    simp only [step, state]
    refine (validateElementInfo_safe near).bind fun c' placed => ⟨placed, fun none => ?_⟩
    rcases sane.framed none with other | other <;> simp [state] at other
  | beginCodeWScope =>
    simp only [step, state]
    refine (readInt_safe _ near).bind fun size read => ?_
    exact (readUTF8String_safe (by omega)).bind fun q within =>
      ⟨Placed.of_inside within, fun none => absurd none (List.cons_ne_nil _ _)⟩
  | endObj =>
    have here := inside (by simp [state])
    cases frames with
    | nil => rcases sane.framed rfl with other | other <;> simp [state] at other
    | cons curr frames =>
      simp only [step, state]
      split_ifs
      · refine ⟨Placed.of_inside here, ?_⟩
        rintro rfl
        exact .inr rfl
      · exact Failure.noConfusion
  | endCodeWScope =>
    have here := inside (by simp [state])
    cases frames with
    | nil => rcases sane.framed rfl with other | other <;> simp [state] at other
    | cons curr frames =>
      simp only [step, state]
      split_ifs with length none
      · exact Failure.noConfusion
      · exact ⟨Placed.of_inside here, fun none' => absurd none' none⟩
      · exact Failure.noConfusion
  | done =>
    simp only [step, state]
    exact sane

theorem sane_start : Sane b start.1 start.2 := ⟨Placed.of_inside (Nat.zero_le _), fun _ => .inl rfl⟩

theorem validateBSONIterative_ne_undefined (fuel : Nat) (sane : Sane b c frames) :
    validateBSONIterative b fuel (c, frames) ≠ some (.error .undefined) := by
  induction fuel generalizing c frames with
  | zero => simp [validateBSONIterative]
  | succ fuel ih =>
    have safe := step_safe sane
    rw [validateBSONIterative]
    split_ifs with done
    · simp
    · cases made : step b c frames with
      | error failure =>
        rw [made] at safe
        simpa [Safe] using safe
      | ok m =>
        rw [made] at safe
        exact ih safe

/-- The validator does not leave the buffer, whatever is in it. -/
theorem validateBSON_ne_undefined (b : Memory) (fuel : Nat) :
    validateBSON b fuel ≠ some (.error .undefined) := by
  unfold validateBSON
  split_ifs with short
  · simp
  · exact validateBSONIterative_ne_undefined fuel sane_start

/-! ### A validator that does not stop -/

/-- A round that changes nothing is made again and again. -/
theorem validateBSONIterative_stuck (again : step b c frames = .ok (c, frames))
    (running : c.state ≠ .done) (fuel : Nat) :
    validateBSONIterative b fuel (c, frames) = none := by
  induction fuel with
  | zero => rfl
  | succ fuel ih =>
    rw [validateBSONIterative, if_neg running, again]
    exact ih

/-- An object of ten bytes whose only element is a string without a name and with the length
-6, so that behind the string the same element is read again. -/
def negativeLength : Memory where
  bytes := [10, 0, 0, 0, 2, 0, 0xfa, 0xff, 0xff, 0xff]
  maxLength := 10
  backed := le_rfl
  addressable := by decide

theorem validateBSON_loops : ¬ Terminates negativeLength := by
  have first : step negativeLength ⟨0, .beginObj⟩ [] =
      .ok (⟨4, .withinObj⟩, [⟨0, false, 10⟩]) := by
    decide +kernel
  have again : step negativeLength ⟨4, .withinObj⟩ [⟨0, false, 10⟩] =
      .ok (⟨4, .withinObj⟩, [⟨0, false, 10⟩]) := by
    decide +kernel
  rintro ⟨fuel, status, result⟩
  cases fuel with
  | zero => cases result
  | succ fuel =>
    rw [validateBSON, if_neg (by decide), start, validateBSONIterative,
      if_neg State.noConfusion, first] at result
    have stuck := validateBSONIterative_stuck again State.noConfusion fuel
    exact Option.some_ne_none status (result.symm.trans stuck)

end TokuMX.BSON.Validation
