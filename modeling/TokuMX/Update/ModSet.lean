import TokuMX.BSON.Object
import TokuMX.Lib.Checked
import TokuMX.Lib.OrderedMap
import TokuMX.Update.FieldNames
import TokuMX.Update.Increment

/-!
The modifiers of an update (`ModSet::ModSet` in `db/ops/update_internal.cpp`,
`haveConflictingMod` in `update_internal.h`).

The constructor goes through the modifiers and their fields and looks at each path, before it is
added, for one among the earlier paths that is equal to it, lies below it or above it. For this
it only looks at one path: the first that is not before the path's first part. Others are not
seen behind it, and the two paths of a `$rename` are not compared at all.

* `raises_iff` — the constructor raises one of the errors for conflicts exactly if a path is seen.
* `raises_iff_conflict_iff` — so it is raised just for the conflicts, exactly if one is seen
  whenever there is one.

What constructing the `Matcher` of a `$pull` may raise is a parameter. `_isIndexed` and
`_hasDynamicArray` are left out.
-/

namespace TokuMX.Update

open TokuMX.Lib TokuMX.BSON FieldName

/-- `Mod::Op`. -/
inductive ModOp where
  | inc | set | push | pushAll | pull | pullAll | pop | unset | bitAnd | bitOr | bit | addToSet
  | renameFrom | renameTo | setOnInsert
deriving DecidableEq

/-- A `uassert` with its text, to which some add a name, a failed `verify`, or what constructing a
`Matcher` raises. -/
inductive ModFailure where
  | uassert (code : Nat) (text : String) (name : List UInt8)
  | verifyFailed
  | matcher (code : Nat)
deriving DecidableEq

structure Mod where
  op : ModOp
  elt : Value

/-- `_mods`. -/
abbrev Mods := OrderedMap FieldName Mod

/-- `uassert`. -/
def uassert (code : Nat) (text : String) (c : Prop) [Decidable c] : Except ModFailure Unit :=
  ensure c (.uassert code text [])

/-- The names that `opFromStr` knows. -/
def modNames : List (List UInt8 × ModOp) :=
  [(ascii "$inc", .inc), (ascii "$set", .set), (ascii "$setOnInsert", .setOnInsert),
    (ascii "$push", .push), (ascii "$pushAll", .pushAll), (ascii "$pull", .pull),
    (ascii "$pullAll", .pullAll), (ascii "$pop", .pop), (ascii "$unset", .unset),
    (ascii "$bit", .bit), (ascii "$bitand", .bitAnd), (ascii "$bitor", .bitOr),
    (ascii "$addToSet", .addToSet)]

def opFromStr (fn : FieldName) : Except ModFailure ModOp := do
  ensure (fn.bytes.head? = some 36) .verifyFailed
  match modNames.lookup fn.bytes with
  | some op => pure op
  | none =>
    -- whatever follows `$rename`
    if (ascii "$rename").isPrefixOf fn.bytes then pure .renameTo
    else throw (.uassert 10161 "Invalid modifier specified " fn.bytes)

/-! ### Earlier paths -/

def haveModForField (mods : Mods) (fieldName : FieldName) : Bool := (mods.find? fieldName).isSome

/-- The first of the paths that is not before a name, `lower_bound`. -/
def lowerBound (mods : Mods) (name : FieldName) : Option FieldName :=
  (mods.fromKey name).head?.map Prod.fst

/-- `haveConflictingMod`. Every case of the switch in its loop returns, so only one path is
looked at. -/
def haveConflictingMod (mods : Mods) (fieldName : FieldName) : Except ModFailure Bool :=
  match lowerBound mods fieldName.root with
  | none => pure false
  | some start =>
    match compareDottedFieldNames true fieldName start with
    | none => throw .verifyFailed
    | some r => pure r.conflicts

/-- The two checks of a path that is to be added. -/
def checkConflict (mods : Mods) (path : FieldName) (duplicate conflict : ModFailure) :
    Except ModFailure Unit := do
  ensure (¬ haveModForField mods path) duplicate
  let found ← haveConflictingMod mods path
  ensure (¬ found) conflict

/-! ### The other checks -/

def isObject : Value → Bool
  | .object _ => true
  | _ => false

/-- The checks of a field's name in front of those for conflicts. -/
def checkName (op : ModOp) (fieldName : FieldName) : Except ModFailure Unit := do
  uassert 15896 "Modified field name may not start with $"
    (fieldName.bytes.head? ≠ some 36 ∨ op = .unset)
  uassert 10148 "Mod on _id not allowed" (fieldName.bytes ≠ ascii "_id")
  uassert 10149 "Invalid mod field name, may not end in a period" (¬ fieldName.EndsInDot)

/-- A double converted to `long long`; what does not fit gives the lowest number. -/
def toLongLong (d : Binary64.Word) : Int :=
  let whole := Binary64.trunc d
  if ¬ Binary64.isNaN d ∧ -(2 ^ 63) ≤ whole ∧ whole < 2 ^ 63 then whole else -(2 ^ 63)

/-- An integer, or a double that equals its conversion to one. -/
def isNumericInteger : Value → Bool
  | .numberInt _ | .numberLong _ => true
  | .numberDouble d => Binary64.eq d (Binary64.ofInt (toLongLong d))
  | _ => false

/-- `FieldRef::parse`. -/
def parts (name : FieldName) : List (List UInt8) :=
  if name.bytes = [] then [] else name.bytes.splitOn dot

/-- An element of `$sort`. -/
def checkSortField (field : List UInt8 × Value) : Except ModFailure Unit := do
  uassert 16641 "$sort elements' values  must either 1 or -1"
    (isNumericInteger field.2 ∧ (Binary64.eq (numberDouble field.2) (Binary64.ofInt 1) ∨
      Binary64.eq (numberDouble field.2) (Binary64.ofInt (-1))))
  uassert 16690 "$sort field cannot be empty" (0 < (parts (.ofBytes field.1)).length)
  (parts (.ofBytes field.1)).forM fun part =>
    uassert 16691 "empty field in dotted sort pattern" (0 < part.length)

/-- The value of `$sort`, and the elements of `$each` with it. -/
def checkSort (each value : Value) : Except ModFailure Unit := do
  uassert 16648 "$sort component of $push must be an object" (isObject value)
  (embeddedObject value).pairs.forM checkSortField
  (embeddedObject each).pairs.forM fun item =>
    uassert 16642 "$sort requires $each to be an array of objects" (isObject item.2)

/-- The value of `$slice`. -/
def checkSlice (value : Value) : Except ModFailure Unit := do
  uassert 16568 "$slice value must be a numeric integer" (isNumericInteger value)
  uassert 16640 "$slice value must be negative or zero"
    (¬ Binary64.lt (Binary64.ofInt 0) (numberDouble value))

/-- The elements of `$push` behind `$each`, which may be `$slice` and `$sort`. -/
def checkComplements (each : Value) (seenSlice seenSort : Bool) :
    List (List UInt8 × Value) → Except ModFailure Unit
  | [] => uassert 16644 "cannot have a $sort without a $slice" seenSlice
  | (name, value) :: rest =>
    if (FieldName.ofBytes name).bytes = ascii "$slice" then do
      uassert 16567 "$slice appeared twice" (¬ seenSlice)
      checkSlice value
      checkComplements each true seenSort rest
    else if (FieldName.ofBytes name).bytes = ascii "$sort" then do
      uassert 16647 "$sort appeared twice" (¬ seenSort)
      checkSort each value
      checkComplements each seenSlice true rest
    else
      throw (.uassert 16643
        "$each term takes only $slice (and optionally $sort) as complements" [])

/-- The value of a `$push` that is an object, which may be one with `$each`. -/
def checkPush (fields : Fields) : Except ModFailure Unit :=
  match fields.pairs with
  | (name, each) :: rest =>
    if (FieldName.ofBytes name).bytes = ascii "$each" then do
      uassert 16564 "$each term needs to occur alone (or with $slice/$sort)" (rest.length ≤ 2)
      uassert 16565 "$each requires an array value" (isArray each)
      if rest.length > 0 then checkComplements each false false rest else pure ()
    else pure ()
  | [] => pure ()

/-- The checks of a field's value. -/
def checkValue (op : ModOp) (value : Value) : Except ModFailure Unit := do
  uassert 10152 "Modifier $inc allowed for numbers only" (value.isNumber ∨ op ≠ .inc)
  uassert 10153 "Modifier $pushAll/pullAll allowed for arrays only"
    (isArray value ∨ (op ≠ .pushAll ∧ op ≠ .pullAll))
  match op, value with
  | .push, .object fields => checkPush fields
  | _, _ => pure ()

/-- `_id` or a field of it. -/
def affectsId (name : FieldName) : Prop :=
  name.bytes = ascii "_id" ∨ (ascii "_id.").isPrefixOf name.bytes

instance (name : FieldName) : Decidable (affectsId name) := inferInstanceAs (Decidable (_ ∨ _))

/-- The target of a `$rename`, if there is one. -/
def renameTarget : Value → Option FieldName
  | .string s => some (.ofBytes s)
  | _ => none

/-- The checks of a `$rename` in front of those for conflicts with its target. -/
def checkRename (fieldName : FieldName) (value : Value) : Except ModFailure FieldName :=
  match renameTarget value with
  | none => throw (.uassert 13494 "$rename target must be a string" [])
  | some target => do
    uassert 13495 "$rename source must differ from target" (fieldName ≠ target)
    uassert 13496 "invalid mod field name, source may not be empty" (fieldName.bytes ≠ [])
    uassert 13479 "invalid mod field name, target may not be empty" (target.bytes ≠ [])
    uassert 13480 "invalid mod field name, source may not begin or end in period"
      (fieldName.bytes.head? ≠ some dot ∧ ¬ fieldName.EndsInDot)
    uassert 13481 "invalid mod field name, target may not begin or end in period"
      (target.bytes.head? ≠ some dot ∧ ¬ target.EndsInDot)
    uassert 13482 "$rename affecting _id not allowed" (¬ affectsId fieldName)
    uassert 13483 "$rename affecting _id not allowed" (¬ affectsId target)
    pure target

/-- The checks behind them. -/
def checkRenamed (fieldName target : FieldName) : Except ModFailure Unit := do
  uassert 13486 "$rename target may not be a parent of source"
    (¬ (target.bytes ++ [dot]).isPrefixOf fieldName.bytes)
  uassert 13487 "$rename source may not be dynamic array" (¬ ascii ".$" <:+: fieldName.bytes)
  uassert 13488 "$rename target may not be dynamic array" (¬ ascii ".$" <:+: target.bytes)

/-! ### The constructor -/

variable (newMatcher : Value → Option Nat)

/-- `Mod::init`, which makes a `Matcher` of the object of a `$pull`. -/
def Mod.init (op : ModOp) (value : Value) : Except ModFailure Mod :=
  match if op = .pull ∧ isObject value then newMatcher value else none with
  | some code => throw (.matcher code)
  | none => pure ⟨op, value⟩

/-- The branch of the inner loop for a `$rename`. -/
def addRename (mods : Mods) (fieldName : FieldName) (value : Value) : Except ModFailure Mods := do
  let target ← checkRename fieldName value
  checkConflict mods target
    (.uassert 13484 "field name duplication not allowed with $rename target" [])
    (.uassert 13485 "conflicting mods not allowed with $rename target" [])
  checkRenamed fieldName target
  pure ((mods.set fieldName ⟨.renameFrom, value⟩).set target ⟨.renameTo, value⟩)

/-- The body of the inner loop, for one field of a modifier. -/
def addField (op : ModOp) (mods : Mods) (field : List UInt8 × Value) : Except ModFailure Mods := do
  let fieldName := FieldName.ofBytes field.1
  checkName op fieldName
  checkConflict mods fieldName
    (.uassert 10150 "Field name duplication not allowed with modifiers" [])
    (.uassert 10151 "have conflicting mods in update" [])
  checkValue op field.2
  if op = .renameTo then addRename mods fieldName field.2
  else
    let m ← Mod.init newMatcher op field.2
    pure (mods.set fieldName m)

/-- The body of the outer loop, for one modifier. -/
def addModifier (mods : Mods) (e : List UInt8 × Value) : Except ModFailure Mods :=
  let fn := FieldName.ofBytes e.1
  match e.2 with
  | .object fields => do
    let op ← opFromStr fn
    fields.pairs.foldlM (addField newMatcher op) mods
  | _ => throw (.uassert 10147 "Invalid modifier specified: " fn.bytes)

/-- `ModSet::ModSet`. -/
def ModSet (update : Fields) : Except ModFailure Mods :=
  update.pairs.foldlM (addModifier newMatcher) .empty

/-! ### The paths of an update -/

/-- The paths that a field of a modifier is about: its name, and the target of a `$rename`. -/
def fieldPaths (op : ModOp) (field : List UInt8 × Value) : List FieldName :=
  .ofBytes field.1 :: if op = .renameTo then (renameTarget field.2).toList else []

/-- What the loops go through: the fields of the modifiers, or the failure of what is not a
modifier. -/
abbrev Item := Except ModFailure (ModOp × List UInt8 × Value)

def modifierItems (e : List UInt8 × Value) : List Item :=
  match e.2 with
  | .object fields =>
    match opFromStr (.ofBytes e.1) with
    | .ok op => fields.pairs.map fun field => .ok (op, field)
    | .error failure => [.error failure]
  | _ => [.error (.uassert 10147 "Invalid modifier specified: " (FieldName.ofBytes e.1).bytes)]

def items (update : Fields) : List Item := update.pairs.flatMap modifierItems

def itemPaths : Item → List FieldName
  | .ok (op, field) => fieldPaths op field
  | .error _ => []

/-- The paths of an update, in order. -/
def paths (update : Fields) : List FieldName := (items update).flatMap itemPaths

/-- Two of the paths are equal, or one lies below the other. -/
def Conflict (update : Fields) : Prop := ¬ (paths update).Pairwise fun a b => ¬ a.Related b

instance (update : Fields) : Decidable (Conflict update) :=
  inferInstanceAs (Decidable (¬ List.Pairwise _ _))

/-- The errors for conflicts. -/
def ModFailure.IsConflict : ModFailure → Bool
  | uassert code _ _ => code ∈ [10150, 10151, 13484, 13485]
  | verifyFailed | matcher _ => false

/-- A computation ends with one of the errors for conflicts. -/
def Raises {α : Type} (x : Except ModFailure α) : Prop := ∃ e, x = .error e ∧ e.IsConflict

instance {α : Type} : DecidablePred (Raises : Except ModFailure α → Prop)
  | .ok _ => isFalse fun ⟨_, same, _⟩ => nomatch same
  | .error e => decidable_of_iff e.IsConflict
      ⟨fun conflict => ⟨e, rfl, conflict⟩,
        fun ⟨_, same, conflict⟩ => Except.error.inj same ▸ conflict⟩

/-- The path that `path` is compared with: the first of the earlier ones that is not before its
first part. -/
def Compared (earlier : List FieldName) (path other : FieldName) : Prop :=
  IsLeast {r | r ∈ earlier ∧ path.root ≤ r} other

/-- The comparison is not given up. -/
def Ends (earlier : List FieldName) (path : FieldName) : Prop :=
  ∀ other, Compared earlier path other → (compareDottedFieldNames true path other).isSome

/-- A path is there already, or conflicts with the one path that it is compared with. -/
def Sees (earlier : List FieldName) (path : FieldName) : Prop :=
  path ∈ earlier ∨
    ∃ other, Compared earlier path other ∧ path.Related other ∧ Ends earlier path

variable (newMatcher : Value → Option Nat)

/-- A path of the field is seen, and what is checked in front of it holds. -/
def SeenAt (earlier : List FieldName) (op : ModOp) (field : List UInt8 × Value) : Prop :=
  checkName op (.ofBytes field.1) = .ok () ∧
    (Sees earlier (.ofBytes field.1) ∨
      Ends earlier (.ofBytes field.1) ∧ checkValue op field.2 = .ok () ∧ op = .renameTo ∧
        ∃ target, checkRename (.ofBytes field.1) field.2 = .ok target ∧ Sees earlier target)

/-- All is well with a field but for conflicts. -/
def Passes (earlier : List FieldName) (op : ModOp) (field : List UInt8 × Value) : Prop :=
  checkName op (.ofBytes field.1) = .ok () ∧ Ends earlier (.ofBytes field.1) ∧
    checkValue op field.2 = .ok () ∧
    if op = .renameTo then
      ∃ target, checkRename (.ofBytes field.1) field.2 = .ok target ∧ Ends earlier target ∧
        checkRenamed (.ofBytes field.1) target = .ok ()
    else ∃ m, Mod.init newMatcher op field.2 = .ok m

/-- A path is seen behind fields with which all is well. -/
def SeenBehind (earlier : List FieldName) : List Item → Prop
  | [] | .error _ :: _ => False
  | .ok (op, field) :: rest => SeenAt earlier op field ∨
      Passes newMatcher earlier op field ∧ SeenBehind (earlier ++ fieldPaths op field) rest

/-- One of the paths of the update is seen. -/
def Seen (update : Fields) : Prop := SeenBehind newMatcher [] (items update)

/-! ### Which errors are raised -/

theorem raises_bind {α β : Type} {x : Except ModFailure α} {f : α → Except ModFailure β} :
    Raises (x >>= f) ↔ Raises x ∨ ∃ a, x = .ok a ∧ Raises (f a) := by
  cases x with
  | ok a => simp [Raises, bind, Except.bind]
  | error e => simp [Raises, bind, Except.bind]

/-- The same behind a check. -/
theorem raises_check_bind {β : Type} {x : Except ModFailure Unit} {f : Unit → Except ModFailure β} :
    Raises (x >>= f) ↔ Raises x ∨ x = .ok () ∧ Raises (f ()) := by
  rw [raises_bind]
  exact or_congr_right ⟨fun ⟨_, h⟩ => h, fun h => ⟨_, h⟩⟩

@[simp] theorem not_raises_pure {α : Type} (a : α) : ¬ Raises (pure a : Except ModFailure α) :=
  fun ⟨_, same, _⟩ => nomatch same

@[simp] theorem not_raises_ok {α : Type} (a : α) : ¬ Raises (.ok a : Except ModFailure α) :=
  fun ⟨_, same, _⟩ => nomatch same

@[simp] theorem raises_error {α : Type} (e : ModFailure) :
    Raises (.error e : Except ModFailure α) ↔ e.IsConflict := by
  simp [Raises]

@[simp] theorem raises_throw {α : Type} (e : ModFailure) :
    Raises (throw e : Except ModFailure α) ↔ e.IsConflict :=
  raises_error e

@[simp] theorem raises_ensure {c : Prop} [Decidable c] {e : ModFailure} :
    Raises (ensure c e) ↔ ¬ c ∧ e.IsConflict := by
  unfold ensure
  split_ifs with h
  · simp [h]
  · simp [h]

/-- Checks that do not raise them do not do so one behind the other. -/
theorem not_raises_bind {α β : Type} {x : Except ModFailure α} {f : α → Except ModFailure β}
    (first : ¬ Raises x) (rest : ∀ a, ¬ Raises (f a)) : ¬ Raises (x >>= f) := fun raised => by
  rcases raises_bind.mp raised with here | ⟨a, -, there⟩
  · exact first here
  · exact rest a there

theorem not_raises_forM {α : Type} {f : α → Except ModFailure PUnit} (each : ∀ a, ¬ Raises (f a))
    (l : List α) : ¬ Raises (l.forM f) := by
  induction l with
  | nil => exact not_raises_pure _
  | cons a l ih => exact not_raises_bind (each a) fun _ => ih

theorem not_raises_uassert {code : Nat} {text : String} {c : Prop} [Decidable c]
    (other : code ∉ [10150, 10151, 13484, 13485]) : ¬ Raises (uassert code text c) :=
  fun raised => other (of_decide_eq_true (raises_ensure.mp raised).2)

theorem not_raises_checkName (op : ModOp) (name : FieldName) : ¬ Raises (checkName op name) :=
  not_raises_bind (not_raises_uassert (by decide)) fun _ =>
    not_raises_bind (not_raises_uassert (by decide)) fun _ => not_raises_uassert (by decide)

theorem not_raises_checkSortField (field : List UInt8 × Value) : ¬ Raises (checkSortField field) :=
  not_raises_bind (not_raises_uassert (by decide)) fun _ =>
    not_raises_bind (not_raises_uassert (by decide)) fun _ =>
      not_raises_forM (fun _ => not_raises_uassert (by decide)) _

theorem not_raises_checkSort (each value : Value) : ¬ Raises (checkSort each value) :=
  not_raises_bind (not_raises_uassert (by decide)) fun _ =>
    not_raises_bind (not_raises_forM not_raises_checkSortField _) fun _ =>
      not_raises_forM (fun _ => not_raises_uassert (by decide)) _

theorem not_raises_checkSlice (value : Value) : ¬ Raises (checkSlice value) :=
  not_raises_bind (not_raises_uassert (by decide)) fun _ => not_raises_uassert (by decide)

theorem not_raises_checkComplements (each : Value) (seenSlice seenSort : Bool)
    (fields : List (List UInt8 × Value)) :
    ¬ Raises (checkComplements each seenSlice seenSort fields) := by
  induction fields generalizing seenSlice seenSort with
  | nil => exact not_raises_uassert (by decide)
  | cons field rest ih =>
    obtain ⟨name, value⟩ := field
    rw [checkComplements]
    split_ifs with slice sort
    · exact not_raises_bind (not_raises_uassert (by decide)) fun _ =>
        not_raises_bind (not_raises_checkSlice value) fun _ => ih _ _
    · exact not_raises_bind (not_raises_uassert (by decide)) fun _ =>
        not_raises_bind (not_raises_checkSort each value) fun _ => ih _ _
    · simp [ModFailure.IsConflict]

theorem not_raises_checkPush (fields : Fields) : ¬ Raises (checkPush fields) := by
  rw [checkPush]
  split
  · split
    · refine not_raises_bind (not_raises_uassert (by decide)) fun _ =>
        not_raises_bind (not_raises_uassert (by decide)) fun _ => ?_
      split
      · exact not_raises_checkComplements _ _ _ _
      · exact not_raises_pure _
    · exact not_raises_pure _
  · exact not_raises_pure _

theorem not_raises_checkValue (op : ModOp) (value : Value) : ¬ Raises (checkValue op value) := by
  refine not_raises_bind (not_raises_uassert (by decide)) fun _ =>
    not_raises_bind (not_raises_uassert (by decide)) fun _ => ?_
  split
  · exact not_raises_checkPush _
  · exact not_raises_pure _

theorem not_raises_checkRename (name : FieldName) (value : Value) :
    ¬ Raises (checkRename name value) := by
  rw [checkRename]
  split
  · simp [ModFailure.IsConflict]
  · iterate 7 refine not_raises_bind (not_raises_uassert (by decide)) fun _ => ?_
    exact not_raises_pure _

theorem not_raises_checkRenamed (name target : FieldName) : ¬ Raises (checkRenamed name target) :=
  not_raises_bind (not_raises_uassert (by decide)) fun _ =>
    not_raises_bind (not_raises_uassert (by decide)) fun _ => not_raises_uassert (by decide)

theorem not_raises_init (op : ModOp) (value : Value) : ¬ Raises (Mod.init newMatcher op value) := by
  rw [Mod.init]
  split
  · simp [ModFailure.IsConflict]
  · exact not_raises_pure _

theorem not_raises_opFromStr (fn : FieldName) : ¬ Raises (opFromStr fn) := by
  refine not_raises_bind (by simp [ModFailure.IsConflict]) fun _ => ?_
  split
  · exact not_raises_pure _
  · split
    · exact not_raises_pure _
    · simp [ModFailure.IsConflict]

/-! ### One field -/

/-- The map holds the paths, none of which ends in a dot. -/
structure Holds (mods : Mods) (earlier : List FieldName) : Prop where
  mem_iff : ∀ path, (∃ m, (path, m) ∈ mods.entries) ↔ path ∈ earlier
  tidy : ∀ path ∈ earlier, ¬ path.EndsInDot

variable {newMatcher} {mods : Mods} {earlier : List FieldName} {path : FieldName}

section

variable (holds : Holds mods earlier)
include holds

theorem Holds.set (m : Mod) (tidy : ¬ path.EndsInDot) :
    Holds (mods.set path m) (earlier ++ [path]) where
  mem_iff other := by
    rw [List.mem_append, List.mem_singleton, ← holds.mem_iff]
    simp only [OrderedMap.mem_set, Prod.mk.injEq]
    by_cases same : other = path
    · simp [same]
    · simp [same]
  tidy other mem := by
    rcases List.mem_append.mp mem with mem | mem
    · exact holds.tidy other mem
    · exact List.mem_singleton.mp mem ▸ tidy

theorem haveModForField_iff : haveModForField mods path ↔ path ∈ earlier := by
  rw [haveModForField, Option.isSome_iff_exists, ← holds.mem_iff]
  simp only [OrderedMap.find?_eq_some]

theorem lowerBound_eq_some {other : FieldName} :
    lowerBound mods path.root = some other ↔ Compared earlier path other := by
  rw [lowerBound, OrderedMap.head?_fromKey, Compared]
  simp only [holds.mem_iff]

/-- The three ways in which looking for a conflict goes. -/
theorem haveConflictingMod_spec (tidy : ¬ path.EndsInDot) :
    (¬ Ends earlier path ∧ haveConflictingMod mods path = .error .verifyFailed) ∨
    Ends earlier path ∧ ∃ found, haveConflictingMod mods path = .ok found ∧
      (found = true ↔ ∃ other, Compared earlier path other ∧ path.Related other) := by
  cases start : lowerBound mods path.root with
  | none =>
    have none : ∀ other, ¬ Compared earlier path other := fun other compared => by
      rw [(lowerBound_eq_some holds).mpr compared] at start
      cases start
    refine .inr ⟨fun other compared => absurd compared (none other), false, ?_, ?_⟩
    · rw [haveConflictingMod, start]
      rfl
    · simp [none]
  | some other =>
    have compared := (lowerBound_eq_some holds).mp start
    cases result : compareDottedFieldNames true path other with
    | none =>
      refine .inl ⟨fun ends => ?_, ?_⟩
      · simpa [result] using ends other compared
      · rw [haveConflictingMod, start]
        simp only [result]
        rfl
    | some r =>
      refine .inr ⟨fun other' compared' => ?_, r.conflicts, ?_, ?_⟩
      · rw [compared'.unique compared, result]
        rfl
      · rw [haveConflictingMod, start]
        simp only [result]
        rfl
      · rw [conflicts_iff tidy (holds.tidy other compared.1.1) result]
        refine ⟨fun related => ⟨other, compared, related⟩, ?_⟩
        rintro ⟨other', compared', related⟩
        rwa [compared'.unique compared] at related

end

section CheckConflict

variable {duplicate conflict : ModFailure}

theorem checkConflict_eq_ok (holds : Holds mods earlier) (tidy : ¬ path.EndsInDot) :
    checkConflict mods path duplicate conflict = .ok () ↔
      ¬ Sees earlier path ∧ Ends earlier path := by
  rw [checkConflict, ensure_bind_eq_ok, haveModForField_iff holds, except_bind_eq_ok, Sees]
  rcases haveConflictingMod_spec holds tidy with ⟨fails, error⟩ | ⟨ends, found, result, found_iff⟩
  · simp [error, fails]
  · have notFound : found = false ↔
        ∀ other, Compared earlier path other → ¬ path.Related other := by
      rw [← Bool.not_eq_true, found_iff]
      simp
    simp [result, ends, notFound]

theorem raises_checkConflict (holds : Holds mods earlier) (tidy : ¬ path.EndsInDot)
    (duplicate_conflict : duplicate.IsConflict) (conflict_conflict : conflict.IsConflict) :
    Raises (checkConflict mods path duplicate conflict) ↔ Sees earlier path := by
  by_cases known : path ∈ earlier
  · refine iff_of_true ?_ (.inl known)
    rw [checkConflict, ensure_bind_of_not (not_not.mpr ((haveModForField_iff holds).mpr known))]
    exact (raises_error _).mpr duplicate_conflict
  · rw [checkConflict, ensure_bind_of (mt (haveModForField_iff holds).mp known), raises_bind, Sees,
      or_iff_right known]
    rcases haveConflictingMod_spec holds tidy with ⟨fails, error⟩ | ⟨ends, found, result, found_iff⟩
    · simp [error, fails, ModFailure.IsConflict]
    · simp [result, ends, found_iff, conflict_conflict]

end CheckConflict

theorem tidy_of_checkName {op : ModOp} (checked : checkName op path = .ok ()) :
    ¬ path.EndsInDot := by
  simp only [checkName, uassert, ensure_bind_eq_ok, ensure_eq_ok] at checked
  exact checked.2.2

theorem checkRename_spec {name target : FieldName} {value : Value}
    (checked : checkRename name value = .ok target) :
    renameTarget value = some target ∧ ¬ target.EndsInDot := by
  cases given : renameTarget value with
  | none =>
    rw [checkRename, given] at checked
    cases checked
  | some other =>
    rw [checkRename, given] at checked
    simp only [uassert, ensure_bind_eq_ok] at checked
    obtain ⟨-, -, -, -, tidy, -, -, same⟩ := checked
    cases same
    exact ⟨rfl, tidy.2⟩

theorem raises_addRename (holds : Holds mods earlier) {name : FieldName} {value : Value} :
    Raises (addRename mods name value) ↔
      ∃ target, checkRename name value = .ok target ∧ Sees earlier target := by
  rw [addRename, raises_bind, or_iff_right (not_raises_checkRename _ _)]
  refine exists_congr fun target => and_congr_right fun renamed => ?_
  have tidy := (checkRename_spec renamed).2
  rw [raises_check_bind, raises_checkConflict holds tidy (by decide) (by decide), or_iff_left]
  exact fun behind => not_raises_bind (not_raises_checkRenamed _ _) (fun _ => not_raises_pure _)
    behind.2

variable {op : ModOp} {field : List UInt8 × Value}

theorem raises_addField (holds : Holds mods earlier) :
    Raises (addField newMatcher op mods field) ↔ SeenAt earlier op field := by
  rw [addField, raises_check_bind, or_iff_right (not_raises_checkName _ _), SeenAt]
  refine and_congr_right fun named => ?_
  have tidy := tidy_of_checkName named
  rw [raises_check_bind, raises_checkConflict holds tidy (by decide) (by decide),
    checkConflict_eq_ok holds tidy, raises_check_bind, or_iff_right (not_raises_checkValue _ _)]
  have branch : Raises (if op = .renameTo then addRename mods (.ofBytes field.1) field.2
      else do
        let m ← Mod.init newMatcher op field.2
        pure (mods.set (.ofBytes field.1) m)) ↔ op = .renameTo ∧
      ∃ target, checkRename (.ofBytes field.1) field.2 = .ok target ∧ Sees earlier target := by
    split_ifs with rename
    · rw [raises_addRename holds]
      simp [rename]
    · refine iff_of_false ?_ fun h => rename h.1
      exact not_raises_bind (not_raises_init newMatcher _ _) fun _ => not_raises_pure _
  rw [branch]
  tauto

/-- A field that is added is in order, and its paths are there afterwards. -/
theorem addField_spec (holds : Holds mods earlier) {mods' : Mods}
    (added : addField newMatcher op mods field = .ok mods') :
    Passes newMatcher earlier op field ∧ Holds mods' (earlier ++ fieldPaths op field) := by
  rw [addField, except_bind_eq_ok] at added
  obtain ⟨⟨⟩, named, added⟩ := added
  have tidy := tidy_of_checkName named
  obtain ⟨⟨⟩, first, added⟩ := except_bind_eq_ok.mp added
  obtain ⟨⟨⟩, valued, added⟩ := except_bind_eq_ok.mp added
  have ends := ((checkConflict_eq_ok holds tidy).mp first).2
  by_cases rename : op = .renameTo
  · rw [if_pos rename, addRename, except_bind_eq_ok] at added
    obtain ⟨target, renamed, added⟩ := added
    obtain ⟨⟨⟩, second, added⟩ := except_bind_eq_ok.mp added
    obtain ⟨⟨⟩, behind, same⟩ := except_bind_eq_ok.mp added
    obtain ⟨given, tidy'⟩ := checkRename_spec renamed
    cases same
    refine ⟨⟨named, ends, valued, ?_⟩, ?_⟩
    · rw [if_pos rename]
      exact ⟨target, renamed, ((checkConflict_eq_ok holds tidy').mp second).2, behind⟩
    · have paths : earlier ++ fieldPaths op field = earlier ++ [.ofBytes field.1] ++ [target] := by
        simp [fieldPaths, rename, given]
      rw [paths]
      exact (holds.set _ tidy).set _ tidy'
  · rw [if_neg rename, except_bind_eq_ok] at added
    obtain ⟨m, made, same⟩ := added
    cases same
    refine ⟨⟨named, ends, valued, ?_⟩, ?_⟩
    · rw [if_neg rename]
      exact ⟨m, made⟩
    · rw [fieldPaths, if_neg rename]
      exact holds.set m tidy

/-- Conversely, a field that is in order is added unless a path is seen. -/
theorem addField_of_passes (holds : Holds mods earlier)
    (passes : Passes newMatcher earlier op field)
    (unseen : ¬ SeenAt earlier op field) :
    ∃ mods', addField newMatcher op mods field = .ok mods' := by
  obtain ⟨named, ends, valued, rest⟩ := passes
  have tidy := tidy_of_checkName named
  simp only [SeenAt, named, ends, valued, true_and, not_or] at unseen
  have last : ∃ mods', (if op = .renameTo then addRename mods (.ofBytes field.1) field.2
      else do
        let m ← Mod.init newMatcher op field.2
        pure (mods.set (.ofBytes field.1) m)) = .ok mods' := by
    split_ifs at rest ⊢ with rename
    · obtain ⟨target, renamed, ends', behind⟩ := rest
      have unseen' : ¬ Sees earlier target := fun sees => unseen.2 ⟨rename, target, renamed, sees⟩
      have tidy' := (checkRename_spec renamed).2
      exact ⟨_, except_bind_eq_ok.mpr ⟨target, renamed, except_bind_eq_ok.mpr ⟨(),
        (checkConflict_eq_ok holds tidy').mpr ⟨unseen', ends'⟩,
        except_bind_eq_ok.mpr ⟨(), behind, rfl⟩⟩⟩⟩
    · obtain ⟨m, made⟩ := rest
      exact ⟨_, except_bind_eq_ok.mpr ⟨m, made, rfl⟩⟩
  obtain ⟨mods', last⟩ := last
  exact ⟨mods', except_bind_eq_ok.mpr ⟨(), named, except_bind_eq_ok.mpr ⟨(),
    (checkConflict_eq_ok holds tidy).mpr ⟨unseen.1, ends⟩,
    except_bind_eq_ok.mpr ⟨(), valued, last⟩⟩⟩⟩

/-! ### All fields -/

def addItem (newMatcher : Value → Option Nat) (mods : Mods) : Item → Except ModFailure Mods
  | .ok (op, field) => addField newMatcher op mods field
  | .error failure => .error failure

theorem addModifier_eq (e : List UInt8 × Value) :
    addModifier newMatcher mods e = (modifierItems e).foldlM (addItem newMatcher) mods := by
  rw [addModifier, modifierItems]
  split
  · cases opFromStr (.ofBytes e.1) with
    | ok op =>
      rw [List.foldlM_map]
      rfl
    | error failure => rfl
  · rfl

theorem modSet_eq (update : Fields) :
    ModSet newMatcher update = (items update).foldlM (addItem newMatcher) .empty := by
  rw [ModSet, items]
  generalize (OrderedMap.empty : Mods) = mods
  induction update.pairs generalizing mods with
  | nil => rfl
  | cons e rest ih =>
    rw [List.foldlM_cons, List.flatMap_cons, List.foldlM_append, addModifier_eq]
    exact bind_congr fun mods' => ih mods'

theorem not_raises_of_error {e : List UInt8 × Value} {failure : ModFailure}
    (mem : .error failure ∈ modifierItems e) : ¬ failure.IsConflict := by
  rw [modifierItems] at mem
  split at mem
  · cases named : opFromStr (.ofBytes e.1) with
    | ok op => simp [named] at mem
    | error other =>
      rw [named] at mem
      obtain rfl : failure = other := by simpa using mem
      exact fun conflict => not_raises_opFromStr _ ⟨_, named, conflict⟩
  · obtain rfl := Except.error.inj (List.mem_singleton.mp mem)
    simp [ModFailure.IsConflict]

/-- The run raises an error for a conflict exactly if a path is seen. -/
theorem raises_foldlM {l : List Item} (holds : Holds mods earlier)
    (others : ∀ failure, .error failure ∈ l → ¬ failure.IsConflict) :
    Raises (l.foldlM (addItem newMatcher) mods) ↔ SeenBehind newMatcher earlier l := by
  induction l generalizing mods earlier with
  | nil => exact iff_of_false (not_raises_pure _) id
  | cons item rest ih =>
    rw [List.foldlM_cons, raises_bind]
    cases item with
    | error failure =>
      refine iff_of_false ?_ id
      simp [addItem, others failure (.head _)]
    | ok item =>
      obtain ⟨op, field⟩ := item
      have ih : ∀ {mods'}, addField newMatcher op mods field = .ok mods' →
          (Raises (rest.foldlM (addItem newMatcher) mods') ↔
            SeenBehind newMatcher (earlier ++ fieldPaths op field) rest) := fun added =>
        ih (addField_spec holds added).2 fun failure mem => others failure (.tail _ mem)
      rw [addItem, raises_addField holds, SeenBehind]
      refine or_congr_right' fun unseen => ?_
      constructor
      · rintro ⟨mods', added, raised⟩
        exact ⟨(addField_spec holds added).1, (ih added).mp raised⟩
      · rintro ⟨passes, seen⟩
        obtain ⟨mods', added⟩ := addField_of_passes holds passes unseen
        exact ⟨mods', added, (ih added).mpr seen⟩

theorem raises_iff (update : Fields) :
    Raises (ModSet newMatcher update) ↔ Seen newMatcher update := by
  rw [modSet_eq]
  refine raises_foldlM ⟨by simp, nofun⟩ fun failure mem => ?_
  obtain ⟨e, -, mem⟩ := List.mem_flatMap.mp mem
  exact not_raises_of_error mem

/-! ### No error without a conflict -/

theorem exists_related_of_sees {earlier : List FieldName} (sees : Sees earlier path) :
    ∃ other ∈ earlier, other.Related path := by
  rcases sees with mem | ⟨other, compared, related, -⟩
  · exact ⟨path, mem, .inl rfl⟩
  · exact ⟨other, compared.1.1, related.symm⟩

theorem exists_related_of_seenAt (seen : SeenAt earlier op field) :
    ∃ path ∈ fieldPaths op field, ∃ other ∈ earlier, other.Related path := by
  obtain ⟨-, sees | ⟨-, -, rename, target, renamed, sees⟩⟩ := seen
  · exact ⟨_, .head _, exists_related_of_sees sees⟩
  · refine ⟨target, ?_, exists_related_of_sees sees⟩
    simp [fieldPaths, rename, (checkRename_spec renamed).1]

theorem conflict_of_seenBehind {l : List Item} (seen : SeenBehind newMatcher earlier l) :
    ¬ (earlier ++ l.flatMap itemPaths).Pairwise fun a b => ¬ a.Related b := by
  induction l generalizing earlier with
  | nil => exact seen.elim
  | cons item rest ih =>
    cases item with
    | error failure => exact seen.elim
    | ok item =>
      obtain ⟨op, field⟩ := item
      rcases seen with here | ⟨-, behind⟩
      · obtain ⟨path, mem, other, mem', related⟩ := exists_related_of_seenAt here
        intro apart
        exact (List.pairwise_append.mp apart).2.2 other mem' path
          (List.mem_append_left _ mem) related
      · have later := ih behind
        rwa [List.append_assoc] at later

theorem conflict_of_seen {update : Fields} (seen : Seen newMatcher update) : Conflict update :=
  conflict_of_seenBehind seen

/-- The constructor raises an error for a conflict just when there is one, exactly if a path is seen
whenever there is a conflict. -/
theorem raises_iff_conflict_iff (newMatcher : Value → Option Nat) (update : Fields) :
    (Raises (ModSet newMatcher update) ↔ Conflict update) ↔
      (Conflict update → Seen newMatcher update) := by
  rw [raises_iff]
  exact ⟨fun same => same.mpr, fun found => ⟨conflict_of_seen, found⟩⟩

/-- A modifier with fields, as an update. -/
def modifier (op : String) (fields : List (String × Value)) : Fields :=
  .cons (ascii op) (.object (fields.foldr (fun f rest => .cons (ascii f.1) f.2 rest) .nil)) .nil

/-- In front of `a.c` stands `a.b`, which is no conflict for `a.c.d`; in another order it is found.
The target of a `$rename` may lie below its source. -/
theorem modSet_overlooks :
    (Conflict (modifier "$set" [("a.b", .null), ("a.c", .null), ("a.c.d", .null)]) ∧
      ¬ Raises (ModSet (fun _ => none)
        (modifier "$set" [("a.b", .null), ("a.c", .null), ("a.c.d", .null)])) ∧
      Raises (ModSet (fun _ => none)
        (modifier "$set" [("a.c", .null), ("a.c.d", .null), ("a.b", .null)]))) ∧
    Conflict (modifier "$rename" [("a", .string (ascii "a.b"))]) ∧
      ¬ Raises (ModSet (fun _ => none) (modifier "$rename" [("a", .string (ascii "a.b"))])) := by
  decide +kernel

end TokuMX.Update
