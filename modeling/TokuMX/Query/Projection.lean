import TokuMX.Collection.IndexWrites
import TokuMX.Collection.KeyValues

/-!
Projections (`db/projection.cpp`).

`Projection::init` reads what fields a query asks for, and `transform` leaves only those of
a document. Where a key of an index and the primary key have all fields asked for,
`checkKey` says how to take them from there, and `KeyOnly::hydrate` does that without the
document.

The two agree only for some documents: `hydrate_iff` says for which. A key has null for a
field the document does not have, and an entry for an array of one entry, and nothing in
the key tells. For field names that are all different, `checkKey_covers` finds all fields
that are asked for in the key or the primary key.

A field name is kept split at its dots. The matcher of `$elemMatch` is a parameter: the key
of the array entry it finds in a document, if the document matches.
-/

namespace TokuMX.Query

open TokuMX.Lib TokuMX.BSON TokuMX.Collection TokuMX.Collection.Indexed

/-! ### Fields that are asked for -/

mutual

/-- A `Projection`, as far as it is there at every level: `_include`, `_special`, `_skip`,
`_limit` and `_fields`. -/
inductive Level where
  | mk (includes special : Bool) (skip limit : Int) (fields : FieldMap)

inductive FieldMap where
  | nil
  | cons (name : List UInt8) (level : Level) (rest : FieldMap)

end

/-- The level as constructed. -/
def Level.new : Level := .mk true false 0 (-1) .nil

def Level.includes : Level → Bool
  | .mk includes _ _ _ _ => includes

def Level.special : Level → Bool
  | .mk _ special _ _ _ => special

def Level.skip : Level → Int
  | .mk _ _ skip _ _ => skip

def Level.limit : Level → Int
  | .mk _ _ _ limit _ => limit

def Level.fields : Level → FieldMap
  | .mk _ _ _ _ fields => fields

def FieldMap.find (name : List UInt8) : FieldMap → Option Level
  | .nil => none
  | .cons n level rest => if n = name then some level else rest.find name

def FieldMap.isEmpty : FieldMap → Bool
  | .nil => true
  | .cons _ _ _ => false

/-- Changes the level of a name, which is made if there is none. -/
def FieldMap.modify (name : List UInt8) (f : Level → Level) : FieldMap → FieldMap
  | .nil => .cons name (f .new) .nil
  | .cons n level rest =>
    if n = name then .cons n (f level) rest else .cons n level (rest.modify name f)

/-- `Projection::add(field, include)`. -/
def Level.add («include» : Bool) : Path → Level → Level
  | [], .mk _ special skip limit fields => .mk «include» special skip limit fields
  | c :: rest, .mk _ special skip limit fields =>
    if Path.done (c :: rest) then .mk «include» special skip limit fields
    else .mk (!«include») special skip limit (fields.modify c (add «include» rest))

/-- `Projection::add(field, skip, limit)`. -/
def Level.addSlice (skip limit : Int) : Path → Level → Level
  | [], .mk includes _ _ _ fields => .mk includes true skip limit fields
  | c :: rest, .mk includes _ skip' limit' fields =>
    if Path.done (c :: rest) then .mk includes true skip limit fields
    else .mk includes true skip' limit' (fields.modify c (addSlice skip limit rest))

inductive ArrayOpType where
  | normal
  | elemMatch
  | positional
deriving DecidableEq

/-- Why there is no projection, or none of a document. -/
inductive ProjectionError where
  | sliceArraySize
  | sliceLimit
  | sliceArgument
  | elemMatchArgument
  | elemMatchWithPositional
  | elemMatchNested
  | unsupported (option : List UInt8)
  | mixed
  | positionalExcludes
  | positionalTwice
  | positionalWithElemMatch
  | positionalWithoutKey (field : List UInt8)
  | positionalMismatch
  | matcherWithoutElemMatch
  | elemMatchWithoutField
  | elemMatchNotObject
  | elemMatchWithoutEntry
deriving DecidableEq

/-- The number of the assertion. -/
def ProjectionError.code : ProjectionError → Nat
  | sliceArraySize => 13099
  | sliceLimit => 13100
  | sliceArgument => 13098
  | elemMatchArgument => 16342
  | elemMatchWithPositional => 16343
  | elemMatchNested => 16344
  | unsupported _ => 13097
  | mixed => 10053
  | positionalExcludes => 16345
  | positionalTwice => 16346
  | positionalWithElemMatch => 16347
  | positionalWithoutKey _ => 16352
  | positionalMismatch => 16353
  | matcherWithoutElemMatch => 16348
  | elemMatchWithoutField => 16349
  | elemMatchNotObject => 10065
  | elemMatchWithoutEntry => 16351

structure Projection where
  source : List (Path × Value)
  top : Level
  includeID : Bool
  matchers : List (List UInt8 × Value)
  arrayOpType : ArrayOpType
  hasNonSimple : Bool

/-- The projection as constructed, with the spec it will read. -/
def Projection.new (spec : List (Path × Value)) : Projection :=
  ⟨spec, .new, true, [], .normal, false⟩

/-- `BSONElement::trueValue`. -/
def trueValue : Value → Bool
  | .numberLong n => n ≠ 0
  | .numberDouble d => Binary64.magnitude d ≠ 0
  | .numberInt n => n ≠ 0
  | .bool b => b
  | .null | .undefined => false
  | _ => true

/-- The bytes of `$slice`. -/
def sliceName : List UInt8 := [36, 115, 108, 105, 99, 101]

/-- The bytes of `$elemMatch`. -/
def elemMatchName : List UInt8 := [36, 101, 108, 101, 109, 77, 97, 116, 99, 104]

/-- What `$slice` asks for: what to skip, and how many to take. -/
def sliceOf (argument : Value) : Except ProjectionError (Int × Int) :=
  if argument.isNumber then
    let i := (numberInt argument).toInt
    .ok (if i < 0 then (i, -i) else (0, i))
  else
    match argument with
    | .array arr =>
      match arr.values with
      | [skip, limit] =>
        if 0 < (numberInt limit).toInt then .ok ((numberInt skip).toInt, (numberInt limit).toInt)
        else .error .sliceLimit
      | _ => .error .sliceArraySize
    | _ => .error .sliceArgument

/-- A field of the spec that is an object. -/
def Projection.addOperator (p : Projection) (field : Path) (value : Value) (obj : Fields) :
    Except ProjectionError Projection :=
  match obj with
  | .nil => .error (.unsupported [])
  | .cons name argument _ =>
    if name = sliceName then do
      let (skip, limit) ← sliceOf argument
      .ok { p with top := p.top.addSlice skip limit field }
    else if name = elemMatchName then
      match argument with
      | .object _ =>
        if p.arrayOpType = .positional then .error .elemMatchWithPositional
        else if field.length ≠ 1 then .error .elemMatchNested
        else .ok { p with
          arrayOpType := .elemMatch
          matchers := p.matchers ++ [(field.headD [], value)]
          top := p.top.add true field }
      | _ => .error .elemMatchArgument
    else .error (.unsupported name)

/-- The field name contains `.$`. -/
def isPositional (field : Path) : Bool := field.tail.any (·.head? = some 36)

/-- The check for a positional operator at the end of the loop of `init`. -/
def Projection.checkPositional (p : Projection) (field : Path) (value : Value) :
    Except ProjectionError Projection :=
  if isPositional field then
    if !trueValue value then .error .positionalExcludes
    else
      match p.arrayOpType with
      | .positional => .error .positionalTwice
      | .elemMatch => .error .positionalWithElemMatch
      | .normal => .ok { p with arrayOpType := .positional }
  else .ok p

/-- The element of the spec before the positional check, with `true_false`. -/
def Projection.addElement (p : Projection) (trueFalse : Option Bool) (field : Path)
    (value : Value) : Except ProjectionError (Projection × Option Bool) :=
  match value with
  | .object obj => do
    let p ← p.addOperator field value obj
    .ok (p, trueFalse)
  | _ =>
    if field = [idName] ∧ trueValue value = false then
      .ok ({ p with includeID := false }, trueFalse)
    else
      let top := p.top.add (trueValue value) field
      match trueFalse with
      | none =>
        .ok ({ p with
          top := .mk (!trueValue value) top.special top.skip top.limit top.fields },
          some (trueValue value))
      | some b => if b = trueValue value then .ok ({ p with top }, trueFalse) else .error .mixed

/-- The loop of `init`. -/
def Projection.initLoop (p : Projection) (trueFalse : Option Bool) :
    List (Path × Value) → Except ProjectionError Projection
  | [] => .ok p
  | (field, value) :: spec => do
    let p := if value.isNumber then p else { p with hasNonSimple := true }
    let (p, trueFalse) ← p.addElement trueFalse field value
    let p ← p.checkPositional field value
    p.initLoop trueFalse spec

/-- `Projection::init`. -/
def Projection.init (spec : List (Path × Value)) : Except ProjectionError Projection :=
  (Projection.new spec).initLoop none spec

/-! ### Transforming a document -/

/-- `MatchDetails`, as far as a projection reads it. -/
structure MatchDetails where
  elemMatchKey : Option (List UInt8)

/-- `BSONObjBuilder::numStr`. -/
def numStr (i : Nat) : List UInt8 := (Nat.toDigits 10 i).map fun c => c.toNat.toUInt8

/-- The array a positional operator leaves: the entry that matched. -/
def positionalArray (details : MatchDetails) (name : List UInt8) (array : Fields) :
    Except ProjectionError Fields :=
  match details.elemMatchKey with
  | none => .error (.positionalWithoutKey name)
  | some key =>
    match lookup key 0 array with
    | none => .error .positionalMismatch
    | some (_, v) => .ok (.cons (numStr 0) v .nil)

/-- How many entries of an array to skip. -/
def Level.skipOf (level : Level) (array : Fields) : Int :=
  if level.skip < 0 then max 0 (level.skip + array.values.length) else level.skip

def consSome (name : List UInt8) : Option Value → Fields → Fields
  | some v, rest => .cons name v rest
  | none, rest => rest

mutual

/-- `Projection::append`: the value to append, if any. -/
def Level.append (details : Option MatchDetails) (arrayOpType : ArrayOpType) (level : Level)
    (name : List UInt8) (value : Value) : Except ProjectionError (Option Value) :=
  match level.fields.find name with
  | none => .ok (if level.includes then some value else none)
  | some sub =>
    if sub.fields.isEmpty && !sub.special then .ok (if sub.includes then some value else none)
    else
      match value with
      | .object fields => do
        let fields ← sub.appendFields details arrayOpType fields
        .ok (some (.object fields))
      | .array array =>
        match details, arrayOpType with
        | some details, .positional => do
          let array ← positionalArray details name array
          .ok (some (.array array))
        | _, _ => do
          let array ← sub.appendArray (sub.skipOf array) sub.limit 0 array
          .ok (some (.array array))
      | value => .ok (if sub.includes then some value else none)

/-- The loops over the fields of an object. -/
def Level.appendFields (details : Option MatchDetails) (arrayOpType : ArrayOpType)
    (level : Level) : Fields → Except ProjectionError Fields
  | .nil => .ok .nil
  | .cons name value rest => do
    let value ← level.append details arrayOpType name value
    let rest ← level.appendFields details arrayOpType rest
    .ok (consSome name value rest)

/-- The loop of `Projection::appendArray`. -/
def Level.appendArray (level : Level) (skip limit : Int) (i : Nat) :
    Fields → Except ProjectionError Fields
  | .nil => .ok .nil
  | .cons _ value rest =>
    if skip ≠ 0 then level.appendArray (skip - 1) limit i rest
    else if limit = 0 then .ok .nil
    else
      let limit := if limit = -1 then -1 else limit - 1
      match value with
      | .array array => do
        let array ← level.appendArray 0 (-1) 0 array
        let rest ← level.appendArray 0 limit (i + 1) rest
        .ok (.cons (numStr i) (.array array) rest)
      | .object fields => do
        let fields ← level.appendFields none .normal fields
        let rest ← level.appendArray 0 limit (i + 1) rest
        .ok (.cons (numStr i) (.object fields) rest)
      | value =>
        if level.includes then do
          let rest ← level.appendArray 0 limit (i + 1) rest
          .ok (.cons (numStr i) value rest)
        else level.appendArray 0 limit i rest

end

section Transform

variable (elemMatch : List UInt8 → Value → Fields → Option (List UInt8))

/-- The branch of `transform` for a field with `$elemMatch`. -/
def Projection.appendMatched (p : Projection) (details : Option MatchDetails) (doc : Fields)
    (name : List UInt8) (query : Value) : Except ProjectionError (Option Value) :=
  if p.arrayOpType ≠ .elemMatch then .error .matcherWithoutElemMatch
  else
    match elemMatch name query doc with
    | none => .ok none
    | some key =>
      match p.top.fields.find name, lookup name 0 doc with
      | none, _ => .error .elemMatchWithoutField
      | _, some (_, .array array) | _, some (_, .object array) =>
        match lookup key 0 array with
        | none => .error .elemMatchWithoutEntry
        | some (_, v) =>
          p.top.append details p.arrayOpType name (.array (.cons (numStr 0) v .nil))
      | _, _ => .error .elemMatchNotObject

/-- One round of the loop of `transform`. -/
def Projection.transformElement (p : Projection) (details : Option MatchDetails) (doc : Fields)
    (name : List UInt8) (value : Value) : Except ProjectionError (Option Value) :=
  if name = idName then .ok (if p.includeID then some value else none)
  else
    match p.matchers.lookup name with
    | none => p.top.append details p.arrayOpType name value
    | some query => p.appendMatched elemMatch details doc name query

/-- The loop of `transform`. -/
def Projection.transformFields (p : Projection) (details : Option MatchDetails) (doc : Fields) :
    Fields → Except ProjectionError Fields
  | .nil => .ok .nil
  | .cons name value rest => do
    let value ← p.transformElement elemMatch details doc name value
    let rest ← p.transformFields details doc rest
    .ok (consSome name value rest)

/-- `Projection::transform`. -/
def Projection.transform (p : Projection) (details : Option MatchDetails) (doc : Fields) :
    Except ProjectionError Fields :=
  p.transformFields elemMatch details doc doc

end Transform

/-! ### Taking the fields from a key -/

/-- `Projection::KeyOnly`: for each field of the key the name it gets, if it is taken. -/
structure KeyOnly where
  names : List (Option (List UInt8))
  includeIDFromPK : Bool

/-- What the loop of `checkKey` does with a field of the key; `none` is to give up. -/
def Projection.checkField (p : Projection) (k : Path) : Option (Option (List UInt8)) :=
  if p.source.any (·.1 = k) then
    match k with
    | [name] => some (if !p.includeID && name = idName then none else some name)
    | _ => none
  else some (if p.includeID && k = [idName] then some idName else none)

/-- The fields the key has to have. -/
def Projection.need (p : Projection) : Int :=
  let hasID := p.source.any (·.1 = [idName])
  if p.includeID && !hasID then p.source.length + 1
  else if !p.includeID && hasID then p.source.length - 1
  else p.source.length

/-- `Projection::checkKey`. -/
def Projection.checkKey (p : Projection) (keyPattern pkPattern : List Path) : Option KeyOnly :=
  let pkHasIdField : Bool := pkPattern = [[idName]]
  let idCoveredByKey : Bool := [idName] ∈ keyPattern
  if p.top.includes then none
  else if p.hasNonSimple then none
  else if p.includeID && !idCoveredByKey && !pkHasIdField then none
  else do
    let names ← keyPattern.mapM p.checkField
    let includeIDFromPK := p.includeID && !idCoveredByKey && pkHasIdField
    let got : Int := names.countP Option.isSome + includeIDFromPK.toNat
    if got = p.need then some ⟨names, includeIDFromPK⟩ else none

/-- The loop of `hydrate`, with what is appended behind it. -/
def hydrateLoop (behind : Option Fields) : List (Option (List UInt8)) → List Value → Option Fields
  | _, [] => behind
  | [], _ :: _ => none
  | name :: names, e :: key => do
    let rest ← hydrateLoop behind names key
    some (match name with
      | some name => .cons name e rest
      | none => rest)

/-- The `_id` that is taken from the primary key. -/
def KeyOnly.idFromPK (p : KeyOnly) (pk : List Value) : Option Fields :=
  if p.includeIDFromPK then pk.head?.map fun e => .cons idName e .nil else some .nil

/-- `KeyOnly::hydrate`. It fails where a `verify` does. -/
def KeyOnly.hydrate (p : KeyOnly) (key pk : List Value) : Option Fields :=
  hydrateLoop (p.idFromPK pk) p.names key

/-! ### Projections of whole fields -/

/-- A projection that includes top-level fields, and `_id` or not. -/
def SimpleInclusion (spec : List (Path × Value)) : Prop :=
  ∀ e ∈ spec, e.2.isNumber = true ∧ e.1.length = 1 ∧ (e.1 ≠ [idName] → trueValue e.2 = true)

/-- The field is one that the projection leaves. -/
def Projection.Asks (p : Projection) (name : List UInt8) : Prop :=
  if name = idName then p.includeID = true else name ≠ [] ∧ [name] ∈ p.source.map Prod.fst

instance (p : Projection) (name : List UInt8) : Decidable (p.Asks name) := by
  unfold Projection.Asks
  infer_instance

/-- The projection takes the named fields as a whole. The map may have `_id` or not. -/
structure WholeFields (p : Projection) (names : List Path) : Prop where
  matchers : p.matchers = []
  normal : p.arrayOpType = .normal
  fields : ∀ name ≠ idName, p.top.fields.find name =
    if name ≠ [] ∧ [name] ∈ names then some .new else none

variable {p p' : Projection} {spec : List (Path × Value)} {name : List UInt8} {value : Value}

theorem FieldMap.find_modify (m : FieldMap) (f : Level → Level) (n : List UInt8) :
    (m.modify name f).find n =
      if n = name then some (f ((m.find name).getD .new)) else m.find n := by
  fun_induction m.modify name f with
  | case1 => simp only [find]; grind
  | case2 level rest =>
    simp only [find]
    grind
  | case3 other level rest ne ih =>
    simp only [find, ih]
    grind

variable {trueFalse : Option Bool}

open Projection

/-- What a number in the spec does. -/
theorem addElement_of_number (number : value.isNumber = true) :
    p.addElement trueFalse [name] value =
      if name = idName ∧ trueValue value = false then
        .ok ({ p with includeID := false }, trueFalse)
      else
        let top := p.top.add (trueValue value) [name]
        match trueFalse with
        | none =>
          .ok ({ p with
            top := .mk (!trueValue value) top.special top.skip top.limit top.fields },
            some (trueValue value))
        | some b =>
          if b = trueValue value then .ok ({ p with top }, trueFalse) else .error .mixed := by
  cases value with
  | numberInt n => simp [addElement]
  | numberLong n => simp [addElement]
  | numberDouble d => simp [addElement]
  | _ => cases number

/-- The fields below the top after a whole field is added. -/
theorem find_add (level : Level) (named : name ≠ []) (n : List UInt8) :
    (level.add true [name]).fields.find n =
      if n = name then some ((((level.fields.find name).getD .new)).add true [])
      else level.fields.find n := by
  cases level with
  | mk includes special skip limit fields =>
    have more : Path.done [name] = false := by simpa [Path.done] using named
    simp [Level.add, more, Level.fields, FieldMap.find_modify]

theorem find_add_nil (level : Level) (n : List UInt8) :
    (level.add true [[]]).fields.find n = level.fields.find n := by
  cases level
  rfl

/-- A number in a simple spec does not fail, and adds at most its own field. -/
theorem addElement_simple {names : List Path} (whole : WholeFields p names)
    (first : trueFalse ≠ some false) (number : value.isNumber = true)
    (included : [name] ≠ [idName] → trueValue value = true) :
    ∃ p' trueFalse', p.addElement trueFalse [name] value = .ok (p', trueFalse') ∧
      WholeFields p' (names ++ [[name]]) ∧ trueFalse' ≠ some false ∧ p'.source = p.source := by
  rw [addElement_of_number number]
  split_ifs with excluded
  · refine ⟨_, _, rfl, ⟨whole.matchers, whole.normal, fun n other => ?_⟩, first, rfl⟩
    rw [whole.fields n other]
    simp [excluded.1, other]
  · have included : trueValue value = true := by
      by_contra not
      have false : trueValue value = false := by simpa using not
      have : name ≠ idName := fun same => excluded ⟨same, false⟩
      exact not (included (by simpa using this))
    have fields : ∀ n ≠ idName, (p.top.add true [name]).fields.find n =
        if n ≠ [] ∧ [n] ∈ names ++ [[name]] then some .new else none := by
      intro n other
      by_cases named : name = []
      · subst named
        rw [find_add_nil, whole.fields n other]
        grind
      · rw [find_add _ named]
        split_ifs with same there there
        · have old := whole.fields name (same ▸ other)
          have : (p.top.fields.find name).getD .new = .new := by
            rw [old]
            split_ifs <;> rfl
          rw [this]
          rfl
        · exact absurd ⟨same ▸ named, by simp [same]⟩ there
        · rw [whole.fields n other]
          grind
        · rw [whole.fields n other]
          grind
    cases trueFalse with
    | none =>
      simp only [included]
      exact ⟨_, _, rfl, ⟨whole.matchers, whole.normal, fields⟩, by simp, rfl⟩
    | some b =>
      have b_true : b = true := by simpa using first
      simp only [included, b_true, if_true]
      exact ⟨_, _, rfl, ⟨whole.matchers, whole.normal, fields⟩, by simp, rfl⟩

theorem initLoop_simple {names : List Path} (whole : WholeFields p names)
    (first : trueFalse ≠ some false) (simple : SimpleInclusion spec) :
    ∃ p', p.initLoop trueFalse spec = .ok p' ∧ WholeFields p' (names ++ spec.map Prod.fst) ∧
      p'.source = p.source := by
  induction spec generalizing p trueFalse names with
  | nil => exact ⟨p, rfl, by simpa using whole, rfl⟩
  | cons e spec ih =>
    obtain ⟨field, value⟩ := e
    obtain ⟨number, single, included⟩ := simple _ (.head _)
    obtain ⟨name, rfl⟩ := List.length_eq_one_iff.mp single
    obtain ⟨p₁, next, added, whole₁, first₁, source⟩ :=
      addElement_simple whole first number included
    obtain ⟨p₂, looped, whole₂, source₂⟩ := ih whole₁ first₁ fun e mem => simple e (.tail _ mem)
    refine ⟨p₂, ?_, by simpa using whole₂, source₂.trans source⟩
    simp only [initLoop, show value.isNumber = true from number, if_true, added]
    exact looped

/-- A spec that includes whole fields is always accepted. -/
theorem init_simple (simple : SimpleInclusion spec) :
    ∃ p, init spec = .ok p ∧ WholeFields p (spec.map Prod.fst) ∧ p.source = spec := by
  have start : WholeFields (new spec) [] :=
    ⟨rfl, rfl, fun name _ => by simp [new, Level.new, Level.fields, FieldMap.find]⟩
  exact initLoop_simple start (by simp) simple

variable {elemMatch : List UInt8 → Value → Fields → Option (List UInt8)}
variable {details : Option MatchDetails} {doc fields out : Fields} {v : Value}

theorem asks_idName : p.Asks idName ↔ p.includeID = true := by simp [Projection.Asks]

theorem asks_of_ne (other : name ≠ idName) :
    p.Asks name ↔ name ≠ [] ∧ [name] ∈ p.source.map Prod.fst := by
  simp [Projection.Asks, other]

theorem transformElement_whole (whole : WholeFields p (p.source.map Prod.fst))
    (excludes : p.top.includes = false) :
    p.transformElement elemMatch details doc name value =
      .ok (if p.Asks name then some value else none) := by
  unfold transformElement
  by_cases isID : name = idName
  · subst isID
    simp only [if_true, asks_idName]
  · rw [if_neg isID, whole.matchers, List.lookup_nil]
    simp only [asks_of_ne isID]
    rw [Level.append.eq_def, whole.fields name isID]
    by_cases there : name ≠ [] ∧ [name] ∈ p.source.map Prod.fst
    · rw [if_pos there, if_pos there]
      rfl
    · rw [if_neg there, if_neg there, excludes]
      rfl

variable {n : List UInt8}

theorem mem_pairs_consSome {o : Option Value} :
    (n, v) ∈ (consSome name o fields).pairs ↔ (n = name ∧ o = some v) ∨ (n, v) ∈ fields.pairs := by
  cases o with
  | none => simp [consSome]
  | some u => simp [consSome, Fields.pairs, eq_comm]

/-- Such a projection leaves the fields that are asked for. -/
theorem transform_whole (whole : WholeFields p (p.source.map Prod.fst))
    (excludes : p.top.includes = false)
    (elemMatch : List UInt8 → Value → Fields → Option (List UInt8))
    (details : Option MatchDetails) (doc : Fields) :
    ∃ out, p.transform elemMatch details doc = .ok out ∧
      ∀ n v, (n, v) ∈ out.pairs ↔ p.Asks n ∧ (n, v) ∈ doc.pairs := by
  suffices ∀ fields, ∃ out, p.transformFields elemMatch details doc fields = .ok out ∧
      ∀ n v, (n, v) ∈ out.pairs ↔ p.Asks n ∧ (n, v) ∈ fields.pairs from this doc
  intro fields
  fun_induction Fields.pairs fields with
  | case1 => exact ⟨.nil, rfl, by simp [Fields.pairs]⟩
  | case2 name value rest ih =>
    obtain ⟨out, looped, left⟩ := ih
    refine ⟨consSome name (if p.Asks name then some value else none) out, ?_, fun n v => ?_⟩
    · rw [transformFields, transformElement_whole whole excludes, looped]
      rfl
    · rw [mem_pairs_consSome, left n v, List.mem_cons, Prod.mk.injEq]
      grind

/-! ### Fields from a key -/

variable {k : Path}

theorem any_source : p.source.any (·.1 = k) = true ↔ k ∈ p.source.map Prod.fst := by
  simp

theorem checkField_eq_some {o : Option (List UInt8)} (named : n ≠ [])
    (checked : p.checkField k = some o) : o = some n ↔ k = [n] ∧ p.Asks n := by
  unfold checkField at checked
  by_cases there : k ∈ p.source.map Prod.fst
  · rw [if_pos (any_source.mpr there)] at checked
    split at checked
    · next name =>
        cases checked
        by_cases isID : name = idName
        · subst isID
          by_cases same : n = idName
          · subst same
            simp [asks_idName]
          · simp [Ne.symm same]
        · by_cases same : name = n
          · subst same
            simp [isID, asks_of_ne isID, named, there]
          · simp [isID, same]
    · cases checked
  · rw [if_neg (mt any_source.mp there)] at checked
    cases checked
    by_cases isID : k = [idName]
    · subst isID
      by_cases same : n = idName
      · subst same
        simp [asks_idName]
      · simp [Ne.symm same]
    · simp only [isID, decide_false, Bool.and_false, Bool.false_eq_true, if_false, reduceCtorEq,
        false_iff, not_and]
      rintro rfl asks
      have other : n ≠ idName := fun same => isID (by rw [same])
      exact there ((asks_of_ne other).mp asks).2

theorem checkField_named (checked : p.checkField k = some (some n)) : k = [n] := by
  unfold checkField at checked
  split at checked
  · split at checked
    · simp_all
    · cases checked
  · simp_all

/-- What `checkKey` has found out when it returns a `KeyOnly`. -/
structure Checked (p : Projection) (keyPattern pkPattern : List Path) (ko : KeyOnly) : Prop where
  excludes : p.top.includes = false
  names : List.Forall₂ (fun k o => p.checkField k = some o) keyPattern ko.names
  fromPK : ko.includeIDFromPK = true ↔
    p.includeID = true ∧ [idName] ∉ keyPattern ∧ pkPattern = [[idName]]
  all : (ko.names.countP Option.isSome + ko.includeIDFromPK.toNat : Int) = p.need

variable {keyPattern pkPattern : List Path} {ko : KeyOnly} {key pk : List Value}

theorem checked_of_checkKey (made : p.checkKey keyPattern pkPattern = some ko) :
    Checked p keyPattern pkPattern ko := by
  unfold checkKey at made
  dsimp only at made
  split_ifs at made with includes nonSimple
  obtain ⟨names, checked, made⟩ := Option.bind_eq_some_iff.mp made
  split_ifs at made with all
  cases made
  exact ⟨by simpa using includes, forall₂_of_mapM checked, by simp [and_assoc], all⟩

/-- The fields of a key that get a name, and what comes behind them. -/
theorem hydrateLoop_eq_some (last : Fields) {names : List (Option (List UInt8))}
    (fits : key.length ≤ names.length) :
    ∃ out, hydrateLoop (some last) names key = some out ∧ ∀ n v, (n, v) ∈ out.pairs ↔
      (∃ i : Nat, names[i]? = some (some n) ∧ key[i]? = some v) ∨ (n, v) ∈ last.pairs := by
  induction names generalizing key with
  | nil =>
    cases List.length_eq_zero_iff.mp (Nat.le_zero.mp fits)
    exact ⟨last, by simp [hydrateLoop], by simp⟩
  | cons name names ih =>
    cases key with
    | nil => exact ⟨last, by simp [hydrateLoop], by simp⟩
    | cons e key =>
      obtain ⟨out, looped, left⟩ := ih (Nat.le_of_succ_le_succ fits)
      simp only [hydrateLoop, looped, Option.bind_eq_bind, Option.bind_some]
      refine ⟨_, rfl, fun n v => ?_⟩
      rw [← Nat.or_exists_add_one]
      cases name with
      | none => simp [left]
      | some name => simp [Fields.pairs, left, or_assoc, eq_comm]

/-! ### Keys and documents -/

variable {schema : Schema} {index : IndexSpec}

/-- What the key and the primary key have for the field is what the document has. -/
def Recovered (schema : Schema) (keyPattern : List Path) (doc : Fields) (name : List UInt8) :
    Prop :=
  if [name] ∈ keyPattern then ∃ v, OnlyValue doc name v ∧ isArray v = false
  else if name = idName ∧ schema.pkFields = [[idName]] then
    ∃ v, OnlyValue doc name v ∧ (schema.idPrimaryKey = true ∨ isArray v = false)
  else ∀ v, (name, v) ∉ doc.pairs

/-- The primary key `{_id: 1}` has the `_id` as it is; others have what their key has. -/
theorem primary_iff (isID : schema.pkFields = [[idName]])
    (primary : schema.getValidatedPKFromObject doc = .ok pk) :
    ∃ e, pk.head? = some e ∧ ((∀ u, u = e ↔ (idName, u) ∈ doc.pairs) ↔
      ∃ v, OnlyValue doc idName v ∧ (schema.idPrimaryKey = true ∨ isArray v = false)) := by
  unfold Schema.getValidatedPKFromObject at primary
  split_ifs at primary with whole
  · cases found : idOf doc with
    | none => simp [found] at primary
    | some e =>
      simp only [found, Except.ok.injEq] at primary
      subst primary
      obtain ⟨⟨j, _⟩, first, rfl⟩ := Option.map_eq_some_iff.mp found
      refine ⟨_, rfl, fun same => ⟨_, fun u => (same u).symm, .inl whole⟩, ?_⟩
      rintro ⟨v, only, -⟩ u
      have here := (only _).mp (mem_pairs_of_lookup first)
      rw [only u, ← here]
  · cases keys : getKeys schema.pkFields false doc with
    | error e => simp [keys] at primary
    | ok made =>
      simp only [keys] at primary
      split at primary
      · cases primary
      · next one =>
          cases one
          split_ifs at primary
          cases primary
          have first : schema.pkFields[0]? = some [idName] := by simp [isID]
          obtain ⟨e, here, has⟩ := keyHas_of_mem_getKeys keys (.head _) first
          refine ⟨e, List.head?_eq_getElem?.trans here, ?_⟩
          refine Iff.trans (keyHas_iff_onlyValue ⟨e, rfl⟩ ?_) (by simp [whole])
          rintro _ rfl
          exact has
      · cases primary

/-- What `hydrate` makes of a key. -/
theorem hydrate_eq_some (checked : Checked p index.fieldNames schema.pkFields ko)
    (one : index.getKeysFromObject doc = .ok [key])
    (primary : schema.pkFields = [[idName]] → schema.getValidatedPKFromObject doc = .ok pk) :
    ∃ out, ko.hydrate key pk = some out ∧ ∀ n v, (n, v) ∈ out.pairs ↔ p.Asks n ∧
      ((∃ i : Nat, index.fieldNames[i]? = some [n] ∧ key[i]? = some v) ∨
        (n = idName ∧ [idName] ∉ index.fieldNames ∧ schema.pkFields = [[idName]] ∧
          pk.head? = some v)) := by
  have behind : ∃ last, ko.idFromPK pk = some last ∧ ∀ n v, (n, v) ∈ last.pairs ↔
      p.Asks n ∧ (n = idName ∧ [idName] ∉ index.fieldNames ∧ schema.pkFields = [[idName]] ∧
        pk.head? = some v) := by
    unfold KeyOnly.idFromPK
    by_cases fromPK : ko.includeIDFromPK = true
    · obtain ⟨includeID, notInKey, isID⟩ := checked.fromPK.mp fromPK
      obtain ⟨e, head, -⟩ := primary_iff isID (primary isID)
      refine ⟨_, by rw [if_pos fromPK, head]; rfl, fun n v => ?_⟩
      simp only [Fields.pairs, List.mem_singleton, Prod.mk.injEq, head, notInKey, isID,
        Option.some_inj]
      constructor
      · rintro ⟨rfl, rfl⟩
        exact ⟨asks_idName.mpr includeID, rfl, by simp, trivial, rfl⟩
      · rintro ⟨-, rfl, -, -, rfl⟩
        exact ⟨rfl, rfl⟩
    · refine ⟨.nil, if_neg fromPK, fun n v => ?_⟩
      simp only [Fields.pairs, List.not_mem_nil, false_iff]
      rintro ⟨asks, rfl, notInKey, isID, -⟩
      exact fromPK (checked.fromPK.mpr ⟨asks_idName.mp asks, notInKey, isID⟩)
  obtain ⟨last, eq, inLast⟩ := behind
  have fits : key.length ≤ ko.names.length :=
    (length_of_mem_getKeys one (.head _)).le.trans checked.names.length_eq.le
  obtain ⟨out, looped, left⟩ := hydrateLoop_eq_some last fits
  refine ⟨out, by rw [KeyOnly.hydrate, eq, looped], fun n v => ?_⟩
  rw [left n v, inLast n v, and_or_left, ← exists_and_left]
  refine or_congr_left (exists_congr fun i => ?_)
  constructor
  · rintro ⟨named, here⟩
    obtain ⟨bound, eq⟩ := List.getElem?_eq_some_iff.mp named
    have bound' : i < index.fieldNames.length := checked.names.length_eq ▸ bound
    have field : p.checkField index.fieldNames[i] = some ko.names[i] :=
      checked.names.get bound' bound
    rw [eq] at field
    have at_i : index.fieldNames[i]? = some [n] := by
      rw [List.getElem?_eq_getElem bound', checkField_named field]
    have nonempty := named_of_mem_getKeys one (.head _) at_i
    exact ⟨((checkField_eq_some nonempty field).mp rfl).2, at_i, here⟩
  · rintro ⟨asks, at_i, here⟩
    have nonempty := named_of_mem_getKeys one (.head _) at_i
    obtain ⟨bound', eq⟩ := List.getElem?_eq_some_iff.mp at_i
    have bound : i < ko.names.length := checked.names.length_eq ▸ bound'
    have field : p.checkField index.fieldNames[i] = some ko.names[i] :=
      checked.names.get bound' bound
    rw [eq] at field
    refine ⟨?_, here⟩
    rw [List.getElem?_eq_getElem bound, (checkField_eq_some nonempty field).mpr ⟨rfl, asks⟩]

/-- A key has what the projection of the document has exactly if every field that is asked for
can be told from it. -/
theorem hydrate_iff (simple : SimpleInclusion spec) (made : Projection.init spec = .ok p)
    (covered : p.checkKey index.fieldNames schema.pkFields = some ko)
    (one : index.getKeysFromObject doc = .ok [key])
    (primary : schema.pkFields = [[idName]] → schema.getValidatedPKFromObject doc = .ok pk)
    (elemMatch : List UInt8 → Value → Fields → Option (List UInt8))
    (details : Option MatchDetails) :
    ∃ out left, ko.hydrate key pk = some out ∧ p.transform elemMatch details doc = .ok left ∧
      ((∀ n v, (n, v) ∈ out.pairs ↔ (n, v) ∈ left.pairs) ↔
        ∀ n, p.Asks n → Recovered schema index.fieldNames doc n) := by
  obtain ⟨p', made', whole, source⟩ := init_simple simple
  cases made.symm.trans made'
  have checked := checked_of_checkKey covered
  obtain ⟨out, hydrated, inOut⟩ := hydrate_eq_some checked one primary
  obtain ⟨left, transformed, inLeft⟩ :=
    transform_whole (source ▸ whole) checked.excludes elemMatch details doc
  refine ⟨out, left, hydrated, transformed, forall_congr' fun n => ?_⟩
  simp only [inOut, inLeft, and_congr_right_iff]
  rw [forall_comm]
  refine forall_congr' fun asks => ?_
  unfold Recovered
  split_ifs with inKey fromPK
  · -- The field is in the key, and is not taken from the primary key.
    have notPK : ∀ v, ¬(n = idName ∧ [idName] ∉ index.fieldNames ∧
        schema.pkFields = [[idName]] ∧ pk.head? = some v) := by
      rintro v ⟨rfl, notInKey, -⟩
      exact notInKey inKey
    simp only [notPK, or_false]
    refine keyHas_iff_onlyValue ?_ ?_
    · obtain ⟨i, bound, at_i⟩ := List.getElem_of_mem inKey
      have at_i := List.getElem?_eq_some_iff.mpr ⟨bound, at_i⟩
      obtain ⟨u, here, -⟩ := keyHas_of_mem_getKeys one (.head _) at_i
      exact ⟨u, i, at_i, here⟩
    · rintro u ⟨i, at_i, here⟩
      obtain ⟨u', here', holds⟩ := keyHas_of_mem_getKeys one (.head _) at_i
      cases here.symm.trans here'
      exact holds
  · obtain ⟨rfl, isID⟩ := fromPK
    obtain ⟨e, head, iff⟩ := primary_iff isID (primary isID)
    rw [← iff]
    refine forall_congr' fun v => ?_
    have notAt : ¬∃ i : Nat, index.fieldNames[i]? = some [idName] ∧ key[i]? = some v := by
      rintro ⟨i, at_i, -⟩
      exact inKey (List.mem_of_getElem? at_i)
    simp only [notAt, inKey, isID, head, Option.some_inj, false_or, not_false_iff, true_and,
      eq_comm (a := e)]
  · refine forall_congr' fun v => ?_
    have notAt : ¬∃ i : Nat, index.fieldNames[i]? = some [n] ∧ key[i]? = some v := by
      rintro ⟨i, at_i, -⟩
      exact inKey (List.mem_of_getElem? at_i)
    have notPK : ¬(n = idName ∧ [idName] ∉ index.fieldNames ∧
        schema.pkFields = [[idName]] ∧ pk.head? = some v) := by
      rintro ⟨isID, -, pattern, -⟩
      exact fromPK ⟨isID, pattern⟩
    simp only [notAt, notPK, or_false, false_iff]

/-- The index on `a` and the fields `{_id: 5, a: 7}` for `{a: 1, _id: 0}`. -/
theorem hydrate_iff_present :
    ∃ p ko out left, Projection.init [([[97]], .numberInt 1), ([idName], .numberInt 0)] = .ok p ∧
      p.checkKey [[[97]]] [[idName]] = some ko ∧
      ko.hydrate [.numberInt 7] [.numberInt 5] = some out ∧
      p.transform (fun _ _ _ => none) none (.cons idName (.numberInt 5)
        (.cons [97] (.numberInt 7) .nil)) = .ok left ∧
      ∀ n v, (n, v) ∈ out.pairs ↔ (n, v) ∈ left.pairs := by
  have simple : SimpleInclusion [([[97]], .numberInt 1), ([idName], .numberInt 0)] := by
    simp [SimpleInclusion, Value.isNumber, Value.number, trueValue]
  have one : IndexSpec.getKeysFromObject ⟨[[[97]]], ⟨0⟩, false, false, false⟩
      (.cons idName (.numberInt 5) (.cons [97] (.numberInt 7) .nil)) = .ok [[.numberInt 7]] := rfl
  have primary : Schema.getValidatedPKFromObject ⟨[], true, [[idName]], ⟨0⟩⟩
      (.cons idName (.numberInt 5) (.cons [97] (.numberInt 7) .nil)) = .ok [.numberInt 5] := rfl
  obtain ⟨out, left, hydrated, transformed, iff⟩ :=
    hydrate_iff simple rfl rfl one (fun _ => primary) (fun _ _ _ => none) none
  refine ⟨_, _, out, left, rfl, rfl, hydrated, transformed, iff.mpr fun n asks => ?_⟩
  have isA : n = [97] := by
    by_cases isID : n = idName
    · rw [isID, asks_idName] at asks
      cases asks
    · have named : [n] ∈ [[[97]], [idName]] := ((asks_of_ne isID).mp asks).2
      simpa [isID] using named
  subst isA
  rw [Recovered, if_pos (.head _)]
  exact ⟨.numberInt 7, by simp [OnlyValue, Fields.pairs, idName], rfl⟩

/-- For a document without the field the key has null, and the projection nothing. -/
theorem hydrate_missing :
    ∃ p ko out left, SimpleInclusion [([[97]], .numberInt 1), ([idName], .numberInt 0)] ∧
      Projection.init [([[97]], .numberInt 1), ([idName], .numberInt 0)] = .ok p ∧
      p.checkKey [[[97]]] [[idName]] = some ko ∧
      IndexSpec.getKeysFromObject ⟨[[[97]]], ⟨0⟩, false, false, false⟩
        (.cons idName (.numberInt 5) .nil) = .ok [[.null]] ∧
      Schema.getValidatedPKFromObject ⟨[], true, [[idName]], ⟨0⟩⟩
        (.cons idName (.numberInt 5) .nil) = .ok [.numberInt 5] ∧
      ko.hydrate [.null] [.numberInt 5] = some out ∧
      p.transform (fun _ _ _ => none) none (.cons idName (.numberInt 5) .nil) = .ok left ∧
      ([97], .null) ∈ out.pairs ∧ left.pairs = [] :=
  ⟨_, _, _, _, by simp [SimpleInclusion, Value.isNumber, Value.number, trueValue], rfl, rfl, rfl,
    rfl, rfl, rfl, .head _, rfl⟩

/-! ### Names that are all different -/

/-- The names of the fields that are asked for. -/
def Projection.asked (p : Projection) : List Path :=
  if p.includeID then (p.source.map Prod.fst).insert [idName]
  else (p.source.map Prod.fst).erase [idName]

theorem length_asked (p : Projection) : (p.asked.length : Int) = p.need := by
  unfold asked need
  by_cases there : [idName] ∈ p.source.map Prod.fst
  · have nonempty := List.length_pos_of_mem there
    rw [List.length_map] at nonempty
    cases p.includeID with
    | true => simp [any_source.mpr there, List.length_insert_of_mem there]
    | false =>
      simp only [any_source.mpr there, Bool.false_eq_true, if_false, Bool.not_false, Bool.true_and,
        Bool.false_and, if_true, List.length_erase_of_mem there, List.length_map]
      omega
  · have absent := Bool.eq_false_iff.mpr (mt any_source.mp there)
    cases p.includeID with
    | true => simp [absent, List.length_insert_of_not_mem there]
    | false => simp [absent, List.erase_of_not_mem there]

section

variable (distinct : (p.source.map Prod.fst).Nodup)
include distinct

theorem mem_asked :
    k ∈ p.asked ↔ if k = [idName] then p.includeID = true else k ∈ p.source.map Prod.fst := by
  unfold asked
  cases p.includeID with
  | true => grind
  | false => grind [distinct.mem_erase_iff]

theorem isSome_checkField {o : Option (List UInt8)} (checked : p.checkField k = some o) :
    o.isSome = true ↔ k ∈ p.asked := by
  rw [mem_asked distinct, ← any_source]
  unfold checkField at checked
  split at checked
  · next there =>
      split at checked
      · cases checked
        grind
      · cases checked
  · next there =>
      cases checked
      grind

theorem countP_names {names : List (Option (List UInt8))}
    (checked : List.Forall₂ (fun k o => p.checkField k = some o) keyPattern names) :
    names.countP Option.isSome = (keyPattern.filter (· ∈ p.asked)).length := by
  induction checked with
  | nil => rfl
  | cons here _ ih =>
    have iff := isSome_checkField distinct here
    rw [List.countP_cons, List.filter_cons, ih]
    grind

/-- If no name comes twice, every field that is asked for is found. -/
theorem checkKey_covers (noTwice : keyPattern.Nodup)
    (made : p.checkKey keyPattern pkPattern = some ko) (asks : p.Asks name) :
    [name] ∈ keyPattern ∨ (name = idName ∧ pkPattern = [[idName]]) := by
  have checked := checked_of_checkKey made
  have all := checked.all
  rw [← length_asked, countP_names distinct checked.names, ← Nat.cast_add, Nat.cast_inj] at all
  have wanted : [name] ∈ p.asked := by
    rw [mem_asked distinct]
    unfold Projection.Asks at asks
    grind
  -- As many different fields are found as are asked for.
  by_cases fromPK : ko.includeIDFromPK = true
  · obtain ⟨includeID, notInKey, isID⟩ := checked.fromPK.mp fromPK
    have found : ([idName] :: keyPattern.filter (· ∈ p.asked)).Perm p.asked := by
      refine List.Subperm.perm_of_length_le (List.subperm_of_subset ?_ ?_) ?_
      · exact List.nodup_cons.mpr ⟨fun mem => notInKey (List.mem_of_mem_filter mem),
          noTwice.filter _⟩
      · intro k mem
        rcases List.mem_cons.mp mem with rfl | mem
        · simp [mem_asked distinct, includeID]
        · simpa using (List.mem_filter.mp mem).2
      · rw [List.length_cons, ← all, fromPK, Bool.toNat_true]
    rcases List.mem_cons.mp (found.mem_iff.mpr wanted) with same | mem
    · exact .inr ⟨by simpa using same, isID⟩
    · exact .inl (List.mem_of_mem_filter mem)
  · have found : (keyPattern.filter (· ∈ p.asked)).Perm p.asked := by
      refine List.Subperm.perm_of_length_le (List.subperm_of_subset (noTwice.filter _) ?_) ?_
      · intro k mem
        simpa using (List.mem_filter.mp mem).2
      · rw [← all, Bool.eq_false_iff.mpr fromPK, Bool.toNat_false, Nat.add_zero]
    exact .inl (List.mem_of_mem_filter (found.mem_iff.mpr wanted))

end

/-- The index on `a` and `b` for `{a: 1, b: 1}`, with `_id` from the primary key. -/
theorem checkKey_covers_two :
    let key : List Path := [[[97]], [[98]]]
    let p : Projection := ⟨[([[97]], .numberInt 1), ([[98]], .numberInt 1)],
      .mk false false 0 (-1) .nil, true, [], .normal, false⟩
    p.checkKey key [[idName]] = some ⟨[some [97], some [98]], true⟩ ∧
      ([[98]] ∈ key ∨ [98] = idName ∧ [[idName]] = [[idName]]) ∧
      ([idName] ∈ key ∨ idName = idName ∧ [[idName]] = [[idName]]) := by
  intro key p
  have made : p.checkKey key [[idName]] = some ⟨[some [97], some [98]], true⟩ := rfl
  exact ⟨made, checkKey_covers (by decide) (by decide) made (by decide),
    checkKey_covers (by decide) (by decide) made (by decide)⟩

end TokuMX.Query
