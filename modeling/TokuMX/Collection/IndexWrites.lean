import TokuMX.Collection.KeyGenerator
import TokuMX.Collection.MultiKey
import TokuMX.Lib.Comparison
import TokuMX.Storage.KeyOrder

/-!
The dictionaries of an indexed collection and the calls that write them
(`db/collection.cpp`, `db/index.cpp`).

A collection keeps its documents in a dictionary by primary key, and for each secondary
index one of rows: an index key and the primary key of the document. `insertObject`,
`updateObject` and `deleteObject` first go over the indexes, generate keys, check unique
indexes and note multikey ones, and then hand everything to the storage engine at once.

The engine is modelled by what its calls are documented to do. A dictionary is a list of
rows, ordered by `Descriptor::compareKeys`: `putRow` replaces a row that compares equal,
`delRow` deletes it, `setRange` finds the first row that is not before a given one. The
rows `put_multiple`, `del_multiple` and `update_multiple` leave are computed in the loops
and installed at the end. When a call throws, its writes to the dictionaries are undone.

Left out are indexes being built, hashed indexes, and the values of clustering indexes.
-/

namespace TokuMX.Collection.Indexed

open TokuMX.Lib TokuMX.BSON

/-- The fields of an index key or a primary key, which have no names. -/
abbrev IndexKey := List Value

/-- A row of a secondary index. -/
abbrev Row := IndexKey × IndexKey

structure IndexSpec where
  fieldNames : List Path
  ordering : BSON.Ordering
  unique : Bool
  sparse : Bool
  clustering : Bool

def IndexSpec.getKeysFromObject (spec : IndexSpec) (obj : Fields) :
    Except KeyError (List IndexKey) :=
  getKeys spec.fieldNames spec.sparse obj

/-! ### Dictionaries -/

/-- The comparison of `BSONObjSet`, and of primary keys behind index keys. -/
def compareObjs (l r : IndexKey) : Int := BSON.woCompare l r ⟨0⟩

/-- `KeyV1::woCompare` of two keys as they are stored. -/
def storedCompare (order : BSON.Ordering) (l r : IndexKey) : Int :=
  ((Storage.keyV1Owned l).woCompare (Storage.keyV1Owned r) order).getD 0

/-- `Descriptor::compareKeys` in a secondary index. -/
def compareRows (order : BSON.Ordering) : Row → Row → Int :=
  comparePairs (storedCompare order) compareObjs

def putRow (order : BSON.Ordering) (row : Row) (rows : List Row) : List Row :=
  rows.filter (compareRows order · row ≠ 0) ++ [row]

def delRow (order : BSON.Ordering) (row : Row) (rows : List Row) : List Row :=
  rows.filter (compareRows order · row ≠ 0)

/-- `c_getf_set_range`. -/
def setRange (order : BSON.Ordering) (start : Row) (rows : List Row) : Option Row :=
  least (compareRows order) (rows.filter (0 ≤ compareRows order · start))

def putKeys (order : BSON.Ordering) (pk : IndexKey) (keys : List IndexKey) (rows : List Row) :
    List Row :=
  keys.foldl (fun rows key => putRow order (key, pk) rows) rows

def delKeys (order : BSON.Ordering) (pk : IndexKey) (keys : List IndexKey) (rows : List Row) :
    List Row :=
  keys.foldl (fun rows key => delRow order (key, pk) rows) rows

/-- `update_multiple` in one dictionary: old rows that are no new ones are deleted. -/
def updateKeys (order : BSON.Ordering) (pk : IndexKey) (oldKeys newKeys : List IndexKey)
    (rows : List Row) : List Row :=
  let gone := oldKeys.filter fun old => newKeys.all fun new => storedCompare order old new ≠ 0
  putKeys order pk newKeys (delKeys order pk gone rows)

/-- `uniqueCheck`, with its callback: the first row from `{key, minKey}` on has another key. -/
def uniqueCheck (order : BSON.Ordering) (key : IndexKey) (rows : List Row) : Bool :=
  match setRange order (key, [.minKey]) rows with
  | none => true
  | some row => storedCompare order row.1 key ≠ 0

/-- `orderedSetContains`. -/
def orderedSetContains : List IndexKey → IndexKey → Bool
  | [], _ => false
  | k :: keys, obj =>
    if 0 ≤ compareObjs k obj then compareObjs k obj = 0 else orderedSetContains keys obj

/-! ### Documents and their primary keys -/

/-- The bytes of `_id`. -/
def idName : List UInt8 := [95, 105, 100]

/-- `obj["_id"]`. -/
def idOf (obj : Fields) : Option Value := (lookup idName 0 obj).map Prod.snd

inductive WriteError where
  | key (error : KeyError)
  | multiStatement
  | retryWithWriteLock
  | dupKey (idxNum : Nat) (key : IndexKey)
  | storage
  | idChanged
  | notMultiKey
  | badPrimaryKey

/-- The fixed part of a collection. Secondary indexes are numbered from 1. -/
structure Schema where
  secondary : List IndexSpec
  idPrimaryKey : Bool
  pkFields : List Path
  pkOrdering : BSON.Ordering

/-- `addIdField`, with the object id it makes. -/
def addIdField (oid : OID) (obj : Fields) : Fields :=
  if (idOf obj).isSome then obj else .cons idName (.oid oid) obj

/-- `inheritIdField`. -/
def inheritIdField (oldObj newObj : Fields) : Except WriteError Fields :=
  match idOf newObj, idOf oldObj with
  | some e, some old => if e.woCompare old = 0 then .ok newObj else .error .idChanged
  | some _, none => .error .idChanged
  | none, some old => .ok (.cons idName old newObj)
  | none, none => .error .badPrimaryKey

/-- A part of the primary key that `getValidatedPKFromObject` turns down. -/
def badPart : Value → Bool
  | .regEx _ _ | .undefined => true
  | _ => false

/-- `IndexedCollection::getValidatedPKFromObject`. -/
def Schema.getValidatedPKFromObject (schema : Schema) (obj : Fields) : Except WriteError IndexKey :=
  if schema.idPrimaryKey then
    match idOf obj with
    | some e => .ok [e]
    | none => .error .badPrimaryKey
  else
    match getKeys schema.pkFields false obj with
    | .error e => .error (.key e)
    | .ok [pk] => if pk.any badPart then .error .badPrimaryKey else .ok pk
    | .ok _ => .error .badPrimaryKey

/-! ### The calls -/

structure State where
  docs : List (IndexKey × Fields)
  rows : List (List Row)
  multiKeyIndexBits : Nat

abbrev WriteM (α : Type) := Exec State WriteError α

def ofExcept {α : Type} : Except WriteError α → WriteM α
  | .ok a => pure a
  | .error e => Exec.throw e

section Calls

variable (env : WriteEnv) (schema : Schema)

/-- `setIndexIsMultikey`. -/
def setIndexIsMultikey (idxNum : Nat) : WriteM Unit := do
  let s ← Exec.get
  if s.multiKeyIndexBits.testBit idxNum then pure ()
  else
    Exec.throwIf env.hasMultTxns .multiStatement
    Exec.throwIf (!env.isWriteLocked) .retryWithWriteLock
    Exec.modify fun s => { s with multiKeyIndexBits := setBit s.multiKeyIndexBits idxNum }

def generateKeys (spec : IndexSpec) (obj : Fields) : WriteM (List IndexKey) :=
  ofExcept ((spec.getKeysFromObject obj).mapError .key)

/-- Unique checks for keys, in turn. A check also fails when it cannot be carried out. -/
def uniqueChecks (idxNum : Nat) (order : BSON.Ordering) (rows : List Row) :
    List IndexKey → WriteM Unit
  | [] => pure ()
  | key :: keys => do
    Exec.throwIf (!uniqueCheck order key rows || env.checkFails idxNum) (.dupKey idxNum key)
    uniqueChecks idxNum order rows keys

/-- The loop of `insertIntoIndexes`, with the rows it will leave. -/
def insertRounds (pk : IndexKey) (obj : Fields) :
    Nat → List (IndexSpec × List Row) → WriteM (List (List Row))
  | _, [] => pure []
  | i, (spec, rows) :: rest => do
    let idxKeys ← generateKeys spec obj
    Exec.when (spec.unique && !env.noUniqueChecks) (uniqueChecks env i spec.ordering rows idxKeys)
    Exec.when (1 < idxKeys.length) (setIndexIsMultikey env i)
    let others ← insertRounds pk obj (i + 1) rest
    pure (putKeys spec.ordering pk idxKeys rows :: others)

/-- The loop of `deleteFromIndexes`. -/
def deleteRounds (pk : IndexKey) (obj : Fields) :
    Nat → List (IndexSpec × List Row) → WriteM (List (List Row))
  | _, [] => pure []
  | i, (spec, rows) :: rest => do
    let idxKeys ← generateKeys spec obj
    let s ← Exec.get
    Exec.throwIf (decide (1 < idxKeys.length) && !s.multiKeyIndexBits.testBit i) .notMultiKey
    let others ← deleteRounds pk obj (i + 1) rest
    pure (delKeys spec.ordering pk idxKeys rows :: others)

/-- The loop of `CollectionBase::updateObject`. -/
def updateRounds (pk : IndexKey) (oldObj newObj : Fields) :
    Nat → List (IndexSpec × List Row) → WriteM (List (List Row))
  | _, [] => pure []
  | i, (spec, rows) :: rest => do
    if env.keysUnaffected && !spec.clustering then
      let others ← updateRounds pk oldObj newObj (i + 1) rest
      pure (rows :: others)
    else
      let oldIdxKeys ← generateKeys spec oldObj
      let newIdxKeys ← generateKeys spec newObj
      Exec.when (spec.unique && !env.noUniqueChecks && !env.keysUnaffected)
        (uniqueChecks env i spec.ordering rows
          (newIdxKeys.filter fun key => !orderedSetContains oldIdxKeys key))
      Exec.when (1 < newIdxKeys.length) (setIndexIsMultikey env i)
      let others ← updateRounds pk oldObj newObj (i + 1) rest
      pure (updateKeys spec.ordering pk oldIdxKeys newIdxKeys rows :: others)

/-- The documents without the one of the primary key. -/
def withoutDoc (pk : IndexKey) (docs : List (IndexKey × Fields)) : List (IndexKey × Fields) :=
  docs.filter fun d => storedCompare schema.pkOrdering d.1 pk ≠ 0

/-- `DB_NOOVERWRITE` finds the primary key. -/
def hasDoc (pk : IndexKey) (docs : List (IndexKey × Fields)) : Bool :=
  docs.any fun d => storedCompare schema.pkOrdering d.1 pk = 0

def insertIntoIndexes (checkPK : Bool) (pk : IndexKey) (obj : Fields) : WriteM Unit := do
  let s ← Exec.get
  let rows ← insertRounds env pk obj 1 (schema.secondary.zip s.rows)
  Exec.throwIf (env.storageFails || checkPK && hasDoc schema pk s.docs) .storage
  Exec.modify fun s => { s with docs := withoutDoc schema pk s.docs ++ [(pk, obj)], rows := rows }

def deleteFromIndexes (pk : IndexKey) (obj : Fields) : WriteM Unit := do
  let s ← Exec.get
  let rows ← deleteRounds pk obj 1 (schema.secondary.zip s.rows)
  Exec.throwIf env.storageFails .storage
  Exec.modify fun s => { s with docs := withoutDoc schema pk s.docs, rows := rows }

/-- `CollectionBase::updateObject`. -/
def updateInIndexes (pk : IndexKey) (oldObj newObj : Fields) : WriteM Unit := do
  let s ← Exec.get
  let rows ← updateRounds env pk oldObj newObj 1 (schema.secondary.zip s.rows)
  Exec.throwIf env.storageFails .storage
  Exec.modify fun s =>
    { s with docs := withoutDoc schema pk s.docs ++ [(pk, newObj)], rows := rows }

/-- `IndexedCollection::insertObject`. -/
def insertObject (oid : OID) (obj : Fields) : WriteM Unit := do
  let obj := addIdField oid obj
  let pk ← ofExcept (schema.getValidatedPKFromObject obj)
  insertIntoIndexes env schema (!env.noUniqueChecks && schema.idPrimaryKey) pk obj

/-- `IndexedCollection::updateObject`. -/
def updateObject (pk : IndexKey) (oldObj newObj : Fields) : WriteM Unit := do
  let newObj ← ofExcept (inheritIdField oldObj newObj)
  if schema.idPrimaryKey then updateInIndexes env schema pk oldObj newObj
  else
    let newPK ← ofExcept (schema.getValidatedPKFromObject newObj)
    if compareObjs newPK pk ≠ 0 then
      deleteFromIndexes env schema pk oldObj
      insertIntoIndexes env schema (!env.noUniqueChecks) newPK newObj
    else updateInIndexes env schema pk oldObj newObj

def deleteObject (pk : IndexKey) (obj : Fields) : WriteM Unit :=
  deleteFromIndexes env schema pk obj

end Calls

/-- A call from outside. -/
inductive Write where
  | insert (env : WriteEnv) (oid : OID) (obj : Fields)
  | update (env : WriteEnv) (pk : IndexKey) (oldObj newObj : Fields)
  | delete (env : WriteEnv) (pk : IndexKey) (obj : Fields)

variable (schema : Schema)

def Write.run : Write → WriteM Unit
  | .insert env oid obj => insertObject env schema oid obj
  | .update env pk oldObj newObj => updateObject env schema pk oldObj newObj
  | .delete env pk obj => deleteObject env schema pk obj

/-- The collection after a call. When it throws, the dictionaries are as before. -/
def State.apply (s : State) (w : Write) : State :=
  match w.run schema s with
  | (.returned _, s') => s'
  | (_, s') => { s' with docs := s.docs, rows := s.rows }

/-- A collection without documents. -/
def State.initial : State := ⟨[], schema.secondary.map fun _ => [], 0⟩

end TokuMX.Collection.Indexed
