import TokuMX.Lib.Checked
import TokuMX.Lib.Undo
import TokuMX.Oplog.Refs

/-!
Applying an oplog entry to the collections and rolling it back (`db/oplog_helpers.cpp`,
`db/oplog.cpp`, `db/collection.cpp`).

* `Undoable` — the operations were logged against the states they are applied to, and each
  operation's checks pass on what it left.
* `rollback_undoes` — after an undoable entry has been applied, its rollback leads back to
  the state before; for an entry logged against its states nothing less will do.
* `rollback_of_shrinking_update` — a rollback that fails: a capped collection refuses an update
  that grows a document, and the rollback of one that shrank a document is such an update.

Collections have an `_id` or a user-defined primary key, or are capped. Rows in the oplog
carry their `_id`, and modifier objects are not empty. The storage engine stores and removes
rows as it is told: deletes are `DB_DELETE_ANY`, inserts overwrite. What modifiers do to a
document is a parameter, and so is an insert into a capped collection that brings no primary
key: its rollback is refused. Commands, index builds, the sizes a capped collection keeps in
memory and the rewriting of the entry in the oplog are left out.
-/

namespace TokuMX.Oplog

open TokuMX.Lib

/-- What the operations ask of a collection. -/
structure CollectionInfo (PK Doc Key Mods : Type) where
  isCapped : Bool
  idPrimaryKey : Bool
  getValidatedPKFromObject : Doc → Option PK
  /-- `getKeysFromObject` of the unique secondary indexes. -/
  uniqueKeys : List (Doc → Finset Key)
  hasClusteringSecondaryKey : Bool
  /-- `ModSet::isIndexed`. -/
  modsIndexed : Mods → Bool

/-- The rows of all collections, by namespace and primary key. -/
abbrev Database (NS PK Doc : Type) := Store (NS × PK) Doc

/-- The collections, what is computed from documents, and the insert that is left open. -/
structure Catalog (NS PK Doc Key Mods : Type) where
  collection : NS → CollectionInfo PK Doc Key Mods
  objsize : Doc → Nat
  /-- No top-level field starts with `$`, and `_id` is no array, regex or undefined. -/
  hasValidFields : Doc → Bool
  inheritIdField : Doc → Doc → Option Doc
  createNewFromMods : Mods → Doc → Option Doc
  cappedInsertObject : NS → Doc → Database NS PK Doc → Option (Database NS PK Doc)

/-- The operations of an oplog entry. -/
inductive RowOp (NS PK Doc Mods : Type) where
  | insert (ns : NS) (row : Doc)
  | update (ns : NS) (pk : PK) (oldObj newObj : Doc)
  | updateMods (ns : NS) (pk : PK) (oldObj : Doc) (updateobj : Mods)
  | delete (ns : NS) (row : Doc)
  | cappedInsert (ns : NS) (pk : PK) (row : Doc)
  | cappedDelete (ns : NS) (pk : PK) (row : Doc)
  | comment
deriving DecidableEq

def BSONObjMaxUserSize : Nat := 16 * 1024 * 1024

section Model

variable {NS PK Doc Key Mods : Type} [DecidableEq NS] [DecidableEq PK] [DecidableEq Key]
variable (cat : Catalog NS PK Doc Key Mods)

/-- `validateInsert`. -/
def validateInsert (obj : Doc) : Bool :=
  cat.objsize obj ≤ BSONObjMaxUserSize && cat.hasValidFields obj

/-- `insertOneObject`, with `NO_UNIQUE_CHECKS`. -/
def insertOneObject (ns : NS) (obj : Doc) (db : Database NS PK Doc) :
    Option (Database NS PK Doc) := do
  check (validateInsert cat obj)
  if (cat.collection ns).isCapped then cat.cappedInsertObject ns obj db
  else
    let pk ← (cat.collection ns).getValidatedPKFromObject obj
    some (db.insert (ns, pk) obj)

/-- `runRowDelete`: a capped collection refuses `deleteObject`. -/
def runRowDelete (ns : NS) (row : Doc) (db : Database NS PK Doc) : Option (Database NS PK Doc) := do
  let pk ← (cat.collection ns).getValidatedPKFromObject row
  check ((cat.collection ns).isCapped = false)
  some (db.erase (ns, pk))

/-- `IndexedCollection::updateObject` and `CappedCollection::updateObject`. -/
def updateObject (ns : NS) (pk : PK) (oldObj newObj : Doc) (db : Database NS PK Doc) :
    Option (Database NS PK Doc) := do
  let newObj ← cat.inheritIdField oldObj newObj
  if (cat.collection ns).isCapped then
    check (cat.objsize newObj ≤ cat.objsize oldObj)
    some (db.insert (ns, pk) newObj)
  else if (cat.collection ns).idPrimaryKey then
    some (db.insert (ns, pk) newObj)
  else
    let newPK ← (cat.collection ns).getValidatedPKFromObject newObj
    if newPK ≠ pk then some ((db.erase (ns, pk)).insert (ns, newPK) newObj)
    else some (db.insert (ns, pk) newObj)

/-- `ApplyUpdateMessage::applyMods`: errors leave the document as it is. -/
def applyModsMessage (updateobj : Mods) (oldObj : Doc) : Doc :=
  match cat.createNewFromMods updateobj oldObj with
  | some newObj => if cat.objsize newObj ≤ BSONObjMaxUserSize then newObj else oldObj
  | none => oldObj

/-- `updateObjectMods`: a message to the row that is stored. -/
def updateObjectMods (ns : NS) (pk : PK) (updateobj : Mods) (db : Database NS PK Doc) :
    Option (Database NS PK Doc) := do
  check ((cat.collection ns).isCapped = false)
  let stored ← db.lookup (ns, pk)
  some (db.insert (ns, pk) (applyModsMessage cat updateobj stored))

/-- No key of a unique secondary index belongs to both documents. -/
def NoSharedKey (info : CollectionInfo PK Doc Key Mods) (row other : Doc) : Prop :=
  ∀ keys ∈ info.uniqueKeys, Disjoint (keys row) (keys other)

instance (info : CollectionInfo PK Doc Key Mods) (row other : Doc) :
    Decidable (NoSharedKey info row other) := by
  unfold NoSharedKey
  infer_instance

/-- `CappedCollection::insertObjectWithPK`. The check of the primary key index looks for the
field `$_` of the object, which no document has; the secondary ones are real. -/
def insertObjectWithPK (ns : NS) (pk : PK) (row : Doc) (db : Database NS PK Doc) :
    Option (Database NS PK Doc) := do
  check ((cat.collection ns).isCapped = true)
  check (∀ entry ∈ db.entries, entry.1.1 = ns → NoSharedKey (cat.collection ns) row entry.2)
  some (db.insert (ns, pk) row)

/-- `CappedCollection::deleteObjectWithPK`. -/
def deleteObjectWithPK (ns : NS) (pk : PK) (db : Database NS PK Doc) :
    Option (Database NS PK Doc) := do
  check ((cat.collection ns).isCapped = true)
  some (db.erase (ns, pk))

/-- `runUpdateFromOplogWithLock` when rolling back. -/
def rollbackUpdate (ns : NS) (pk : PK) (oldObj newObj : Doc) (db : Database NS PK Doc) :
    Option (Database NS PK Doc) := do
  if (cat.collection ns).isCapped then updateObject cat ns pk newObj oldObj db
  else
    let deleted ← runRowDelete cat ns newObj db
    insertOneObject cat ns oldObj deleted

/-- `applyOperationFromOplog`. -/
def applyOperation : RowOp NS PK Doc Mods → Database NS PK Doc → Option (Database NS PK Doc)
  | .insert ns row, db => insertOneObject cat ns row db
  | .update ns pk oldObj newObj, db => updateObject cat ns pk oldObj newObj db
  | .updateMods ns pk oldObj updateobj, db => do
    let newObj ← cat.createNewFromMods updateobj oldObj
    if !(cat.collection ns).modsIndexed updateobj &&
        !(cat.collection ns).hasClusteringSecondaryKey then
      updateObjectMods cat ns pk updateobj db
    else updateObject cat ns pk oldObj newObj db
  | .delete ns row, db => runRowDelete cat ns row db
  | .cappedInsert ns pk row, db => insertObjectWithPK cat ns pk row db
  | .cappedDelete ns pk _, db => deleteObjectWithPK cat ns pk db
  | .comment, db => some db

/-- `rollbackOperationFromOplog`. -/
def rollbackOperation : RowOp NS PK Doc Mods → Database NS PK Doc → Option (Database NS PK Doc)
  | .insert ns row, db => runRowDelete cat ns row db
  | .update ns pk oldObj newObj, db => rollbackUpdate cat ns pk oldObj newObj db
  | .updateMods ns pk oldObj updateobj, db => do
    let newObj ← cat.createNewFromMods updateobj oldObj
    rollbackUpdate cat ns pk oldObj newObj db
  | .delete ns row, db => insertOneObject cat ns row db
  | .cappedInsert ns pk _, db => deleteObjectWithPK cat ns pk db
  | .cappedDelete ns pk row, db => insertObjectWithPK cat ns pk row db
  | .comment, db => some db

/-- An entry: whether it is applied, and its operations. -/
structure TransactionEntry (OID NS PK Doc Mods : Type) where
  applied : Bool
  payload : Payload OID (RowOp NS PK Doc Mods)
deriving DecidableEq

variable {OID : Type} [LinearOrder OID]

/-- `applyTransactionFromOplog`. -/
def applyTransactionFromOplog (refs : List (RefsDoc OID (RowOp NS PK Doc Mods)))
    (entry : TransactionEntry OID NS PK Doc Mods) (db : Database NS PK Doc) :
    Option (TransactionEntry OID NS PK Doc Mods × Database NS PK Doc) := do
  if entry.applied then some (entry, db)
  else
    let db ← (entry.payload.opsToApply refs).foldlM (fun db op => applyOperation cat op db) db
    some ({ entry with applied := true }, db)

/-- `rollbackTransactionFromOplog`, with `purgeEntry` false. -/
def rollbackTransactionFromOplog (refs : List (RefsDoc OID (RowOp NS PK Doc Mods)))
    (entry : TransactionEntry OID NS PK Doc Mods) (db : Database NS PK Doc) :
    Option (TransactionEntry OID NS PK Doc Mods × Database NS PK Doc) := do
  let db ←
    if entry.applied then
      (entry.payload.opsToRollback refs).foldlM (fun db op => rollbackOperation cat op db) db
    else some db
  some ({ entry with applied := false }, db)

end Model

/-! ### What a rollback comes down to -/

section Plan

variable {NS PK Doc Key Mods : Type} [DecidableEq NS] [DecidableEq PK]
variable (cat : Catalog NS PK Doc Key Mods)

/-- The row goes, under the primary key it has. -/
def undoInsert (ns : NS) (row : Doc) : Undo (NS × PK) Doc :=
  match (cat.collection ns).isCapped, (cat.collection ns).getValidatedPKFromObject row with
  | false, some pk => ⟨fun _ => True, [((ns, pk), none)]⟩
  | _, _ => .refused

/-- The row comes back, if an insert accepts it. -/
def undoDelete (ns : NS) (row : Doc) : Undo (NS × PK) Doc :=
  match (cat.collection ns).getValidatedPKFromObject row with
  | some pk => ⟨fun _ => validateInsert cat row, [((ns, pk), some row)]⟩
  | none => .refused

/-- The old row comes back: in place, unless that grows it, in a capped collection; otherwise
after the new row has gone. -/
def undoUpdate (ns : NS) (pk : PK) (oldObj newObj : Doc) : Undo (NS × PK) Doc :=
  if (cat.collection ns).isCapped then
    match cat.inheritIdField newObj oldObj with
    | some oldObj => ⟨fun _ => cat.objsize oldObj ≤ cat.objsize newObj, [((ns, pk), some oldObj)]⟩
    | none => .refused
  else
    match (cat.collection ns).getValidatedPKFromObject newObj,
        (cat.collection ns).getValidatedPKFromObject oldObj with
    | some newPK, some oldPK =>
      ⟨fun _ => validateInsert cat oldObj, [((ns, newPK), none), ((ns, oldPK), some oldObj)]⟩
    | _, _ => .refused

def undoCappedInsert (ns : NS) (pk : PK) : Undo (NS × PK) Doc :=
  if (cat.collection ns).isCapped then ⟨fun _ => True, [((ns, pk), none)]⟩ else .refused

/-- The row comes back, if it shares no unique key with one that is there. -/
def undoCappedDelete (ns : NS) (pk : PK) (row : Doc) : Undo (NS × PK) Doc :=
  if (cat.collection ns).isCapped then
    ⟨fun there => ∀ pk' other, there (ns, pk') = some other →
      NoSharedKey (cat.collection ns) row other, [((ns, pk), some row)]⟩
  else .refused

/-- The rollback of an operation, as checks and rows written back. -/
def undoPlan : RowOp NS PK Doc Mods → Undo (NS × PK) Doc
  | .insert ns row => undoInsert cat ns row
  | .update ns pk oldObj newObj => undoUpdate cat ns pk oldObj newObj
  | .updateMods ns pk oldObj updateobj =>
    match cat.createNewFromMods updateobj oldObj with
    | some newObj => undoUpdate cat ns pk oldObj newObj
    | none => .refused
  | .delete ns row => undoDelete cat ns row
  | .cappedInsert ns pk _ => undoCappedInsert cat ns pk
  | .cappedDelete ns pk row => undoCappedDelete cat ns pk row
  | .comment => ⟨fun _ => True, []⟩

variable {cat} {ns : NS} {pk : PK} {row oldObj newObj : Doc} {db db' : Database NS PK Doc}

theorem insertOneObject_iff (indexed : (cat.collection ns).isCapped = false) :
    insertOneObject cat ns row db = some db' ↔ validateInsert cat row ∧
      ∃ pk, (cat.collection ns).getValidatedPKFromObject row = some pk ∧
        db.insert (ns, pk) row = db' := by
  simp [insertOneObject, indexed, Option.bind_eq_some_iff]

theorem runRowDelete_iff :
    runRowDelete cat ns row db = some db' ↔
      ∃ pk, (cat.collection ns).getValidatedPKFromObject row = some pk ∧
        (cat.collection ns).isCapped = false ∧ db.erase (ns, pk) = db' := by
  simp [runRowDelete, Option.bind_eq_some_iff]

theorem updateObject_capped_iff (capped : (cat.collection ns).isCapped = true) :
    updateObject cat ns pk oldObj newObj db = some db' ↔
      ∃ stored, cat.inheritIdField oldObj newObj = some stored ∧
        cat.objsize stored ≤ cat.objsize oldObj ∧ db.insert (ns, pk) stored = db' := by
  simp [updateObject, capped, Option.bind_eq_some_iff]

theorem updateObjectMods_iff {updateobj : Mods} :
    updateObjectMods cat ns pk updateobj db = some db' ↔
      (cat.collection ns).isCapped = false ∧ ∃ stored, view db (ns, pk) = some stored ∧
        db.insert (ns, pk) (applyModsMessage cat updateobj stored) = db' := by
  simp [updateObjectMods, view, Option.bind_eq_some_iff]

theorem deleteObjectWithPK_iff :
    deleteObjectWithPK cat ns pk db = some db' ↔
      (cat.collection ns).isCapped = true ∧ db.erase (ns, pk) = db' := by
  simp [deleteObjectWithPK]

theorem rollbackUpdate_iff :
    rollbackUpdate cat ns pk oldObj newObj db = some db' ↔
      (undoUpdate cat ns pk oldObj newObj).guard (view db) ∧
        view db' = overlay (undoUpdate cat ns pk oldObj newObj).writes (view db) := by
  unfold rollbackUpdate undoUpdate
  cases capped : (cat.collection ns).isCapped with
  | true =>
    rw [if_pos rfl, if_pos rfl, updateObject_capped_iff capped]
    cases cat.inheritIdField newObj oldObj with
    | none => simp [Undo.refused]
    | some stored => simp [insert_eq_iff]
  | false =>
    simp only [Bool.false_eq_true, if_false, Option.bind_eq_bind, Option.bind_eq_some_iff,
      runRowDelete_iff, insertOneObject_iff capped, capped, true_and]
    cases (cat.collection ns).getValidatedPKFromObject newObj with
    | none => simp [Undo.refused]
    | some newPK =>
      cases (cat.collection ns).getValidatedPKFromObject oldObj with
      | none => simp [Undo.refused]
      | some oldPK => simp [insert_eq_iff, view_erase]

variable [DecidableEq Key]

theorem insertObjectWithPK_iff :
    insertObjectWithPK cat ns pk row db = some db' ↔ (cat.collection ns).isCapped = true ∧
      (∀ pk' other, view db (ns, pk') = some other → NoSharedKey (cat.collection ns) row other) ∧
        db.insert (ns, pk) row = db' := by
  have entries : (∀ entry ∈ db.entries, entry.1.1 = ns →
      NoSharedKey (cat.collection ns) row entry.2) ↔
      ∀ pk' other, view db (ns, pk') = some other → NoSharedKey (cat.collection ns) row other := by
    constructor
    · intro unshared pk' other there
      exact unshared ⟨(ns, pk'), other⟩ (Finmap.lookup_eq_some_iff.mp there) rfl
    · rintro unshared ⟨⟨_, pk'⟩, other⟩ mem rfl
      exact unshared pk' other (Finmap.lookup_eq_some_iff.mpr mem)
  simp [insertObjectWithPK, entries]

/-- A delete that was applied is one on a collection that is not capped. -/
def RowOp.Appliable (cat : Catalog NS PK Doc Key Mods) : RowOp NS PK Doc Mods → Prop
  | .delete ns _ => (cat.collection ns).isCapped = false
  | _ => True

theorem appliable_of_applied {op : RowOp NS PK Doc Mods}
    (applied : applyOperation cat op db = some db') : op.Appliable cat := by
  cases op with
  | delete ns row =>
    obtain ⟨_, _, indexed, _⟩ := runRowDelete_iff.mp applied
    exact indexed
  | _ => trivial

/-- The rollback of an operation follows its plan. -/
theorem rollbackOperation_iff {op : RowOp NS PK Doc Mods} (appliable : op.Appliable cat) :
    rollbackOperation cat op db = some db' ↔ (undoPlan cat op).guard (view db) ∧
      view db' = overlay (undoPlan cat op).writes (view db) := by
  cases op with
  | insert ns row =>
    rw [rollbackOperation, runRowDelete_iff, undoPlan, undoInsert]
    cases (cat.collection ns).isCapped <;>
      cases (cat.collection ns).getValidatedPKFromObject row <;>
        simp [Undo.refused, erase_eq_iff]
  | update ns pk oldObj newObj => exact rollbackUpdate_iff
  | updateMods ns pk oldObj updateobj =>
    rw [rollbackOperation, undoPlan]
    cases cat.createNewFromMods updateobj oldObj with
    | none => simp [Undo.refused]
    | some newObj => simpa using rollbackUpdate_iff
  | delete ns row =>
    rw [rollbackOperation, insertOneObject_iff appliable, undoPlan, undoDelete]
    cases (cat.collection ns).getValidatedPKFromObject row <;> simp [Undo.refused, insert_eq_iff]
  | cappedInsert ns pk row =>
    rw [rollbackOperation, deleteObjectWithPK_iff, undoPlan, undoCappedInsert]
    cases (cat.collection ns).isCapped <;> simp [Undo.refused, erase_eq_iff]
  | cappedDelete ns pk row =>
    rw [rollbackOperation, insertObjectWithPK_iff, undoPlan, undoCappedDelete]
    cases (cat.collection ns).isCapped <;> simp [Undo.refused, insert_eq_iff]
  | comment =>
    simp only [rollbackOperation, undoPlan, overlay_nil, true_and, Option.some.injEq]
    exact ⟨fun same => same ▸ rfl, fun same => view_injective same.symm⟩

end Plan

/-! ### When the rollback leads back -/

section LeadsBack

variable {NS PK Doc Key Mods : Type} [DecidableEq NS] [DecidableEq PK] [DecidableEq Key]
variable {cat : Catalog NS PK Doc Key Mods} {before after : Database NS PK Doc}

/-- Rolling back leads to `before` when every check passes where its operation is rolled
back and what was recorded gives `before`. -/
theorem rollbackOps_iff {ops : List (RowOp NS PK Doc Mods)}
    (applied : ops.foldlM (fun db op => applyOperation cat op db) before = some after) :
    ops.reverse.foldlM (fun db op => rollbackOperation cat op db) after = some before ↔
      Passes (ops.map (undoPlan cat)) (view after) ∧
        view before = undone (ops.map (undoPlan cat)) (view after) := by
  have follows : ∀ op ∈ ops, ∀ db db', rollbackOperation cat op db = some db' ↔
      (undoPlan cat op).guard (view db) ∧
        view db' = overlay (undoPlan cat op).writes (view db) := by
    intro op mem db db'
    obtain ⟨_, _, here⟩ := applied_of_mem applied op mem
    exact rollbackOperation_iff (appliable_of_applied here)
  rw [List.foldlM_reverse, foldrM_undo_iff follows]

variable {OID : Type} [LinearOrder OID] {refs : List (RefsDoc OID (RowOp NS PK Doc Mods))}
  {entry entry' : TransactionEntry OID NS PK Doc Mods}

theorem applyTransaction_inv (unapplied : entry.applied = false)
    (applied : applyTransactionFromOplog cat refs entry before = some (entry', after)) :
    entry' = { entry with applied := true } ∧ (entry.payload.opsToApply refs).foldlM
      (fun db op => applyOperation cat op db) before = some after := by
  simp only [applyTransactionFromOplog, unapplied, Bool.false_eq_true, if_false,
    Option.bind_eq_bind, Option.bind_eq_some_iff] at applied
  obtain ⟨db, run, result⟩ := applied
  cases result
  exact ⟨rfl, run⟩

/-- The rollback of an entry, in-line or spilled, undoes its operations in reverse order. -/
theorem rollbackTransaction_iff (distinct : (refs.map RefsDoc.key).Nodup)
    (range : ∀ d ∈ refs, 0 < d.seq ∧ d.seq ≤ llongMax) (unapplied : entry.applied = false) :
    rollbackTransactionFromOplog cat refs { entry with applied := true } after =
        some (entry, before) ↔
      (entry.payload.opsToApply refs).reverse.foldlM
        (fun db op => rollbackOperation cat op db) after = some before := by
  rw [← opsToRollback_eq distinct range]
  obtain ⟨_, payload⟩ := entry
  cases unapplied
  simp [rollbackTransactionFromOplog, Option.bind_eq_some_iff]

end LeadsBack

/-! ### Entries logged against what they are applied to -/

section Recorded

variable {NS PK Doc Key Mods : Type} [DecidableEq NS] [DecidableEq PK]
variable (cat : Catalog NS PK Doc Key Mods)

/-- The old row is stored under its primary key, both rows have the `_id`, and the new
row's primary key is the same or, if it can change, free. -/
structure UpdateRecordedAt (db : Database NS PK Doc) (ns : NS) (pk : PK)
    (oldObj newObj : Doc) : Prop where
  stored : view db (ns, pk) = some oldObj
  newHasId : cat.inheritIdField oldObj newObj = some newObj
  capped : (cat.collection ns).isCapped = true → cat.inheritIdField newObj oldObj = some oldObj
  indexed : (cat.collection ns).isCapped = false →
    (cat.collection ns).getValidatedPKFromObject oldObj = some pk ∧
      ∃ newPK, (cat.collection ns).getValidatedPKFromObject newObj = some newPK ∧
        (newPK = pk ∨ (cat.collection ns).idPrimaryKey = false ∧ view db (ns, newPK) = none)

/-- The operation was logged against `db`. -/
def RowOp.RecordedAt (db : Database NS PK Doc) : RowOp NS PK Doc Mods → Prop
  | .insert ns row => (cat.collection ns).isCapped = false ∧
      ∃ pk, (cat.collection ns).getValidatedPKFromObject row = some pk ∧ view db (ns, pk) = none
  | .update ns pk oldObj newObj => UpdateRecordedAt cat db ns pk oldObj newObj
  | .updateMods ns pk oldObj updateobj =>
    ∃ newObj, cat.createNewFromMods updateobj oldObj = some newObj ∧
      UpdateRecordedAt cat db ns pk oldObj newObj ∧
      ((cat.collection ns).modsIndexed updateobj = false →
        (cat.collection ns).getValidatedPKFromObject newObj = some pk)
  | .delete ns row =>
    ∃ pk, (cat.collection ns).getValidatedPKFromObject row = some pk ∧
      view db (ns, pk) = some row
  | .cappedInsert ns pk _ => view db (ns, pk) = none
  | .cappedDelete ns pk row => view db (ns, pk) = some row
  | .comment => True

variable {cat} {ns : NS} {pk : PK} {oldObj newObj : Doc} {db db' : Database NS PK Doc}

theorem updateObject_inverted (recorded : UpdateRecordedAt cat db ns pk oldObj newObj)
    (applied : updateObject cat ns pk oldObj newObj db = some db') :
    overlay (undoUpdate cat ns pk oldObj newObj).writes (view db') = view db := by
  cases kind : (cat.collection ns).isCapped with
  | true =>
    obtain ⟨stored, inherited, -, rfl⟩ := (updateObject_capped_iff kind).mp applied
    simp only [undoUpdate, kind, if_true, recorded.capped kind, overlay_cons, overlay_nil,
      view_insert, Function.update_idem]
    rw [← recorded.stored, Function.update_eq_self]
  | false =>
    obtain ⟨oldKey, newPK, newKey, place⟩ := recorded.indexed kind
    simp only [undoUpdate, kind, Bool.false_eq_true, if_false, oldKey, newKey, overlay_cons,
      overlay_nil]
    by_cases same : newPK = pk
    · have result : db.insert (ns, pk) newObj = db' := by
        simpa [updateObject, recorded.newHasId, kind, newKey, same] using applied
      subst same result
      rw [view_insert, Function.update_idem, Function.update_idem, ← recorded.stored,
        Function.update_eq_self]
    · obtain ⟨notId, free⟩ := place.resolve_left same
      have result : (db.erase (ns, pk)).insert (ns, newPK) newObj = db' := by
        simpa [updateObject, recorded.newHasId, kind, notId, newKey, same] using applied
      subst result
      have other : (ns, newPK) ≠ (ns, pk) := by simpa using same
      rw [view_insert, view_erase, Function.update_idem, Function.update_comm other,
        Function.update_idem, ← recorded.stored, Function.update_eq_self, ← free,
        Function.update_eq_self]

variable [DecidableEq Key]

/-- An operation that recorded what it found is taken back by its plan. -/
theorem applyOperation_inverted {op : RowOp NS PK Doc Mods} (recorded : op.RecordedAt cat db)
    (applied : applyOperation cat op db = some db') :
    overlay (undoPlan cat op).writes (view db') = view db := by
  cases op with
  | insert ns row =>
    obtain ⟨indexed, pk, key, free⟩ := recorded
    obtain ⟨-, pk', key', rfl⟩ := (insertOneObject_iff indexed).mp applied
    cases key.symm.trans key'
    simp only [undoPlan, undoInsert, indexed, key, overlay_cons, overlay_nil, view_insert,
      Function.update_idem]
    rw [← free, Function.update_eq_self]
  | update ns pk oldObj newObj => exact updateObject_inverted recorded applied
  | updateMods ns pk oldObj updateobj =>
    obtain ⟨newObj, created, recorded, sameKey⟩ := recorded
    simp only [applyOperation, created, Option.bind_eq_bind, Option.bind_some] at applied
    simp only [undoPlan, created]
    split_ifs at applied with message
    · -- the message changes the stored row alone, and the old row is written over it
      simp only [Bool.and_eq_true, Bool.not_eq_true'] at message
      obtain ⟨indexed, _, -, rfl⟩ := updateObjectMods_iff.mp applied
      simp only [undoUpdate, indexed, Bool.false_eq_true, if_false,
        (recorded.indexed indexed).1, sameKey message.1, overlay_cons, overlay_nil,
        view_insert, Function.update_idem]
      rw [← recorded.stored, Function.update_eq_self]
    · exact updateObject_inverted recorded applied
  | delete ns row =>
    obtain ⟨pk, key, stored⟩ := recorded
    obtain ⟨pk', key', -, rfl⟩ := runRowDelete_iff.mp applied
    cases key.symm.trans key'
    simp only [undoPlan, undoDelete, key, overlay_cons, overlay_nil, view_erase,
      Function.update_idem]
    rw [← stored, Function.update_eq_self]
  | cappedInsert ns pk row =>
    obtain ⟨capped, -, rfl⟩ := insertObjectWithPK_iff.mp applied
    simp only [undoPlan, undoCappedInsert, capped, if_true, overlay_cons, overlay_nil,
      view_insert, Function.update_idem]
    rw [← show view db (ns, pk) = none from recorded, Function.update_eq_self]
  | cappedDelete ns pk row =>
    obtain ⟨capped, rfl⟩ := deleteObjectWithPK_iff.mp applied
    simp only [undoPlan, undoCappedDelete, capped, if_true, overlay_cons, overlay_nil,
      view_erase, Function.update_idem]
    rw [← show view db (ns, pk) = some row from recorded, Function.update_eq_self]
  | comment =>
    cases applied
    rfl

/-- Every operation was logged against what it is applied to, in the run from `db`. -/
def RecordedRun (cat : Catalog NS PK Doc Key Mods) :
    List (RowOp NS PK Doc Mods) → Database NS PK Doc → Prop
  | [], _ => True
  | op :: rest, db => op.RecordedAt cat db ∧
      ∀ db', applyOperation cat op db = some db' → RecordedRun cat rest db'

theorem RecordedRun.inverts {ops : List (RowOp NS PK Doc Mods)}
    (recorded : RecordedRun cat ops db) : Inverts (applyOperation cat) (undoPlan cat) ops db := by
  induction ops generalizing db with
  | nil => trivial
  | cons op ops ih =>
    intro db' applied
    exact ⟨applyOperation_inverted recorded.1 applied, ih (recorded.2 db' applied)⟩

/-- Then only each operation's own checks are left, on what it left. -/
theorem RecordedRun.leadsBack_iff {ops : List (RowOp NS PK Doc Mods)}
    {before after : Database NS PK Doc} (recorded : RecordedRun cat ops before)
    (applied : ops.foldlM (fun db op => applyOperation cat op db) before = some after) :
    Passes (ops.map (undoPlan cat)) (view after) ∧
        view before = undone (ops.map (undoPlan cat)) (view after) ↔
      GuardsHold (applyOperation cat) (undoPlan cat) ops before := by
  rw [passes_iff_of_inverts applied recorded.inverts,
    undone_of_inverts applied recorded.inverts, and_iff_left rfl]

/-- What operations logged against the state they are applied to leave to check: each
operation's own checks, on what it left. -/
theorem rollback_of_recorded {ops : List (RowOp NS PK Doc Mods)} {before after : Database NS PK Doc}
    (recorded : RecordedRun cat ops before)
    (applied : ops.foldlM (fun db op => applyOperation cat op db) before = some after) :
    ops.reverse.foldlM (fun db op => rollbackOperation cat op db) after = some before ↔
      GuardsHold (applyOperation cat) (undoPlan cat) ops before := by
  rw [rollbackOps_iff applied, recorded.leadsBack_iff applied]

/-- The operations were logged against the states they are applied to, in the run from
`before`, and the checks of their rollbacks hold on what each of them leaves. -/
structure Undoable (cat : Catalog NS PK Doc Key Mods) (ops : List (RowOp NS PK Doc Mods))
    (before : Database NS PK Doc) : Prop where
  recorded : RecordedRun cat ops before
  checks : GuardsHold (applyOperation cat) (undoPlan cat) ops before

variable {OID : Type} [LinearOrder OID] {refs : List (RefsDoc OID (RowOp NS PK Doc Mods))}
  {entry entry' : TransactionEntry OID NS PK Doc Mods} {before after : Database NS PK Doc}

/-- After an undoable entry has been applied, its rollback leads back to the state before.
Of an entry that was logged against the states it is applied to, only undoable ones do. -/
theorem rollback_undoes (distinct : (refs.map RefsDoc.key).Nodup)
    (range : ∀ d ∈ refs, 0 < d.seq ∧ d.seq ≤ llongMax) (unapplied : entry.applied = false)
    (applied : applyTransactionFromOplog cat refs entry before = some (entry', after)) :
    (Undoable cat (entry.payload.opsToApply refs) before →
        rollbackTransactionFromOplog cat refs entry' after = some (entry, before)) ∧
      (RecordedRun cat (entry.payload.opsToApply refs) before →
        rollbackTransactionFromOplog cat refs entry' after = some (entry, before) →
          Undoable cat (entry.payload.opsToApply refs) before) := by
  obtain ⟨rfl, run⟩ := applyTransaction_inv unapplied applied
  rw [rollbackTransaction_iff distinct range unapplied, rollbackOps_iff run]
  constructor
  · rintro ⟨recorded, checks⟩
    exact (recorded.leadsBack_iff run).mpr checks
  · intro recorded back
    exact ⟨recorded, (recorded.leadsBack_iff run).mp back⟩

end Recorded

/-- One collection; a document is its `_id` and its size, and modifiers set the size. -/
def sizedCatalog (capped : Bool) : Catalog Unit Nat (Nat × Nat) Nat Nat where
  collection _ :=
    { isCapped := capped
      idPrimaryKey := true
      getValidatedPKFromObject := fun doc => some doc.1
      uniqueKeys := []
      hasClusteringSecondaryKey := false
      modsIndexed := fun _ => false }
  objsize := Prod.snd
  hasValidFields _ := true
  inheritIdField oldObj newObj := if oldObj.1 = newObj.1 then some newObj else none
  createNewFromMods size doc := some (doc.1, size)
  cappedInsertObject _ _ _ := none

/-- The collection with one document. -/
def oneDocument (pk : Nat) (doc : Nat × Nat) : Database Unit Nat (Nat × Nat) :=
  (∅ : Database Unit Nat (Nat × Nat)).insert ((), pk) doc

/-- Two documents of one transaction: it grows a row by modifiers, deletes it and inserts
another one under its primary key. -/
def growAndReplace : List (RefsDoc Nat (RowOp Unit Nat (Nat × Nat) Nat)) :=
  [⟨5, 2, [.insert () (7, 10)]⟩, ⟨5, 1, [.updateMods () 7 (7, 30) 40, .delete () (7, 40)]⟩]

theorem growAndReplace_recorded :
    RecordedRun (sizedCatalog false) (applyRefOp growAndReplace 5) (oneDocument 7 (7, 30)) := by
  refine ⟨⟨(7, 40), rfl, ⟨by decide, rfl, by decide, fun _ => ⟨rfl, 7, rfl, .inl rfl⟩⟩,
    fun _ => rfl⟩, fun grown first => ?_⟩
  cases (show some grown = some (oneDocument 7 (7, 40)) from first.symm.trans (by decide))
  refine ⟨⟨7, rfl, by decide⟩, fun emptied second => ?_⟩
  cases (show some emptied = some ∅ from second.symm.trans (by decide))
  exact ⟨⟨rfl, 7, rfl, by decide⟩, fun _ _ => trivial⟩

theorem rollback_of_recorded_replaced :
    GuardsHold (applyOperation (sizedCatalog false)) (undoPlan (sizedCatalog false))
      (applyRefOp growAndReplace 5) (oneDocument 7 (7, 30)) := by
  have applied : (applyRefOp growAndReplace 5).foldlM
      (fun db op => applyOperation (sizedCatalog false) op db) (oneDocument 7 (7, 30)) =
        some (oneDocument 7 (7, 10)) := by
    decide
  exact (rollback_of_recorded growAndReplace_recorded applied).mp (by decide)

theorem rollback_undoes_spilled :
    Undoable (sizedCatalog false) (applyRefOp growAndReplace 5) (oneDocument 7 (7, 30)) := by
  have applied : applyTransactionFromOplog (sizedCatalog false) growAndReplace
      ⟨false, .ref 5⟩ (oneDocument 7 (7, 30)) =
        some (⟨true, .ref 5⟩, oneDocument 7 (7, 10)) := by
    decide
  exact (rollback_undoes (by decide) (by decide) rfl applied).2 growAndReplace_recorded
    (by decide)

/-- An update of a capped collection that shrinks a document is applied, and its rollback
is refused as an update that grows one. -/
theorem rollback_of_shrinking_update :
    let entry : TransactionEntry Nat Unit Nat (Nat × Nat) Nat :=
      ⟨false, .ops [.update () 1 (7, 40) (7, 30)]⟩
    let applied : TransactionEntry Nat Unit Nat (Nat × Nat) Nat := { entry with applied := true }
    applyTransactionFromOplog (sizedCatalog true) [] entry (oneDocument 1 (7, 40)) =
        some (applied, oneDocument 1 (7, 30)) ∧
      rollbackTransactionFromOplog (sizedCatalog true) [] applied (oneDocument 1 (7, 30)) =
        none := by
  decide

end TokuMX.Oplog
