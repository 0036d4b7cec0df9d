import Mathlib.Algebra.Group.Int.Defs
import Mathlib.Algebra.Group.Prod
import Mathlib.Data.Finset.Max
import TokuMX.Lib.Journal
import TokuMX.Lib.Runs
import TokuMX.Txn.TxnContext

/-!
Capped collections under concurrent transactions (`CappedCollection` in
`db/collection.cpp`, `CappedCollectionRollback` in `db/txn_context.cpp`).

The count and the size of a capped collection are kept in memory, and so is the set of the
first keys that open transactions have inserted. Both are changed before the storage engine
is called. What a transaction changed it also notes in its rollback context, from which an
abort takes it back.

A client has a stack of transactions. A plain insert is refused inside a multi-statement
transaction, but an upsert is not, so inserts happen at any depth. The steps are cut where
another client may come in between: `getNextPK` and the insert that follows, every round of
a trim, the storage engine's commit or abort and the note of it.

The storage engine is what the journals of `Lib.Journal` are: a client sees the committed
rows under its own writes, a row another client has written is locked, and a root's commit
makes its writes visible at once. An insert may throw at its unique checks or later, at a
lock, a key that is too long, or a multikey bit that needs a write lock; what follows the
insert may throw as well. A delete that throws has been noted and counted. An update that throws
has no effect and is no step. The commit that loses its transaction before the storage engine
commits (`Txn.commit_swallows`) is left out. Primary keys and the counters are unbounded; the
source has them in 64 bits, and wrap-around is left out.
-/

namespace TokuMX.Collection.Capped

open TokuMX.Lib TokuMX.Txn

/-- A document: its size, and its keys in the unique indexes. -/
structure Doc (Key : Type) where
  size : Nat
  uniqueKeys : List Key

/-- A document as the statistics count it. -/
def Doc.weight {Key : Type} (doc : Doc Key) : Int × Int := (1, doc.size)

/-- `_maxSize` and `_maxObjects`; `0` is no limit. -/
structure Limits where
  maxSize : Nat
  maxObjects : Nat

def Limits.isGorged (limits : Limits) (n size : Int) : Bool :=
  (0 < limits.maxObjects ∧ limits.maxObjects < n) ∨ (0 < limits.maxSize ∧ limits.maxSize < size)

/-! ### `CappedCollectionRollback` -/

/-- The entry of the collection in the rollback context of a transaction; `none` until it is
first looked up. -/
abbrev Rollback := Option CappedContext

namespace Rollback

def context (r : Rollback) : CappedContext := r.getD ⟨none, 0, 0⟩

def noteInsert (r : Rollback) (pk : Nat) (size : Nat) : Rollback :=
  some ⟨r.context.minPK.or (some pk), r.context.nDelta + 1, r.context.sizeDelta + size⟩

def noteDelete (r : Rollback) (size : Nat) : Rollback :=
  some ⟨r.context.minPK, r.context.nDelta - 1, r.context.sizeDelta - size⟩

def hasNotedInsert (r : Rollback) : Bool := r.context.minPK.isSome

/-- What the parent has after `transfer`. A parent with a first key keeps it. -/
def transfer (child parent : Rollback) : Rollback :=
  child.elim parent fun c =>
    some ⟨parent.context.minPK.or c.minPK, parent.context.nDelta + c.nDelta,
      parent.context.sizeDelta + c.sizeDelta⟩

/-- The first key of the child that `transfer` gives to nobody. -/
def dropped (child parent : Rollback) : Option Nat :=
  if parent.context.minPK.isSome then child.context.minPK else none

end Rollback

/-! ### The collection -/

/-- The fields of the collection that are kept in memory. -/
structure CappedCollection where
  currentObjects : Int
  currentSize : Int
  lastDeletedPK : Option Nat
  uncommittedMinPKs : Finset Nat
  nextPK : Nat

namespace CappedCollection

def minUnsafeKey (coll : CappedCollection) : Nat :=
  if some' : coll.uncommittedMinPKs.Nonempty then coll.uncommittedMinPKs.min' some'
  else coll.nextPK

/-- `noteUncommittedPK`: the first key of a transaction goes into the set. -/
def noteUncommittedPK (coll : CappedCollection) (r : Rollback) (pk : Nat) : CappedCollection :=
  if r.hasNotedInsert then coll
  else { coll with uncommittedMinPKs := insert pk coll.uncommittedMinPKs }

/-- `noteComplete`; `none` if the key is not there, which is a failed `verify`. -/
def noteComplete (coll : CappedCollection) (minPK : Option Nat) : Option CappedCollection :=
  match minPK with
  | none => some coll
  | some pk =>
    if pk ∈ coll.uncommittedMinPKs then
      some { coll with uncommittedMinPKs := coll.uncommittedMinPKs.erase pk }
    else none

theorem noteComplete_spec {coll coll' : CappedCollection} {minPK : Option Nat}
    (done : coll.noteComplete minPK = some coll') :
    (∀ pk ∈ minPK, pk ∈ coll.uncommittedMinPKs) ∧ coll' = { coll with
        uncommittedMinPKs := minPK.elim coll.uncommittedMinPKs coll.uncommittedMinPKs.erase } := by
  unfold noteComplete at done
  cases minPK with
  | none =>
    cases done
    exact ⟨nofun, rfl⟩
  | some pk =>
    dsimp only at done
    split_ifs at done with mem
    cases done
    exact ⟨fun _ same => Option.some.inj same ▸ mem, rfl⟩

/-- The counters, changed by `n` documents of together `size` bytes. -/
def count (coll : CappedCollection) (n size : Int) : CappedCollection :=
  { coll with
    currentObjects := coll.currentObjects + n
    currentSize := coll.currentSize + size }

end CappedCollection

/-! ### Clients -/

/-- A transaction: its writes, its rollback context and, as history that nothing reads, the
documents whose insert threw less those whose delete threw. -/
structure CappedTxn (Key : Type) where
  changes : List (Change Nat (Doc Key))
  rollback : Rollback
  threw : Int × Int

def CappedTxn.fresh {Key : Type} : CappedTxn Key := ⟨[], none, 0⟩

/-- Where a client is in a call. -/
inductive Phase (Key : Type) where
  | idle
  /-- `getNextPK` has returned; the insert comes next. -/
  | allocated (pk : Nat) (doc : Doc Key) (objsize : Nat)
  /-- The insert is done; `checkGorged` comes next. -/
  | inserted (objsize : Nat)
  /-- Waiting for `_deleteMutex`. -/
  | gorged (objsize : Nat)
  /-- In the loop of `trim`, with the cursor at `next`. -/
  | trimming (objsize : Nat) (next : Nat) (trimmedBytes trimmedObjects : Nat)

/-- The insert is done and the statement goes on. -/
def Phase.pastInsert {Key : Type} : Phase Key → Bool
  | .inserted _ | .gorged _ | .trimming .. => true
  | _ => false

/-- The open transactions of a client, the innermost and those around it, inside out, and
where it is. -/
structure Active (Key : Type) where
  top : CappedTxn Key
  parents : List (CappedTxn Key)
  phase : Phase Key

/-- How far a transaction is over. -/
inductive Completion where
  /-- The storage engine has committed; the capped rollback comes next. -/
  | committed (rollback : Rollback)
  /-- The storage engine has aborted; the capped rollback comes next. -/
  | aborted (rollback : Rollback)
  /-- `noteAbort` is at its last statement. -/
  | noted

/-- A client with open transactions. While one is being completed, only those around it
are open. -/
inductive Client (Key : Type) where
  | active (a : Active Key)
  | completing (parents : List (CappedTxn Key)) (completion : Completion)

variable {Key : Type}

namespace Active

variable (a : Active Key)

def stack : List (CappedTxn Key) := a.top :: a.parents

def begin : Active Key := ⟨.fresh, a.stack, .idle⟩

/-- A write of the innermost transaction, with its note. -/
def write (change : Change Nat (Doc Key)) (rollback : Rollback) (phase : Phase Key) : Active Key :=
  ⟨{ a.top with changes := a.top.changes ++ [change], rollback }, a.parents, phase⟩

/-- An insert or a delete has been noted and throws. -/
def throwing (rollback : Rollback) (weight : Int × Int) : Active Key :=
  ⟨{ a.top with rollback, threw := a.top.threw + weight }, a.parents, .idle⟩

end Active

namespace Client

def stack : Client Key → List (CappedTxn Key)
  | .active a => a.stack
  | .completing parents _ => parents

/-- The writes, from the outermost transaction in. -/
def changes (cl : Client Key) : List (Change Nat (Doc Key)) :=
  cl.stack.reverse.flatMap CappedTxn.changes

/-- The key it is about to insert. -/
def allocated : Client Key → Option Nat
  | .active ⟨_, _, .allocated pk _ _⟩ => some pk
  | _ => none

/-- Whether the row is its own to write: it has written it or is about to insert it. -/
def holds (cl : Client Key) (pk : Nat) : Bool :=
  cl.changes.any (·.key = pk) || cl.allocated == some pk

/-- What is left when the innermost transaction is over. -/
def pop : List (CappedTxn Key) → Option (Client Key)
  | [] => none
  | parent :: parents => some (.active ⟨parent, parents, .idle⟩)

end Client

/-! ### The system -/

structure System (C Key : Type) [LT C] where
  coll : CappedCollection
  /-- the committed rows -/
  docs : OrderedMap Nat (Doc Key)
  /-- the clients with open transactions -/
  clients : OrderedMap C (Client Key)
  deleteMutex : Option C

variable {C : Type} [LinearOrder C]

/-- The client, if it is idle. -/
def System.idle? (s : System C Key) (c : C) : Option (Active Key) :=
  match s.clients.find? c with
  | some (.active ⟨top, parents, .idle⟩) => some ⟨top, parents, .idle⟩
  | _ => none

theorem System.idle?_eq_some {s : System C Key} {c : C} {a : Active Key} :
    s.idle? c = some a ↔ s.clients.find? c = some (.active a) ∧ a.phase = .idle := by
  unfold System.idle?
  constructor
  · intro idle
    split at idle
    · next top parents present =>
        cases idle
        exact ⟨present, rfl⟩
    · cases idle
  · obtain ⟨top, parents, phase⟩ := a
    rintro ⟨present, rfl⟩
    rw [present]

section Model

variable [DecidableEq Key]

namespace System

/-- The rows a client sees. -/
def view (s : System C Key) (a : Active Key) : OrderedMap Nat (Doc Key) :=
  s.docs.apply (Client.active a).changes

/-- No other client holds the row. -/
def free (s : System C Key) (c : C) (pk : Nat) : Bool :=
  s.clients.entries.all fun e => e.1 = c || !e.2.holds pk

/-- The client `c` is now `cl`. -/
def setClient (s : System C Key) (c : C) (cl : Option (Client Key)) : System C Key :=
  { s with clients := s.clients.put c cl }

/-- Whether `checkUniqueIndexes` throws. -/
def duplicate (s : System C Key) (a : Active Key) (pk : Nat) (doc : Doc Key) (checkPk : Bool) :
    Bool :=
  (checkPk && ((s.view a).find? pk).isSome) ||
    (s.view a).entries.any fun e => e.2.uniqueKeys.any (· ∈ doc.uniqueKeys)

/-- `getNextPK`, for an insert that `checkGorged` will follow. -/
def getNextPK (s : System C Key) (c : C) (a : Active Key) (doc : Doc Key) (objsize : Nat) :
    System C Key :=
  let pk := s.coll.nextPK
  { s with
    coll := { s.coll with nextPK := pk + 1 }.noteUncommittedPK a.top.rollback pk
    clients := s.clients.put c (some (.active { a with phase := .allocated pk doc objsize })) }

/-- `checkUniqueAndInsert`; `fails` is whether it throws for another reason than a
duplicate key. -/
def checkUniqueAndInsert (s : System C Key) (c : C) (a : Active Key) (pk : Nat) (doc : Doc Key)
    (checkPk fails : Bool) (phase : Phase Key) : System C Key :=
  let rollback := a.top.rollback.noteInsert pk doc.size
  let after :=
    if s.duplicate a pk doc checkPk || fails then a.throwing rollback doc.weight
    else a.write ⟨pk, (s.view a).find? pk, some doc⟩ rollback phase
  { s with coll := s.coll.count 1 doc.size, clients := s.clients.put c (some (.active after)) }

/-- `insertObjectWithPK`, under `_mutex` from its first statement to its last. -/
def insertObjectWithPK (s : System C Key) (c : C) (a : Active Key) (pk : Nat) (doc : Doc Key)
    (fails : Bool) : System C Key :=
  let coll := if s.coll.nextPK ≤ pk then { s.coll with nextPK := pk + 1 } else s.coll
  { s with coll := coll.noteUncommittedPK a.top.rollback pk }.checkUniqueAndInsert
    c a pk doc true fails .idle

/-- `_deleteObject` of a row the client sees. -/
def deleteObject (s : System C Key) (c : C) (a : Active Key) (pk : Nat) (doc : Doc Key)
    (phase : Phase Key) : System C Key :=
  { s with
    coll := s.coll.count (-1) (-doc.size)
    clients := s.clients.put c
      (some (.active
        (a.write ⟨pk, some doc, none⟩ (a.top.rollback.noteDelete doc.size) phase))) }

/-- `updateObject`. -/
def updateObject (s : System C Key) (c : C) (a : Active Key) (pk : Nat)
    (oldObj newObj : Doc Key) : System C Key :=
  let diff : Int := newObj.size - oldObj.size
  { s with
    coll := if diff < 0 then s.coll.count 0 diff else s.coll
    clients := s.clients.put c
      (some (.active (a.write ⟨pk, some oldObj, some newObj⟩ a.top.rollback .idle))) }

/-- The row a trim deletes next: the first from `next` on that the client sees and may
write. -/
def oldest (s : System C Key) (c : C) (a : Active Key) (next : Nat) : Option (Nat × Doc Key) :=
  (s.view a).entries.find? fun e => next ≤ e.1 && s.free c e.1

omit [DecidableEq Key] in
theorem oldest_spec {s : System C Key} {c : C} {a : Active Key} {next pk : Nat} {doc : Doc Key}
    (found : s.oldest c a next = some (pk, doc)) :
    (s.view a).find? pk = some doc ∧ s.free c pk := by
  have mem := List.mem_of_find?_eq_some found
  have sat := List.find?_some found
  simp only [Bool.and_eq_true, decide_eq_true_eq] at sat
  exact ⟨OrderedMap.find?_eq_some.mpr mem, sat.2⟩

/-- `objsize()` of a primary key: the object `{"": NumberLong}`. -/
def pkSize : Nat := 15

/-- `K` in `trim`. -/
def trimK : Nat := 8

def checkGorged (limits : Limits) (s : System C Key) (c : C) (a : Active Key) (objsize : Nat) :
    System C Key :=
  let phase := if limits.isGorged s.coll.currentObjects s.coll.currentSize
    then .gorged objsize else .idle
  s.setClient c (some (.active { a with phase }))

/-- `trim`, up to its loop. -/
def trim (limits : Limits) (s : System C Key) (c : C) (a : Active Key) (objsize : Nat) :
    System C Key :=
  if limits.isGorged s.coll.currentObjects s.coll.currentSize then
    let phase := .trimming objsize (s.coll.lastDeletedPK.getD 0) 0 0
    { s.setClient c (some (.active { a with phase })) with deleteMutex := some c }
  else s.setClient c (some (.active { a with phase := .idle }))

/-- One round of the loop of `trim`. -/
def trimNext (limits : Limits) (s : System C Key) (c : C) (a : Active Key)
    (objsize : Nat) (next : Nat) (trimmedBytes trimmedObjects : Nat) : System C Key :=
  match s.oldest c a next with
  | none => { s.setClient c (some (.active { a with phase := .idle })) with deleteMutex := none }
  | some (pk, doc) =>
    let bytes := trimmedBytes + pkSize
    let objects := trimmedObjects + 1
    let coll := s.coll.count (-1) (-doc.size)
    let stop := !limits.isGorged coll.currentObjects coll.currentSize ||
      (objsize ≤ bytes && trimK ≤ objects)
    let after := s.deleteObject c a pk doc
      (if stop then .idle else .trimming objsize (pk + 1) bytes objects)
    { after with
      coll := { after.coll with lastDeletedPK := some pk }
      deleteMutex := if stop then none else some c }

/-- The statement throws after its insert, and lets go of `_deleteMutex`. -/
def statementThrows (s : System C Key) (c : C) (a : Active Key) : System C Key :=
  { s.setClient c (some (.active { a with phase := .idle })) with
    deleteMutex := if s.deleteMutex = some c then none else s.deleteMutex }

/-- The document of a delete that may throw: any in `deleteObjectWithPK`, and the one at the cursor
in `trim`. -/
def deleting? (s : System C Key) (c : C) (a : Active Key) (pk : Nat) : Option (Doc Key) :=
  match a.phase with
  | .idle => (s.view a).find? pk
  | .trimming _ next _ _ => (s.oldest c a next).bind fun e => if e.1 = pk then some e.2 else none
  | _ => none

/-- `_deleteObject` throws after it has noted and counted the delete. -/
def deleteThrows (s : System C Key) (c : C) (a : Active Key) (doc : Doc Key) : System C Key :=
  { s with
    coll := s.coll.count (-1) (-doc.size)
    clients := s.clients.put c
      (some (.active (a.throwing (a.top.rollback.noteDelete doc.size) (-doc.weight))))
    deleteMutex := if s.deleteMutex = some c then none else s.deleteMutex }

def deleteObjectWithPK (s : System C Key) (c : C) (a : Active Key) (pk : Nat) (obj : Doc Key) :
    System C Key :=
  let after := s.deleteObject c a pk obj .idle
  { after with coll := { after.coll with lastDeletedPK := none } }

/-- `commitChild`: the parent takes over the writes and the rollback context. -/
def commitChild (s : System C Key) (c : C) (child parent : CappedTxn Key)
    (rest : List (CappedTxn Key)) : System C Key :=
  let top := ⟨parent.changes ++ child.changes, Rollback.transfer child.rollback parent.rollback,
    parent.threw + child.threw⟩
  s.setClient c (some (.active ⟨top, rest, .idle⟩))

/-- The storage engine commits a root. -/
def storageCommit (s : System C Key) (c : C) (top : CappedTxn Key) : System C Key :=
  { s.setClient c (some (.completing [] (.committed top.rollback))) with
    docs := s.docs.apply top.changes }

/-- `noteCommit`, which has left `coll`. -/
def noteCommit (s : System C Key) (c : C) (parents : List (CappedTxn Key))
    (coll : CappedCollection) : System C Key :=
  { s.setClient c (Client.pop parents) with coll }

/-- The storage engine aborts the innermost transaction. -/
def storageAbort (s : System C Key) (c : C) (a : Active Key) : System C Key :=
  s.setClient c (some (.completing a.parents (.aborted a.top.rollback)))

/-- `noteAbort`, whose `noteComplete` has left `coll`, up to its last statement. It is not
called for a collection that the transaction has no entry of. -/
def noteAbort (s : System C Key) (c : C) (parents : List (CappedTxn Key)) (r : Rollback)
    (coll : CappedCollection) : System C Key :=
  let after := if r.isSome then some (.completing parents .noted) else Client.pop parents
  { s.setClient c after with coll := coll.count (-r.context.nDelta) (-r.context.sizeDelta) }

/-- The last statement of `noteAbort`. -/
def forgetLastDeleted (s : System C Key) (c : C) (parents : List (CappedTxn Key)) :
    System C Key :=
  { s.setClient c (Client.pop parents) with coll := { s.coll with lastDeletedPK := none } }

end System

/-! ### Steps -/

/-- What a client does, and what is seen of it. -/
inductive Event (C Key : Type) where
  | begin (c : C)
  | getNextPK (c : C) (doc : Doc Key) (objsize : Nat)
  | checkUniqueAndInsert (c : C) (fails : Bool)
  | insertObjectWithPK (c : C) (pk : Nat) (doc : Doc Key) (fails : Bool)
  | checkGorged (c : C)
  | trim (c : C)
  | trimNext (c : C)
  | statementThrows (c : C)
  | updateObject (c : C) (pk : Nat) (newObj : Doc Key)
  | deleteObjectWithPK (c : C) (pk : Nat)
  | deleteThrows (c : C) (pk : Nat)
  /-- with the first key that `transfer` gives to nobody -/
  | commitChild (c : C) (dropped : Option Nat)
  /-- of a root; with the documents whose insert threw in it, less those whose delete did -/
  | storageCommit (c : C) (threw : Int × Int)
  | noteCommit (c : C)
  /-- with the bytes its updates changed -/
  | storageAbort (c : C) (shrunk : Int)
  | noteAbort (c : C)
  | forgetLastDeleted (c : C)
  | minUnsafeKey (k : Nat)

/-- What comes between an insert and the end of its statement. -/
def Event.trims : Event C Key → Bool
  | .checkGorged _ | .trim _ | .trimNext _ | .statementThrows _ => true
  | _ => false

/-- By how much a write that replaces a document changes its size. -/
def resize (change : Change Nat (Doc Key)) : Int :=
  match change.old, change.new with
  | some old, some new => new.size - old.size
  | _, _ => 0

/-- By how much the updates of a transaction changed the documents. -/
def CappedTxn.resized (txn : CappedTxn Key) : Int := (txn.changes.map resize).sum

variable (limits : Limits)

/-- The state after an event, if the event can happen. -/
def System.perform (s : System C Key) : Event C Key → Option (System C Key)
  | .begin c =>
    match s.clients.find? c with
    | none => some (s.setClient c (some (.active ⟨.fresh, [], .idle⟩)))
    | some _ => (s.idle? c).map fun a => s.setClient c (some (.active a.begin))
  | .getNextPK c doc objsize => do
    let a ← s.idle? c
    if doc.size ≤ limits.maxSize then some (s.getNextPK c a doc objsize) else none
  | .checkUniqueAndInsert c fails =>
    match s.clients.find? c with
    | some (.active ⟨top, parents, .allocated pk doc objsize⟩) =>
      some (s.checkUniqueAndInsert c ⟨top, parents, .allocated pk doc objsize⟩ pk doc false fails
        (.inserted objsize))
    | _ => none
  | .insertObjectWithPK c pk doc fails => do
    let a ← s.idle? c
    if s.free c pk then some (s.insertObjectWithPK c a pk doc fails) else none
  | .checkGorged c =>
    match s.clients.find? c with
    | some (.active ⟨top, parents, .inserted objsize⟩) =>
      some (s.checkGorged limits c ⟨top, parents, .inserted objsize⟩ objsize)
    | _ => none
  | .trim c =>
    match s.clients.find? c with
    | some (.active ⟨top, parents, .gorged objsize⟩) =>
      if s.deleteMutex.isNone then some (s.trim limits c ⟨top, parents, .gorged objsize⟩ objsize)
      else none
    | _ => none
  | .trimNext c =>
    match s.clients.find? c with
    | some (.active ⟨top, parents, .trimming objsize next bytes objects⟩) =>
      some (s.trimNext limits c ⟨top, parents, .trimming objsize next bytes objects⟩
        objsize next bytes objects)
    | _ => none
  | .statementThrows c =>
    match s.clients.find? c with
    | some (.active a) => if a.phase.pastInsert then some (s.statementThrows c a) else none
    | _ => none
  | .updateObject c pk newObj => do
    let a ← s.idle? c
    let oldObj ← (s.view a).find? pk
    if s.free c pk ∧ newObj.size ≤ oldObj.size then some (s.updateObject c a pk oldObj newObj)
    else none
  | .deleteObjectWithPK c pk => do
    let a ← s.idle? c
    let obj ← (s.view a).find? pk
    if s.free c pk then some (s.deleteObjectWithPK c a pk obj) else none
  | .deleteThrows c pk =>
    match s.clients.find? c with
    | some (.active a) => (s.deleting? c a pk).map (s.deleteThrows c a)
    | _ => none
  | .commitChild c dropped =>
    match s.clients.find? c with
    | some (.active ⟨top, parent :: rest, .idle⟩) =>
      if Rollback.dropped top.rollback parent.rollback = dropped then
        some (s.commitChild c top parent rest)
      else none
    | _ => none
  | .storageCommit c threw =>
    match s.clients.find? c with
    | some (.active ⟨top, [], .idle⟩) =>
      if top.threw = threw then some (s.storageCommit c top) else none
    | _ => none
  | .noteCommit c =>
    match s.clients.find? c with
    | some (.completing parents (.committed r)) => do
      let coll ← s.coll.noteComplete r.context.minPK
      some (s.noteCommit c parents coll)
    | _ => none
  | .storageAbort c shrunk => do
    let a ← s.idle? c
    if a.top.resized = shrunk then some (s.storageAbort c a) else none
  | .noteAbort c =>
    match s.clients.find? c with
    | some (.completing parents (.aborted r)) => do
      let coll ← s.coll.noteComplete r.context.minPK
      some (s.noteAbort c parents r coll)
    | _ => none
  | .forgetLastDeleted c =>
    match s.clients.find? c with
    | some (.completing parents .noted) =>
      if s.deleteMutex.isNone then some (s.forgetLastDeleted c parents) else none
    | _ => none
  | .minUnsafeKey k => if s.coll.minUnsafeKey = k then some s else none

def Step (s : System C Key) (e : Event C Key) (t : System C Key) : Prop :=
  s.perform limits e = some t

/-- What an event does, case by case. -/
inductive Move (s : System C Key) : Event C Key → System C Key → Prop where
  | beginRoot {c} (absent : s.clients.find? c = none) :
      Move s (.begin c) (s.setClient c (some (.active ⟨.fresh, [], .idle⟩)))
  | beginChild {c a} (present : s.clients.find? c = some (.active a)) (idle : a.phase = .idle) :
      Move s (.begin c) (s.setClient c (some (.active a.begin)))
  | getNextPK {c a doc objsize} (present : s.clients.find? c = some (.active a))
      (idle : a.phase = .idle) (fits : doc.size ≤ limits.maxSize) :
      Move s (.getNextPK c doc objsize) (s.getNextPK c a doc objsize)
  | checkUniqueAndInsert {c a pk doc objsize fails}
      (present : s.clients.find? c = some (.active a))
      (phase : a.phase = .allocated pk doc objsize) :
      Move s (.checkUniqueAndInsert c fails)
        (s.checkUniqueAndInsert c a pk doc false fails (.inserted objsize))
  | insertObjectWithPK {c a pk doc fails} (present : s.clients.find? c = some (.active a))
      (idle : a.phase = .idle) (free : s.free c pk) :
      Move s (.insertObjectWithPK c pk doc fails) (s.insertObjectWithPK c a pk doc fails)
  | phase {e c a phase deleteMutex} (trims : e.trims)
      (present : s.clients.find? c = some (.active a))
      (before : ∀ pk doc objsize, a.phase ≠ .allocated pk doc objsize)
      (after : (Client.active { a with phase }).allocated = none) :
      Move s e { s.setClient c (some (.active { a with phase })) with deleteMutex }
  | trimNext {c a pk obj phase deleteMutex} (present : s.clients.find? c = some (.active a))
      (before : ∀ pk doc objsize, a.phase ≠ .allocated pk doc objsize) (free : s.free c pk)
      (found : (s.view a).find? pk = some obj)
      (after : (Client.active (a.write ⟨pk, some obj, none⟩ (a.top.rollback.noteDelete obj.size)
        phase)).allocated = none) :
      Move s (.trimNext c) { s.deleteObject c a pk obj phase with
        coll := { s.coll.count (-1) (-obj.size) with lastDeletedPK := some pk }, deleteMutex }
  | updateObject {c a pk oldObj newObj} (present : s.clients.find? c = some (.active a))
      (idle : a.phase = .idle) (free : s.free c pk) (found : (s.view a).find? pk = some oldObj)
      (noGrow : newObj.size ≤ oldObj.size) :
      Move s (.updateObject c pk newObj) (s.updateObject c a pk oldObj newObj)
  | deleteObjectWithPK {c a pk obj} (present : s.clients.find? c = some (.active a))
      (idle : a.phase = .idle) (free : s.free c pk) (found : (s.view a).find? pk = some obj) :
      Move s (.deleteObjectWithPK c pk) (s.deleteObjectWithPK c a pk obj)
  | deleteThrows {c a pk obj} (present : s.clients.find? c = some (.active a))
      (found : s.deleting? c a pk = some obj) :
      Move s (.deleteThrows c pk) (s.deleteThrows c a obj)
  | commitChild {c a parent rest} (present : s.clients.find? c = some (.active a))
      (idle : a.phase = .idle) (nested : a.parents = parent :: rest) :
      Move s (.commitChild c (Rollback.dropped a.top.rollback parent.rollback))
        (s.commitChild c a.top parent rest)
  | storageCommit {c a} (present : s.clients.find? c = some (.active a)) (idle : a.phase = .idle)
      (root : a.parents = []) :
      Move s (.storageCommit c a.top.threw) (s.storageCommit c a.top)
  | noteCommit {c parents r coll}
      (present : s.clients.find? c = some (.completing parents (.committed r)))
      (done : s.coll.noteComplete r.context.minPK = some coll) :
      Move s (.noteCommit c) (s.noteCommit c parents coll)
  | storageAbort {c a} (present : s.clients.find? c = some (.active a)) (idle : a.phase = .idle) :
      Move s (.storageAbort c a.top.resized) (s.storageAbort c a)
  | noteAbort {c parents r coll}
      (present : s.clients.find? c = some (.completing parents (.aborted r)))
      (done : s.coll.noteComplete r.context.minPK = some coll) :
      Move s (.noteAbort c) (s.noteAbort c parents r coll)
  | forgetLastDeleted {c parents} (present : s.clients.find? c = some (.completing parents .noted))
      (mutex : s.deleteMutex = none) :
      Move s (.forgetLastDeleted c) (s.forgetLastDeleted c parents)
  | minUnsafeKey : Move s (.minUnsafeKey s.coll.minUnsafeKey) s

variable {limits} {s t : System C Key} {e : Event C Key}

theorem Step.move (step : Step limits s e t) : Move limits s e t := by
  unfold Step at step
  cases e with
    simp only [System.perform, Option.bind_eq_bind, Option.bind_eq_some_iff, System.idle?_eq_some,
      Option.ite_none_right_eq_some, Option.some.injEq] at step
  | begin c =>
    cases there : s.clients.find? c with
    | none =>
      rw [there] at step
      cases step
      exact .beginRoot there
    | some client =>
      rw [there] at step
      obtain ⟨a, idle, rfl⟩ := Option.map_eq_some_iff.mp step
      obtain ⟨present, idle⟩ := System.idle?_eq_some.mp idle
      exact .beginChild present idle
  | getNextPK c doc objsize =>
    obtain ⟨a, ⟨present, idle⟩, fits, rfl⟩ := step
    exact .getNextPK present idle fits
  | checkUniqueAndInsert c fails =>
    split at step <;> cases step
    exact .checkUniqueAndInsert ‹_› rfl
  | insertObjectWithPK c pk doc fails =>
    obtain ⟨a, ⟨present, idle⟩, free, rfl⟩ := step
    exact .insertObjectWithPK present idle free
  | checkGorged c =>
    split at step <;> cases step
    refine .phase rfl ‹_› nofun ?_
    split_ifs <;> rfl
  | trim c =>
    split at step <;> simp only [Option.ite_none_right_eq_some, reduceCtorEq] at step
    obtain ⟨-, same⟩ := step
    cases same
    unfold System.trim
    split_ifs <;> exact .phase rfl ‹_› nofun rfl
  | trimNext c =>
    split at step <;> cases step
    unfold System.trimNext
    split
    · exact .phase rfl ‹_› nofun rfl
    · obtain ⟨found, free⟩ := System.oldest_spec ‹_›
      refine .trimNext ‹_› nofun free found ?_
      split_ifs <;> rfl
  | statementThrows c =>
    split at step <;> simp only [Option.ite_none_right_eq_some, reduceCtorEq] at step
    obtain ⟨past, same⟩ := step
    cases same
    exact .phase rfl ‹_› (fun _ _ _ taken => by simp [taken, Phase.pastInsert] at past) rfl
  | updateObject c pk newObj =>
    obtain ⟨a, ⟨present, idle⟩, oldObj, found, ⟨free, noGrow⟩, rfl⟩ := step
    exact .updateObject present idle free found noGrow
  | deleteObjectWithPK c pk =>
    obtain ⟨a, ⟨present, idle⟩, obj, found, free, rfl⟩ := step
    exact .deleteObjectWithPK present idle free found
  | deleteThrows c pk =>
    split at step
    · obtain ⟨obj, found, rfl⟩ := Option.map_eq_some_iff.mp step
      exact .deleteThrows ‹_› found
    · cases step
  | commitChild c dropped =>
    split at step <;> simp only [Option.ite_none_right_eq_some, reduceCtorEq] at step
    obtain ⟨rfl, same⟩ := step
    cases same
    exact .commitChild ‹_› rfl rfl
  | storageCommit c threw =>
    split at step <;> simp only [Option.ite_none_right_eq_some, reduceCtorEq] at step
    obtain ⟨rfl, same⟩ := step
    cases same
    exact .storageCommit ‹_› rfl rfl
  | noteCommit c =>
    split at step
    · obtain ⟨coll, noted, same⟩ := Option.bind_eq_some_iff.mp step
      cases same
      exact .noteCommit ‹_› noted
    · cases step
  | storageAbort c shrunk =>
    obtain ⟨a, ⟨present, idle⟩, rfl, rfl⟩ := step
    exact .storageAbort present idle
  | noteAbort c =>
    split at step
    · obtain ⟨coll, noted, same⟩ := Option.bind_eq_some_iff.mp step
      cases same
      exact .noteAbort ‹_› noted
    · cases step
  | forgetLastDeleted c =>
    split at step <;> simp only [Option.ite_none_right_eq_some, reduceCtorEq] at step
    obtain ⟨mutex, same⟩ := step
    cases same
    exact .forgetLastDeleted ‹_› (Option.isNone_iff_eq_none.mp mutex)
  | minUnsafeKey k =>
    obtain ⟨rfl, rfl⟩ := step
    exact .minUnsafeKey

theorem run_of_foldlM {events : List (Event C Key)}
    (done : events.foldlM (System.perform limits) s = some t) : Run (Step limits) s events t := by
  induction events generalizing s with
  | nil =>
    cases done
    exact .nil _
  | cons e events ih =>
    rw [List.foldlM_cons, Option.bind_eq_bind, Option.bind_eq_some_iff] at done
    obtain ⟨m, first, rest⟩ := done
    exact .cons first (ih rest)

end Model

end TokuMX.Collection.Capped
