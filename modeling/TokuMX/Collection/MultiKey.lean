import Mathlib.Data.Finset.Card
import Mathlib.Data.Finset.SDiff
import Mathlib.Data.List.Nodup
import Mathlib.Data.Nat.Bitwise
import TokuMX.Lib.Exec
import TokuMX.Lib.Runs

/-!
The multikey bits of a collection (`db/collection.cpp`, `db/collection.h`).

A secondary index is multikey once a document has generated more than one key for
it. The bit is set in memory in the middle of the loop over the indexes; the
metadata is serialized only after the call, and only if the call returned with
`indexBitChanged` true.

* `Durable` — every index for which some document generates several keys has its bit
  in the serialized metadata.
* `multikey_durable` — it holds after every run of inserts and updates, successful or
  not, none of which loses a bit (`KeepsBits`).
* `multikey_lost` — two runs that lose one: an index whose bit is already set resets
  the flag that an earlier index raised; and a call that throws leaves its bit in
  memory only, where later calls find it set.

Documents, primary keys and index keys are arbitrary. A failed call leaves no
document behind, and writing the metadata does not fail. Keys can be generated for
every object: parallel arrays, for which the source throws where a unique check
would, are for `IndexWrites`. Indexes being built are left out: the loops skip them.
-/

namespace TokuMX.Collection

open TokuMX.Lib Exec

variable {Doc PK Key : Type}

/-- What the loops ask of a secondary index. -/
structure Index (Doc Key : Type) where
  getKeysFromObject : Doc → Finset Key
  unique : Bool
  clustering : Bool

/-- The fixed part of an `IndexedCollection`. Secondary indexes are numbered from 1,
after the primary key. `inheritIdField` fails when an update changes `_id`. -/
structure Schema (Doc PK Key : Type) where
  secondary : List (Index Doc Key)
  idPrimaryKey : Bool
  getPKFromObject : Doc → PK
  addIdField : Doc → Doc
  inheritIdField : Doc → Doc → Option Doc

/-- The documents, the bits in memory and in the serialized metadata, and the flag of
the call that is running. -/
structure CollectionState (Doc PK : Type) where
  docs : List (PK × Doc)
  multiKeyIndexBits : Nat
  indexBitChanged : Bool
  serialized : Nat
deriving DecidableEq

/-- What a call meets: its flags, its locks, the unique checks that cannot be carried
out, and whether the storage engine refuses the write. -/
structure WriteEnv where
  hasMultTxns : Bool
  isWriteLocked : Bool
  noUniqueChecks : Bool
  keysUnaffected : Bool
  checkFails : Nat → Bool
  storageFails : Bool

inductive WriteError where
  | multiStatement
  | retryWithWriteLock
  | dupKey (idxNum : Nat)
  | storage
  | idChanged
  | notMultiKey
deriving DecidableEq

/-- One round of a loop over the indexes: whether a unique check throws, and whether
the new object has several keys. -/
structure IndexWork where
  idxNum : Nat
  checkThrows : Bool
  multikey : Bool
deriving DecidableEq

/-- `bits | (1 << idxNum)`. -/
def setBit (bits idxNum : Nat) : Nat := bits ||| 1 <<< idxNum

@[simp] theorem testBit_setBit (bits i j : Nat) :
    (setBit bits i).testBit j = (bits.testBit j || decide (i = j)) := by
  simp only [setBit, Nat.testBit_or, Nat.one_shiftLeft, Nat.testBit_two_pow]

section Calls

variable (env : WriteEnv)

abbrev WriteM (Doc PK α : Type) := Exec (CollectionState Doc PK) WriteError α

/-- `CollectionBase::setIndexIsMultikey`. -/
def setIndexIsMultikey (idxNum : Nat) : WriteM Doc PK Unit := do
  let s ← Exec.get
  if s.multiKeyIndexBits.testBit idxNum then
    Exec.modify fun s => { s with indexBitChanged := false }
  else
    Exec.throwIf env.hasMultTxns .multiStatement
    Exec.throwIf (!env.isWriteLocked) .retryWithWriteLock
    Exec.modify fun s => { s with
      indexBitChanged := true
      multiKeyIndexBits := setBit s.multiKeyIndexBits idxNum }

/-- The loops over the indexes of `insertIntoIndexes` and `updateObject`. -/
def prepareIndexes : List IndexWork → WriteM Doc PK Unit
  | [] => pure ()
  | work :: rest => do
    Exec.throwIf work.checkThrows (.dupKey work.idxNum)
    if work.multikey then setIndexIsMultikey env work.idxNum
    prepareIndexes rest

variable [DecidableEq PK] [DecidableEq Key]

/-- Some document has the key already. -/
def hasKey (docs : List (PK × Doc)) (idx : Index Doc Key) (key : Key) : Bool :=
  docs.any fun (_, d) => key ∈ idx.getKeysFromObject d

/-- The round for index `i`: `checked` are the keys that go through `uniqueCheck`. -/
def indexWork (docs : List (PK × Doc)) (idx : Index Doc Key) (i : Nat) (checked : Finset Key)
    (obj : Doc) : IndexWork where
  idxNum := i
  checkThrows := idx.unique && !env.noUniqueChecks &&
    decide (∃ key ∈ checked, hasKey docs idx key ∨ env.checkFails i)
  multikey := 1 < (idx.getKeysFromObject obj).card

variable (schema : Schema Doc PK Key)

/-- An insert checks every key of every index. -/
def insertWork (docs : List (PK × Doc)) (obj : Doc) : List IndexWork :=
  (schema.secondary.zipIdx 1).map fun (idx, i) =>
    indexWork env docs idx i (idx.getKeysFromObject obj) obj

/-- An update skips the indexes whose keys and documents cannot change, and checks
only the keys that are new. -/
def updateWork (docs : List (PK × Doc)) (oldObj newObj : Doc) : List IndexWork :=
  ((schema.secondary.zipIdx 1).filter fun (idx, _) => !env.keysUnaffected || idx.clustering).map
    fun (idx, i) => indexWork env docs idx i
      (if env.keysUnaffected then ∅
        else idx.getKeysFromObject newObj \ idx.getKeysFromObject oldObj) newObj

def putDoc (docs : List (PK × Doc)) (pk : PK) (obj : Doc) : List (PK × Doc) :=
  (docs.filter fun (pk', _) => pk' ≠ pk) ++ [(pk, obj)]

def delDoc (docs : List (PK × Doc)) (pk : PK) : List (PK × Doc) :=
  docs.filter fun (pk', _) => pk' ≠ pk

/-- `put_multiple` fails: on its own account, or because `DB_NOOVERWRITE` finds the
primary key. -/
def putFails (docs : List (PK × Doc)) (checkPK : Bool) (pk : PK) : Bool :=
  env.storageFails || checkPK && docs.any fun (pk', _) => pk' = pk

/-- `CollectionBase::insertIntoIndexes`. -/
def insertIntoIndexes (checkPK : Bool) (pk : PK) (obj : Doc) : WriteM Doc PK Unit := do
  Exec.modify fun s => { s with indexBitChanged := false }
  let s ← Exec.get
  prepareIndexes env (insertWork env schema s.docs obj)
  Exec.throwIf (putFails env s.docs checkPK pk) .storage
  Exec.modify fun s => { s with docs := putDoc s.docs pk obj }

/-- The `verify(isMultiKey(i))` of `deleteFromIndexes` fails. -/
def deleteUnverified (bits : Nat) (obj : Doc) : Bool :=
  (schema.secondary.zipIdx 1).any fun (idx, i) =>
    1 < (idx.getKeysFromObject obj).card && !bits.testBit i

/-- `CollectionBase::deleteFromIndexes`. -/
def deleteFromIndexes (pk : PK) (obj : Doc) : WriteM Doc PK Unit := do
  let s ← Exec.get
  Exec.throwIf (deleteUnverified schema s.multiKeyIndexBits obj) .notMultiKey
  Exec.throwIf env.storageFails .storage
  Exec.modify fun s => { s with docs := delDoc s.docs pk }

/-- `CollectionBase::updateObject`, which keeps the primary key. -/
def updateInIndexes (pk : PK) (oldObj newObj : Doc) : WriteM Doc PK Unit := do
  Exec.modify fun s => { s with indexBitChanged := false }
  let s ← Exec.get
  prepareIndexes env (updateWork env schema s.docs oldObj newObj)
  Exec.throwIf env.storageFails .storage
  Exec.modify fun s => { s with docs := putDoc s.docs pk newObj }

/-- `IndexedCollection::insertObject`. -/
def indexedInsertObject (obj : Doc) : WriteM Doc PK Unit :=
  let obj := schema.addIdField obj
  insertIntoIndexes env schema (!env.noUniqueChecks && schema.idPrimaryKey)
    (schema.getPKFromObject obj) obj

/-- `IndexedCollection::updateObject`. -/
def indexedUpdateObject (pk : PK) (oldObj newObj : Doc) : WriteM Doc PK Unit := do
  let newObj ← Exec.ofOption .idChanged (schema.inheritIdField oldObj newObj)
  if schema.idPrimaryKey || schema.getPKFromObject newObj = pk then
    updateInIndexes env schema pk oldObj newObj
  else
    deleteFromIndexes env schema pk oldObj
    insertIntoIndexes env schema (!env.noUniqueChecks) (schema.getPKFromObject newObj) newObj

/-- `Collection::insertObject` and `updateObject` around the collection's own: the
metadata is serialized when the flag is up at the end. -/
def notingMultiKeyChanged (body : WriteM Doc PK Unit) : WriteM Doc PK Unit := do
  Exec.modify fun s => { s with indexBitChanged := false }
  body
  let s ← Exec.get
  if s.indexBitChanged then
    Exec.modify fun s => { s with serialized := s.multiKeyIndexBits }

end Calls

/-- A write from outside. -/
inductive Write (Doc PK : Type) where
  | insert (env : WriteEnv) (obj : Doc)
  | update (env : WriteEnv) (pk : PK) (oldObj newObj : Doc)

section Writes

variable [DecidableEq PK] [DecidableEq Key] (schema : Schema Doc PK Key)

def Write.run : Write Doc PK → WriteM Doc PK Unit
  | .insert env obj => notingMultiKeyChanged (indexedInsertObject env schema obj)
  | .update env pk oldObj newObj =>
    notingMultiKeyChanged (indexedUpdateObject env schema pk oldObj newObj)

/-- The collection after a write. When it fails, its storage writes are undone and what
it did to the bits in memory stays. -/
def CollectionState.apply (s : CollectionState Doc PK) (w : Write Doc PK) :
    CollectionState Doc PK :=
  match w.run schema s with
  | (.returned _, s') => s'
  | (_, s') => { s' with docs := s.docs }

/-- Callers update documents that are there, and give the keys-unaffected hint only
when it is true. -/
def Write.Valid (s : CollectionState Doc PK) : Write Doc PK → Prop
  | .insert _ _ => True
  | .update env pk oldObj newObj => (pk, oldObj) ∈ s.docs ∧
      (env.keysUnaffected → ∀ obj, schema.inheritIdField oldObj newObj = some obj →
        ∀ idx ∈ schema.secondary, idx.getKeysFromObject obj = idx.getKeysFromObject oldObj)

/-- Every index for which some document generates several keys has its bit. -/
def Covers (docs : List (PK × Doc)) (bits : Nat) : Prop :=
  ∀ p ∈ docs, ∀ entry ∈ schema.secondary.zipIdx 1, 1 < (entry.1.getKeysFromObject p.2).card →
    bits.testBit entry.2

/-- Reopening the collection from its metadata finds every multikey index marked. -/
def CollectionState.Durable (s : CollectionState Doc PK) : Prop := Covers schema s.docs s.serialized

end Writes

/-! ### Which calls keep their bits -/

/-- A bit may be set. -/
def WriteEnv.permits (env : WriteEnv) : Bool := !env.hasMultTxns && env.isWriteLocked

/-- The loop sets a bit: it gets to an index with several keys whose bit is unset. -/
def setsBit (env : WriteEnv) (bits : Nat) : List IndexWork → Bool
  | [] => false
  | work :: rest =>
    !work.checkThrows &&
      if work.multikey && !bits.testBit work.idxNum then env.permits else setsBit env bits rest

/-- The last index with several keys is one whose bit is unset, if there is one. -/
def lastIsNew (bits : Nat) (old : Bool) : List IndexWork → Bool
  | [] => old
  | work :: rest =>
    lastIsNew bits (if work.multikey then !bits.testBit work.idxNum else old) rest

/-- If the loop sets a bit, no unique check throws, the write after the loop succeeds,
and the last index with several keys is one whose bit was unset. -/
def KeepsIn (env : WriteEnv) (bits : Nat) (work : List IndexWork) (writeFails : Bool) : Prop :=
  setsBit env bits work → (∀ w ∈ work, w.checkThrows = false) ∧ writeFails = false ∧
    lastIsNew bits false work

/-- The write does not lose a bit. -/
def KeepsBits [DecidableEq PK] [DecidableEq Key] (schema : Schema Doc PK Key)
    (s : CollectionState Doc PK) : Write Doc PK → Prop
  | .insert env obj =>
    let obj := schema.addIdField obj
    KeepsIn env s.multiKeyIndexBits (insertWork env schema s.docs obj)
      (putFails env s.docs (!env.noUniqueChecks && schema.idPrimaryKey)
        (schema.getPKFromObject obj))
  | .update env pk oldObj newObj =>
    ∀ obj, schema.inheritIdField oldObj newObj = some obj →
      if schema.idPrimaryKey || schema.getPKFromObject obj = pk then
        KeepsIn env s.multiKeyIndexBits (updateWork env schema s.docs oldObj obj)
          env.storageFails
      else deleteUnverified schema s.multiKeyIndexBits oldObj ∨ env.storageFails ∨
        KeepsIn env s.multiKeyIndexBits (insertWork env schema (delDoc s.docs pk) obj)
          (putFails env (delDoc s.docs pk) (!env.noUniqueChecks) (schema.getPKFromObject obj))

variable {bits' : Nat}

section Loop

variable {env : WriteEnv} {s s' : CollectionState Doc PK} {outcome : Outcome WriteError Unit}

/-- The three things `setIndexIsMultikey` can do. -/
theorem setIndexIsMultikey_cases (env : WriteEnv) (s : CollectionState Doc PK) (idxNum : Nat) :
    (s.multiKeyIndexBits.testBit idxNum = true ∧
      setIndexIsMultikey env idxNum s = (.returned (), { s with indexBitChanged := false })) ∨
    (s.multiKeyIndexBits.testBit idxNum = false ∧ env.permits = true ∧
      setIndexIsMultikey env idxNum s = (.returned (), { s with
        indexBitChanged := true, multiKeyIndexBits := setBit s.multiKeyIndexBits idxNum })) ∨
    (s.multiKeyIndexBits.testBit idxNum = false ∧ env.permits = false ∧
      ∃ e, setIndexIsMultikey env idxNum s = (.thrown e, s)) := by
  cases bit : s.multiKeyIndexBits.testBit idxNum <;> cases mult : env.hasMultTxns <;>
    cases locked : env.isWriteLocked <;>
    simp [setIndexIsMultikey, WriteEnv.permits, bit, mult, locked]

variable {works : List IndexWork}

/-- The loop touches only the bits in memory and the flag; it never unsets a bit, and
if it gets through, every index with several keys has its bit. -/
theorem prepareIndexes_spec (result : prepareIndexes env works s = (outcome, s')) :
    s'.docs = s.docs ∧ s'.serialized = s.serialized ∧ outcome ≠ .aborted ∧
      (∀ i, s.multiKeyIndexBits.testBit i → s'.multiKeyIndexBits.testBit i) ∧
      (outcome = .returned () →
        ∀ w ∈ works, w.multikey → s'.multiKeyIndexBits.testBit w.idxNum) := by
  induction works generalizing s with
  | nil =>
    cases result
    exact ⟨rfl, rfl, by simp, fun _ => id, by simp⟩
  | cons work works ih =>
    cases throws : work.checkThrows with
    | true =>
      simp only [prepareIndexes, throws, throwIf_true, bind_apply, throw_apply] at result
      cases result
      exact ⟨rfl, rfl, by simp, fun _ => id, by simp⟩
    | false =>
      cases multi : work.multikey with
      | false =>
        simp only [prepareIndexes, throws, multi, throwIf_false, bind_apply, pure_apply] at result
        obtain ⟨docs, serialized, running, kept, all⟩ := ih (by simpa using result)
        refine ⟨docs, serialized, running, kept, fun returned w mem several => ?_⟩
        rcases List.mem_cons.mp mem with rfl | later
        · simp [multi] at several
        · exact all returned w later several
      | true =>
        simp only [prepareIndexes, throws, multi, throwIf_false, bind_apply,
          pure_apply, if_true] at result
        rcases setIndexIsMultikey_cases env s work.idxNum with
          ⟨bit, set⟩ | ⟨bit, -, set⟩ | ⟨-, -, e, threw⟩
        · rw [set] at result
          obtain ⟨docs, serialized, running, kept, all⟩ := ih result
          refine ⟨docs, serialized, running, kept, fun returned w mem several => ?_⟩
          rcases List.mem_cons.mp mem with rfl | later
          · exact kept _ bit
          · exact all returned w later several
        · rw [set] at result
          obtain ⟨docs, serialized, running, kept, all⟩ := ih result
          refine ⟨docs, serialized, running, fun i bit => kept i ?_,
            fun returned w mem several => ?_⟩
          · simp [bit]
          · rcases List.mem_cons.mp mem with rfl | later
            · exact kept _ (by simp)
            · exact all returned w later several
        · rw [threw] at result
          cases result
          exact ⟨rfl, rfl, by simp, fun _ => id, by simp⟩

/-- A loop that does not get to an unset bit leaves the bits alone. -/
theorem prepareIndexes_quiet (quiet : setsBit env s.multiKeyIndexBits works = false)
    (result : prepareIndexes env works s = (outcome, s')) :
    s'.multiKeyIndexBits = s.multiKeyIndexBits := by
  induction works generalizing s with
  | nil =>
    cases result
    rfl
  | cons work works ih =>
    cases throws : work.checkThrows with
    | true =>
      simp only [prepareIndexes, throws, throwIf_true, bind_apply, throw_apply] at result
      cases result
      rfl
    | false =>
      cases multi : work.multikey with
      | false =>
        simp only [prepareIndexes, throws, multi, throwIf_false, bind_apply, pure_apply] at result
        simp only [setsBit, throws, multi] at quiet
        exact ih (by simpa using quiet) (by simpa using result)
      | true =>
        simp only [prepareIndexes, throws, multi, throwIf_false, bind_apply,
          pure_apply, if_true] at result
        rcases setIndexIsMultikey_cases env s work.idxNum with
          ⟨bit, set⟩ | ⟨bit, permits, -⟩ | ⟨-, -, e, threw⟩
        · rw [set] at result
          simp only [setsBit, throws, multi, bit] at quiet
          exact ih (s := { s with indexBitChanged := false }) (by simpa using quiet) result
        · simp [setsBit, throws, multi, bit, permits] at quiet
        · rw [threw] at result
          cases result
          rfl

theorem permits_of_setsBit {bits : Nat} (sets : setsBit env bits works) : env.permits := by
  induction works with
  | nil => simp [setsBit] at sets
  | cons work works ih =>
    simp only [setsBit, Bool.and_eq_true] at sets
    by_cases new : work.multikey = true ∧ (!bits.testBit work.idxNum) = true
    · rw [if_pos new] at sets
      exact sets.2
    · rw [if_neg new] at sets
      exact ih sets.2

theorem lastIsNew_congr {bits : Nat}
    (same : ∀ w ∈ works, bits'.testBit w.idxNum = bits.testBit w.idxNum) (old : Bool) :
    lastIsNew bits' old works = lastIsNew bits old works := by
  induction works generalizing old with
  | nil => rfl
  | cons work works ih =>
    simp only [lastIsNew, same work List.mem_cons_self]
    exact ih (fun w mem => same w (List.mem_cons_of_mem _ mem)) _

/-- A loop that may set bits and whose checks pass gets through; the flag tells whether
the last index with several keys was new. -/
theorem prepareIndexes_flag (permits : env.permits) (passes : ∀ w ∈ works, w.checkThrows = false)
    (distinct : (works.map (·.idxNum)).Nodup) :
    ∃ s', prepareIndexes env works s = (.returned (), s') ∧
      s'.indexBitChanged = lastIsNew s.multiKeyIndexBits s.indexBitChanged works := by
  induction works generalizing s with
  | nil => exact ⟨s, rfl, rfl⟩
  | cons work works ih =>
    have passesHere := passes work List.mem_cons_self
    have passesLater := fun w mem => passes w (List.mem_cons_of_mem work mem)
    rw [List.map_cons, List.nodup_cons] at distinct
    cases multi : work.multikey with
    | false =>
      obtain ⟨s', result, flag⟩ := ih (s := s) passesLater distinct.2
      exact ⟨s', by simpa [prepareIndexes, passesHere, multi] using result,
        by simpa [lastIsNew, multi] using flag⟩
    | true =>
      rcases setIndexIsMultikey_cases env s work.idxNum with
        ⟨bit, set⟩ | ⟨bit, -, set⟩ | ⟨-, refused, -⟩
      · obtain ⟨s', result, flag⟩ :=
          ih (s := { s with indexBitChanged := false }) passesLater distinct.2
        exact ⟨s', by simpa [prepareIndexes, passesHere, multi, set] using result,
          by simpa [lastIsNew, multi, bit] using flag⟩
      · obtain ⟨s', result, flag⟩ := ih (s := { s with
          indexBitChanged := true
          multiKeyIndexBits := setBit s.multiKeyIndexBits work.idxNum })
          passesLater distinct.2
        refine ⟨s', by simpa [prepareIndexes, passesHere, multi, set] using result, ?_⟩
        -- the bit just set is that of no later index
        have untouched : ∀ w ∈ works, (setBit s.multiKeyIndexBits work.idxNum).testBit w.idxNum =
              s.multiKeyIndexBits.testBit w.idxNum := by
          intro w mem
          have other : work.idxNum ≠ w.idxNum := by
            intro same
            exact distinct.1 (same ▸ List.mem_map_of_mem mem)
          simp [other]
        rw [flag, lastIsNew_congr untouched]
        simp [lastIsNew, multi, bit]
      · simp [permits] at refused

end Loop

/-! ### What the bits cover -/

variable {oldObj : Doc}

section Coverage

variable {env : WriteEnv} {schema : Schema Doc PK Key} {docs : List (PK × Doc)} {bits : Nat}
  {s : CollectionState Doc PK} {obj : Doc}

theorem Covers.mono (covers : Covers schema docs bits)
    (kept : ∀ i, bits.testBit i → bits'.testBit i) : Covers schema docs bits' :=
  fun p mem entry indexed several => kept _ (covers p mem entry indexed several)

/-- Between calls the serialized bits are those in memory, and they cover the documents. -/
structure BitsInv (schema : Schema Doc PK Key) (s : CollectionState Doc PK) : Prop where
  agree : s.serialized = s.multiKeyIndexBits
  covers : Covers schema s.docs s.multiKeyIndexBits

/-- How a body ends that loses no bit: it returns with the documents covered and, when
the flag is down, the bits as they were; or it throws with the bits as they were. -/
def Settles (schema : Schema Doc PK Key) (bits serialized : Nat) :
    Outcome WriteError Unit × CollectionState Doc PK → Prop
  | (.returned _, s') => Covers schema s'.docs s'.multiKeyIndexBits ∧
      s'.serialized = serialized ∧ (s'.indexBitChanged = false → s'.multiKeyIndexBits = bits)
  | (.thrown _, s') => s'.serialized = serialized ∧ s'.multiKeyIndexBits = bits
  | (.aborted, _) => False

/-- Noting the change after a body that loses no bit restores the invariant, whether the
body returned or threw. -/
theorem notingMultiKeyChanged_inv {body : WriteM Doc PK Unit} (inv : BitsInv schema s)
    (settles : ∀ start : CollectionState Doc PK, start.docs = s.docs →
      start.multiKeyIndexBits = s.multiKeyIndexBits → start.serialized = s.serialized →
      Settles schema s.multiKeyIndexBits s.serialized (body start)) :
    BitsInv schema (match notingMultiKeyChanged body s with
      | (.returned _, s') => s'
      | (_, s') => { s' with docs := s.docs }) := by
  have settled := settles { s with indexBitChanged := false } rfl rfl rfl
  rcases result : body { s with indexBitChanged := false } with ⟨outcome, s'⟩
  rw [result] at settled
  cases outcome with
  | aborted => exact settled.elim
  | thrown e =>
    obtain ⟨serialized, bits⟩ := settled
    simp only [notingMultiKeyChanged, bind_apply, modify_apply, result]
    exact ⟨serialized.trans (inv.agree.trans bits.symm), by simpa [bits] using inv.covers⟩
  | returned =>
    obtain ⟨covers, serialized, down⟩ := settled
    simp only [notingMultiKeyChanged, bind_apply, modify_apply, get_apply, result]
    by_cases changed : s'.indexBitChanged = true
    · rw [if_pos changed]
      exact ⟨rfl, covers⟩
    · rw [if_neg changed]
      exact ⟨serialized.trans (inv.agree.trans (down (by simpa using changed)).symm), covers⟩

section Work

variable [DecidableEq Key]

theorem insertWork_distinct (docs : List (PK × Doc)) (obj : Doc) :
    ((insertWork env schema docs obj).map (·.idxNum)).Nodup := by
  have numbers : (insertWork env schema docs obj).map (·.idxNum) =
      (schema.secondary.zipIdx 1).map Prod.snd := by
    simp [insertWork, indexWork, Function.comp_def]
  rw [numbers, List.zipIdx_map_snd]
  exact List.nodup_range'

theorem updateWork_distinct (docs : List (PK × Doc)) (oldObj obj : Doc) :
    ((updateWork env schema docs oldObj obj).map (·.idxNum)).Nodup := by
  have numbers : (updateWork env schema docs oldObj obj).map (·.idxNum) =
      ((schema.secondary.zipIdx 1).filter fun (idx, _) =>
        !env.keysUnaffected || idx.clustering).map Prod.snd := by
    simp [updateWork, indexWork, Function.comp_def]
  rw [numbers]
  refine List.Nodup.sublist (List.Sublist.map _ List.filter_sublist) ?_
  rw [List.zipIdx_map_snd]
  exact List.nodup_range'

/-- What an insert's loop marks covers the inserted document. -/
theorem insertWork_covers
    (marked : ∀ w ∈ insertWork env schema docs obj, w.multikey → bits.testBit w.idxNum) :
    ∀ entry ∈ schema.secondary.zipIdx 1,
      1 < (entry.1.getKeysFromObject obj).card → bits.testBit entry.2 := by
  intro entry indexed several
  exact marked _ (List.mem_map_of_mem indexed) (by simpa [indexWork] using several)

/-- What an update's loop marks, with what the old document had marked, covers the new
one. -/
theorem updateWork_covers (covers : Covers schema docs bits) {pk : PK}
    (present : (pk, oldObj) ∈ docs)
    (hint : env.keysUnaffected → ∀ idx ∈ schema.secondary, idx.getKeysFromObject obj =
      idx.getKeysFromObject oldObj)
    (kept : ∀ i, bits.testBit i → bits'.testBit i)
    (marked : ∀ w ∈ updateWork env schema docs oldObj obj, w.multikey → bits'.testBit w.idxNum) :
    ∀ entry ∈ schema.secondary.zipIdx 1,
      1 < (entry.1.getKeysFromObject obj).card → bits'.testBit entry.2 := by
  intro entry indexed several
  by_cases visited : (!env.keysUnaffected || entry.1.clustering) = true
  · exact marked _ (List.mem_map_of_mem (List.mem_filter.mpr ⟨indexed, visited⟩))
      (by simpa [indexWork] using several)
  · have unaffected : env.keysUnaffected = true := by
      cases env_hint : env.keysUnaffected <;> simp [env_hint] at visited ⊢
    have known : entry.1 ∈ schema.secondary := List.fst_mem_of_mem_zipIdx indexed
    rw [hint unaffected _ known] at several
    exact kept _ (covers _ present entry indexed several)

end Work

variable [DecidableEq PK]

theorem Covers.delDoc (covers : Covers schema docs bits) (pk : PK) :
    Covers schema (delDoc docs pk) bits :=
  fun p mem => covers p (List.mem_filter.mp mem).1

theorem Covers.putDoc (covers : Covers schema docs bits) (pk : PK)
    (obj_covered : ∀ entry ∈ schema.secondary.zipIdx 1,
      1 < (entry.1.getKeysFromObject obj).card → bits.testBit entry.2) :
    Covers schema (putDoc docs pk obj) bits := by
  intro p mem
  rcases List.mem_append.mp mem with before | new
  · exact covers p (List.mem_filter.mp before).1
  · rw [List.mem_singleton.mp new]
    exact obj_covered

end Coverage

/-! ### One write -/

section OneWrite

/-- The common shape of `insertIntoIndexes` and `updateInIndexes`: the loop, the storage
write, the new document. -/
def writeIndexed [DecidableEq PK] (env : WriteEnv) (works : List IndexWork) (fails : Bool)
    (pk : PK) (obj : Doc) : WriteM Doc PK Unit := do
  Exec.modify fun s => { s with indexBitChanged := false }
  prepareIndexes env works
  Exec.throwIf fails .storage
  Exec.modify fun s => { s with docs := putDoc s.docs pk obj }

variable [DecidableEq PK] {env : WriteEnv} {works : List IndexWork} {fails : Bool}
  {pk : PK} {obj : Doc} {s s' : CollectionState Doc PK}

theorem writeIndexed_cases (distinct : (works.map (·.idxNum)).Nodup)
    (keeps : KeepsIn env s.multiKeyIndexBits works fails) :
    (∃ s', writeIndexed env works fails pk obj s = (.returned (), s') ∧
      s'.docs = putDoc s.docs pk obj ∧ s'.serialized = s.serialized ∧
      (∀ i, s.multiKeyIndexBits.testBit i → s'.multiKeyIndexBits.testBit i) ∧
      (∀ w ∈ works, w.multikey → s'.multiKeyIndexBits.testBit w.idxNum) ∧
      (s'.indexBitChanged = false → s'.multiKeyIndexBits = s.multiKeyIndexBits)) ∨
    (∃ e s', writeIndexed env works fails pk obj s = (.thrown e, s') ∧
      s'.serialized = s.serialized ∧ s'.multiKeyIndexBits = s.multiKeyIndexBits) := by
  let start : CollectionState Doc PK := { s with indexBitChanged := false }
  rcases result : prepareIndexes env works start with ⟨outcome, mid⟩
  obtain ⟨docs, serialized, running, kept, all⟩ := prepareIndexes_spec result
  -- either the loop set no bit, or everything after it goes well and the flag is up
  have settled : mid.multiKeyIndexBits = s.multiKeyIndexBits ∨
      outcome = .returned () ∧ fails = false ∧ mid.indexBitChanged = true := by
    by_cases sets : setsBit env s.multiKeyIndexBits works = true
    · obtain ⟨passes, written, last⟩ := keeps sets
      obtain ⟨s', through, flag⟩ :=
        prepareIndexes_flag (s := start) (permits_of_setsBit sets) passes distinct
      rw [result] at through
      cases through
      exact .inr ⟨rfl, written, flag.trans last⟩
    · exact .inl (prepareIndexes_quiet (s := start) (by simpa using sets) result)
  cases outcome with
  | aborted => exact absurd rfl running
  | thrown e =>
    refine .inr ⟨e, mid, ?_, serialized, ?_⟩
    · simp [writeIndexed, start] at result ⊢
      simp [result]
    · rcases settled with same | ⟨returned, -⟩
      · exact same
      · cases returned
  | returned =>
    cases fails with
    | true =>
      refine .inr ⟨.storage, mid, ?_, serialized, ?_⟩
      · simp [writeIndexed, start] at result ⊢
        simp [result]
      · rcases settled with same | ⟨-, written, -⟩
        · exact same
        · cases written
    | false =>
      refine .inl ⟨{ mid with docs := putDoc mid.docs pk obj }, ?_, by rw [docs],
        serialized, kept, all rfl, ?_⟩
      · simp [writeIndexed, start] at result ⊢
        simp [result]
      · intro down
        rcases settled with same | ⟨-, -, up⟩
        · exact same
        · simp [up] at down

variable [DecidableEq Key] {schema : Schema Doc PK Key}

section

variable (covers : Covers schema s.docs s.multiKeyIndexBits)
include covers

theorem insertIntoIndexes_settles {checkPK : Bool}
    (keeps : KeepsIn env s.multiKeyIndexBits (insertWork env schema s.docs obj)
      (putFails env s.docs checkPK pk)) :
    Settles schema s.multiKeyIndexBits s.serialized
      (insertIntoIndexes env schema checkPK pk obj s) := by
  have shape : insertIntoIndexes env schema checkPK pk obj s =
      writeIndexed env (insertWork env schema s.docs obj) (putFails env s.docs checkPK pk)
        pk obj s := rfl
  rw [shape]
  rcases writeIndexed_cases (insertWork_distinct s.docs obj) keeps with
    ⟨s', result, docs, serialized, kept, marked, down⟩ | ⟨e, s', result, serialized, bits⟩
  · rw [result]
    refine ⟨?_, serialized, down⟩
    rw [docs]
    exact (covers.mono kept).putDoc pk (insertWork_covers marked)
  · rw [result]
    exact ⟨serialized, bits⟩

theorem updateInIndexes_settles (present : (pk, oldObj) ∈ s.docs)
    (hint : env.keysUnaffected → ∀ idx ∈ schema.secondary,
      idx.getKeysFromObject obj = idx.getKeysFromObject oldObj)
    (keeps : KeepsIn env s.multiKeyIndexBits (updateWork env schema s.docs oldObj obj)
      env.storageFails) :
    Settles schema s.multiKeyIndexBits s.serialized
      (updateInIndexes env schema pk oldObj obj s) := by
  have shape : updateInIndexes env schema pk oldObj obj s =
      writeIndexed env (updateWork env schema s.docs oldObj obj) env.storageFails pk obj s := rfl
  rw [shape]
  rcases writeIndexed_cases (updateWork_distinct s.docs oldObj obj) keeps with
    ⟨s', result, docs, serialized, kept, marked, down⟩ | ⟨e, s', result, serialized, bits⟩
  · rw [result]
    refine ⟨?_, serialized, down⟩
    rw [docs]
    exact (covers.mono kept).putDoc pk (updateWork_covers covers present hint kept marked)
  · rw [result]
    exact ⟨serialized, bits⟩

/-- The delete of an update that moves the primary key comes first; the insert then sees
the collection without the old document. -/
theorem deleteThenInsert_settles {oldPK : PK} {checkPK : Bool}
    (keeps : deleteUnverified schema s.multiKeyIndexBits oldObj ∨ env.storageFails ∨
      KeepsIn env s.multiKeyIndexBits (insertWork env schema (delDoc s.docs oldPK) obj)
        (putFails env (delDoc s.docs oldPK) checkPK pk)) :
    Settles schema s.multiKeyIndexBits s.serialized ((do
      deleteFromIndexes env schema oldPK oldObj
      insertIntoIndexes env schema checkPK pk obj) s) := by
  cases unverified : deleteUnverified schema s.multiKeyIndexBits oldObj with
  | true => simp [deleteFromIndexes, unverified, Settles]
  | false =>
    cases refused : env.storageFails with
    | true => simp [deleteFromIndexes, unverified, refused, Settles]
    | false =>
      rw [unverified, refused] at keeps
      have inserted := insertIntoIndexes_settles (s := { s with docs := delDoc s.docs oldPK })
        (covers.delDoc oldPK) (by simpa using keeps)
      simpa [deleteFromIndexes, unverified, refused] using inserted

theorem indexedUpdateObject_settles {newObj : Doc}
    (valid : (Write.update env pk oldObj newObj).Valid schema s)
    (keeps : KeepsBits schema s (.update env pk oldObj newObj)) :
    Settles schema s.multiKeyIndexBits s.serialized
      (indexedUpdateObject env schema pk oldObj newObj s) := by
  obtain ⟨present, hint⟩ := valid
  cases inherited : schema.inheritIdField oldObj newObj with
  | none => simp [indexedUpdateObject, inherited, ofOption, Settles]
  | some obj =>
    have keepsHere := keeps obj inherited
    have hintHere := fun unaffected => hint unaffected obj inherited
    by_cases same : (schema.idPrimaryKey || decide (schema.getPKFromObject obj = pk)) = true
    · rw [if_pos same] at keepsHere
      simpa only [indexedUpdateObject, inherited, ofOption_some, bind_apply,
        pure_apply, ite_apply, if_pos same]
        using updateInIndexes_settles covers present hintHere keepsHere
    · rw [if_neg same] at keepsHere
      simpa only [indexedUpdateObject, inherited, ofOption_some, bind_apply,
        pure_apply, ite_apply, if_neg same]
        using deleteThenInsert_settles covers keepsHere

end

theorem BitsInv.apply (inv : BitsInv schema s) {w : Write Doc PK} (valid : w.Valid schema s)
    (keeps : KeepsBits schema s w) : BitsInv schema (s.apply schema w) := by
  cases w with
  | insert env obj =>
    apply notingMultiKeyChanged_inv inv
    intro start docs bits serialized
    rw [← bits, ← serialized]
    apply insertIntoIndexes_settles
    · rw [docs, bits]
      exact inv.covers
    · rw [docs, bits]
      exact keeps
  | update env pk oldObj newObj =>
    apply notingMultiKeyChanged_inv inv
    intro start docs bits serialized
    rw [← bits, ← serialized]
    apply indexedUpdateObject_settles
    · rw [docs, bits]
      exact inv.covers
    · unfold Write.Valid
      rw [docs]
      exact valid
    · unfold KeepsBits
      rw [docs, bits]
      exact keeps

end OneWrite

/-! ### Runs -/

section Runs

variable [DecidableEq PK] [DecidableEq Key] (schema : Schema Doc PK Key)

/-- A write that its caller may make and that loses no bit. -/
def KeepingStep (s : CollectionState Doc PK) (w : Write Doc PK) (s' : CollectionState Doc PK) :
    Prop :=
  w.Valid schema s ∧ KeepsBits schema s w ∧ s' = s.apply schema w

/-- **Multikey bits are durable.** From a collection whose serialized bits are those in
memory and cover its documents, after any run of writes, failed ones included, none of
which loses a bit, the serialized bits cover the documents. -/
theorem multikey_durable {s s' : CollectionState Doc PK} {writes : List (Write Doc PK)}
    (agree : s.serialized = s.multiKeyIndexBits) (durable : s.Durable schema)
    (run : Run (KeepingStep schema) s writes s') : s'.Durable schema := by
  have start : BitsInv schema s := ⟨agree, agree ▸ durable⟩
  have kept : ∀ a w b, BitsInv schema a → KeepingStep schema a w b → BitsInv schema b := by
    rintro a w b before ⟨valid, keeps, rfl⟩
    exact before.apply valid keeps
  have inv : BitsInv schema s' := run.invariant kept start
  unfold CollectionState.Durable
  rw [inv.agree]
  exact inv.covers

end Runs

/-! ### Runs on two array fields -/

/-- Documents `(_id, a, b)` under an index on `a` and one on `b`. -/
def twoArrays (uniqueB : Bool) : Schema (Nat × List Nat × List Nat) Nat Nat where
  secondary :=
    [{ getKeysFromObject := fun d => d.2.1.toFinset, unique := false, clustering := false },
      { getKeysFromObject := fun d => d.2.2.toFinset, unique := uniqueB, clustering := false }]
  idPrimaryKey := true
  getPKFromObject := Prod.fst
  addIdField := id
  inheritIdField := fun old new => if old.1 = new.1 then some new else none

def emptyCollection : CollectionState (Nat × List Nat × List Nat) Nat := ⟨[], 0, false, 0⟩

def plainWrite : WriteEnv := ⟨false, true, false, false, fun _ => false, false⟩

instance (bits : Nat) (works : List IndexWork) (env : WriteEnv) (fails : Bool) :
    Decidable (KeepsIn env bits works fails) :=
  inferInstanceAs (Decidable (_ → _))

instance (schema : Schema Doc PK Key) (s : CollectionState Doc PK) :
    Decidable (s.Durable schema) :=
  inferInstanceAs (Decidable (∀ p ∈ s.docs, ∀ entry ∈ schema.secondary.zipIdx 1, _ → _))

/-- A new bit, a duplicate key that is refused before any bit, and an update whose last
index is the new one. -/
theorem multikey_durable_failed_insert :
    ((((emptyCollection.apply (twoArrays true) (.insert plainWrite (0, [7, 8], [1]))).apply
      (twoArrays true) (.insert plainWrite (1, [5], [1]))).apply
      (twoArrays true) (.update plainWrite 0 (0, [7, 8], [1]) (0, [7, 8], [1, 2])))).Durable
        (twoArrays true) := by
  have run : Run (KeepingStep (twoArrays true)) emptyCollection
      [.insert plainWrite (0, [7, 8], [1]), .insert plainWrite (1, [5], [1]),
        .update plainWrite 0 (0, [7, 8], [1]) (0, [7, 8], [1, 2])] _ :=
    .cons ⟨trivial, by unfold KeepsBits; decide, rfl⟩
      (.cons ⟨trivial, by unfold KeepsBits; decide, rfl⟩
        (.cons ⟨⟨by decide, nofun⟩, by rintro obj ⟨⟩; decide, rfl⟩ (.nil _)))
  exact multikey_durable (twoArrays true) rfl (by decide) run

/-- Two runs of inserts that lose a bit. In the first the second document is the first
with two keys in `a`, but not in `b`. In the second the second document sets the bit of
`a` and is then refused for its `b`; the third finds the bit set. -/
theorem multikey_lost :
    ¬ ((emptyCollection.apply (twoArrays false) (.insert plainWrite (0, [7], [1, 2]))).apply
      (twoArrays false) (.insert plainWrite (1, [8, 9], [3, 4]))).Durable (twoArrays false) ∧
    ¬ (((emptyCollection.apply (twoArrays true) (.insert plainWrite (0, [7], [1]))).apply
      (twoArrays true) (.insert plainWrite (1, [8, 9], [1]))).apply
      (twoArrays true) (.insert plainWrite (1, [8, 9], [2]))).Durable (twoArrays true) := by
  constructor <;> decide

end TokuMX.Collection
