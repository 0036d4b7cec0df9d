import Mathlib.Order.BoundedOrder.Basic
import Mathlib.Order.Fin.Basic
import TokuMX.Collection.Partitioned
import TokuMX.Lib.Runs

/-!
Where a partitioned collection puts and finds its documents (`db/collection.cpp` and
`db/collection.h`, `PartitionedCollection`).

The operations of `Partitioned` as users run them, on keys that have a greatest one,
MaxKey, written `⊤`: it is the pivot of the last partition, and `_id`s and pivots given by
the user may be it. A failed `verify` is told apart from the errors that are raised on
purpose, so that "the check never fails" can be said.

* `Routed` — the checks hold, every document lies in the first partition whose pivot is not
  below its key, and `findByPK` finds exactly what was written and not deleted or dropped.
* `routed_of_run` — every run leaves the collection routed, and no check fails in it exactly
  when no partition is capped at MaxKey; `capped_at_maxKey` are runs in which one fails.

Keys and pivots are totally ordered by `woCompare`, as in `Partitioned`.

`get_last_key` is the storage's. All that is used of it: a key it finds belongs in the last
partition and is not below any row there, and it finds one if there is a row. It may be the
key of a row that has been deleted.
-/

namespace TokuMX.Collection

open TokuMX.Lib

/-- An object: its `_id`, if it has one, and the rest. -/
structure Obj (K V : Type) where
  id : Option K
  body : V

/-- Why an operation of a partitioned collection fails. -/
inductive PartitionError (K : Type) where
  | verifyFailed
  | noId
  | duplicateKey (pk : K)
  | idChanged
  | capPartitionFailed
  | pivotNotAboveLastPivot
  | pivotNotAboveMax
  | onlyPartition
  | noPartition (id : Nat)
deriving DecidableEq

inductive PartitionOp (K V : Type) where
  | insertObject (noUniqueChecks : Bool) (obj : Obj K V)
  | updateObject (pk : K) (oldObj newObj : Obj K V)
  | deleteObject (pk : K)
  | addPartition (lastKey : Option K) (now : Nat)
  | manuallyAddPartition (newPivot : Obj K V) (lastKey : Option K) (now : Nat)
  | dropPartition (id : Nat)

namespace PartitionedCollection

variable {K V : Type} [LinearOrder K] (pc : PartitionedCollection K (K × V))

/-! ### Documents -/

def findByPK (pk : K) : Option V :=
  (pc.partitions[pc.partitionWithPK pk]?.bind fun p => p.rows.find? (·.1 = pk)).map Prod.snd

/-- `insertObject`. The partition is looked up with the `_id` the object comes with; one
without makes `wrap` fail before an `_id` is added. -/
def insertDoc (noUniqueChecks : Bool) (obj : Obj K V) :
    Except (PartitionError K) (PartitionedCollection K (K × V)) :=
  match obj.id with
  | none => .error .noId
  | some pk => do
    ensure (noUniqueChecks = true ∨ (pc.findByPK pk).isNone = true) (.duplicateKey pk)
    pure (pc.insertObject Prod.fst (pk, obj.body))

/-- `updateObject`. `inheritIdField` gives the new object the old `_id` or checks that it
has it. -/
def updateDoc (pk : K) (oldObj newObj : Obj K V) :
    Except (PartitionError K) (PartitionedCollection K (K × V)) := do
  ensure (newObj.id = none ∨ newObj.id = oldObj.id) .idChanged
  pure (pc.insertObject Prod.fst (pk, newObj.body))

/-- `deleteObject`. -/
def deleteDoc (pk : K) : PartitionedCollection K (K × V) :=
  { pc with partitions := pc.partitions.modify (pc.partitionWithPK pk) fun p =>
      { p with rows := p.rows.filter (fun r => r.1 ≠ pk) } }

/-- What `get_last_key` may find in the last partition. -/
structure LastKey (lastKey : Option K) : Prop where
  belongs : ∀ key ∈ lastKey, pc.partitionWithPK key = pc.numPartitions - 1
  greatest : ∀ row, pc.At (pc.numPartitions - 1) row → ∃ key ∈ lastKey, row.1 ≤ key

section Documents

variable {pc} {pk pivot : K} {row : K × V} {index : Nat} {lastKey : Option K}

section

variable (wf : pc.WellFormed Prod.fst)
include wf

theorem at_deleteDoc : (pc.deleteDoc pk).At index row ↔ pc.At index row ∧ row.1 ≠ pk := by
  simp only [At, deleteDoc, List.getElem?_modify, partitionWithPK_eq_rank wf]
  by_cases here : rank pc.pivots pk = index
  · simp only [here, if_true, Option.map_eq_map, Option.map_eq_some_iff]
    constructor
    · rintro ⟨_, ⟨p, found, rfl⟩, mem⟩
      obtain ⟨mem, other⟩ := List.mem_filter.mp mem
      exact ⟨⟨p, found, mem⟩, of_decide_eq_true other⟩
    · rintro ⟨⟨p, found, mem⟩, other⟩
      exact ⟨_, ⟨p, found, rfl⟩, List.mem_filter.mpr ⟨mem, decide_eq_true other⟩⟩
  · simp only [here, if_false, Option.map_eq_map, Option.map_id']
    refine ⟨fun held => ⟨held, ?_⟩, fun held => held.1⟩
    -- a row with this key would be in the other partition
    rintro rfl
    exact here (wf.placed index row held)

theorem WellFormed.deleteDoc (pk : K) :
    (pc.deleteDoc pk).WellFormed Prod.fst where
  length := by simpa [PartitionedCollection.deleteDoc] using wf.length
  pivots_lt := wf.pivots_lt
  ids_lt := by
    have same : (pc.deleteDoc pk).ids = pc.ids := ids_modify pc _ _ (by simp)
    rw [same]
    exact wf.ids_lt
  placed i r held := wf.placed i r ((at_deleteDoc wf).mp held).1

theorem mem_rows_deleteDoc : row ∈ (pc.deleteDoc pk).rows ↔ row ∈ pc.rows ∧ row.1 ≠ pk := by
  simp only [mem_rows, at_deleteDoc wf, exists_and_right]

/-- Dropping a partition takes exactly the documents of its range. -/
theorem mem_rows_dropAt :
    row ∈ (pc.dropAt index).rows ↔ row ∈ pc.rows ∧ pc.partitionWithPK row.1 ≠ index := by
  simp only [mem_rows, at_dropAt, partitionWithPK_eq_rank wf]
  constructor
  · rintro ⟨j, held⟩
    have place := wf.placed _ row held
    refine ⟨⟨_, held⟩, ?_⟩
    split_ifs at place <;> omega
  · rintro ⟨⟨j, held⟩, other⟩
    have place := wf.placed j row held
    rcases Nat.lt_or_ge j index with before | after
    · exact ⟨j, by rwa [if_pos before]⟩
    · have shift : j - 1 + 1 = j := by omega
      exact ⟨j - 1, by rwa [if_neg (by omega), shift]⟩

/-- The search looks where the document is. -/
theorem findByPK_eq_some {v : V} {docs : K → Option V}
    (holds : ∀ k v, (k, v) ∈ pc.rows ↔ docs k = some v) :
    pc.findByPK pk = some v ↔ docs pk = some v := by
  constructor
  · intro found
    simp only [findByPK, Option.map_eq_some_iff, Option.bind_eq_some_iff] at found
    obtain ⟨hit, ⟨p, slot, found⟩, rfl⟩ := found
    have key : hit.1 = pk := by simpa using List.find?_some found
    rw [← holds, mem_rows, ← key]
    exact ⟨_, p, slot, List.mem_of_find?_eq_some found⟩
  · intro stored
    obtain ⟨index, p, slot, mem⟩ := mem_rows.mp ((holds pk v).mpr stored)
    have place : pc.partitionWithPK pk = index :=
      (partitionWithPK_eq_rank wf pk).trans (wf.placed index (pk, v) ⟨p, slot, mem⟩)
    cases found : p.rows.find? (·.1 = pk) with
    | none =>
      have missing := List.find?_eq_none.mp found (pk, v) mem
      simp at missing
    | some hit =>
      have key : hit.1 = pk := by simpa using List.find?_some found
      have same := (holds pk hit.2).mp
        (mem_rows.mpr ⟨index, p, slot, key ▸ List.mem_of_find?_eq_some found⟩)
      rw [findByPK, place, slot, Option.bind_some, found, Option.map_some, ← same, stored]

/-- What `get_last_key` finds can cap the last partition. -/
theorem LastKey.caps (last : pc.LastKey (some pivot)) :
    (∀ p ∈ pc.pivots, p < pivot) ∧ ∀ index row, pc.At index row → row.1 ≤ pivot := by
  have final : pc.numPartitions - 1 = pc.pivots.length := by
    rw [numPartitions, wf.length, Nat.add_sub_cancel]
  have place := last.belongs pivot rfl
  rw [partitionWithPK_eq_rank wf, final] at place
  have above := wf.pivots_lt_of_last place
  refine ⟨above, wf.rows_le above fun row held => ?_⟩
  obtain ⟨_, ⟨⟩, le⟩ := last.greatest row (final ▸ held)
  exact le

/-- So can a pivot that passes the checks of `manuallyCapLastPartition`. -/
theorem LastKey.capsManually (last : pc.LastKey lastKey)
    (lastPivot : ∀ p ∈ pc.pivots.getLast?, p < pivot) (max : ∀ key ∈ lastKey, key < pivot) :
    (∀ p ∈ pc.pivots, p < pivot) ∧ ∀ index row, pc.At index row → row.1 ≤ pivot := by
  have final : pc.numPartitions - 1 = pc.pivots.length := by
    rw [numPartitions, wf.length, Nat.add_sub_cancel]
  have above : ∀ p ∈ pc.pivots, p < pivot := by
    intro p mem
    obtain ⟨greatest, found⟩ := Option.isSome_iff_exists.mp
      (List.getLast?_isSome.mpr (List.ne_nil_of_mem mem))
    obtain ⟨front, shape⟩ := List.getLast?_eq_some_iff.mp found
    have less := lastPivot greatest found
    rw [shape] at mem
    rcases List.mem_append.mp mem with before | here
    · have order := (List.pairwise_append.mp (shape ▸ wf.pivots_lt)).2.2
      exact (order p before greatest (by simp)).trans less
    · exact List.mem_singleton.mp here ▸ less
  refine ⟨above, wf.rows_le above fun row held => ?_⟩
  obtain ⟨key, mem, le⟩ := last.greatest row (final ▸ held)
  exact le.trans (max key mem).le

end

/-- With a single partition, `get_last_key` finds the greatest key there is. -/
theorem LastKey.single {p : Partition (K × V)} {pivots : List K}
    (max : ∀ row ∈ p.rows, ∃ key ∈ lastKey, row.1 ≤ key) :
    (⟨pivots, [p]⟩ : PartitionedCollection K (K × V)).LastKey lastKey where
  belongs key _ := by simp [partitionWithPK, numPartitions]
  greatest := by
    rintro row ⟨_, ⟨⟩, mem⟩
    exact max row mem

end Documents

/-! ### Partitions -/

variable [OrderTop K]

/-- `_partitionPivots`. -/
def allPivots : List K := pc.pivots ++ [⊤]

/-- `sanityCheck`, with the last pivot, which is MaxKey. -/
def allSane : Prop := pc.partitions.length = pc.allPivots.length ∧ pc.allPivots.Pairwise (· < ·)

instance : Decidable pc.allSane := inferInstanceAs (Decidable (_ ∧ _))

/-- `overwritePivot` of the last partition, and `appendNewPartition` with its check. -/
def addWith (pivot : K) (now : Nat) :
    Except (PartitionError K) (PartitionedCollection K (K × V)) :=
  match pc.partitions.getLast? with
  | none => .error .verifyFailed
  | some last => do
    let added := pc.capAndAppend pivot (last.id + 1) now
    ensure added.allSane .verifyFailed
    pure added

/-- `addPartition`; `lastKey` is what `get_last_key` finds. -/
def addPartitionAt (lastKey : Option K) (now : Nat) :
    Except (PartitionError K) (PartitionedCollection K (K × V)) := do
  ensure pc.allSane .verifyFailed
  match lastKey with
  | none => .error .capPartitionFailed
  | some pivot => pc.addWith pivot now

/-- `manuallyAddPartition`, with the checks of `manuallyCapLastPartition`. -/
def manuallyAddPartition (newPivot : Obj K V) (lastKey : Option K) (now : Nat) :
    Except (PartitionError K) (PartitionedCollection K (K × V)) := do
  ensure pc.allSane .verifyFailed
  match newPivot.id with
  | none => .error .noId
  | some pivot =>
    ensure (∀ lastPivot ∈ pc.pivots.getLast?, lastPivot < pivot) .pivotNotAboveLastPivot
    ensure (∀ key ∈ lastKey, key < pivot) .pivotNotAboveMax
    pc.addWith pivot now

/-- `dropPartition`. -/
def dropPartitionById (id : Nat) :
    Except (PartitionError K) (PartitionedCollection K (K × V)) := do
  ensure pc.allSane .verifyFailed
  ensure (1 < pc.numPartitions) .onlyPartition
  ensure (id ∈ pc.ids) (.noPartition id)
  match pc.dropPartition id with
  | none => .error .verifyFailed
  | some dropped =>
    ensure dropped.allSane .verifyFailed
    pure dropped

def perform : PartitionOp K V → Except (PartitionError K) (PartitionedCollection K (K × V))
  | .insertObject noUniqueChecks obj => pc.insertDoc noUniqueChecks obj
  | .updateObject pk oldObj newObj => pc.updateDoc pk oldObj newObj
  | .deleteObject pk => .ok (pc.deleteDoc pk)
  | .addPartition lastKey now => pc.addPartitionAt lastKey now
  | .manuallyAddPartition newPivot lastKey now => pc.manuallyAddPartition newPivot lastKey now
  | .dropPartition id => pc.dropPartitionById id

/-- Pivots and ids increase, every row is in its place, and only the last pivot is MaxKey. -/
structure Sound : Prop where
  wellFormed : pc.WellFormed Prod.fst
  below : ∀ p ∈ pc.pivots, p < ⊤

section Checks

variable {pc} {pivot : K}

theorem allSane_iff : pc.allSane ↔ pc.sanityCheck ∧ ∀ p ∈ pc.pivots, p < ⊤ := by
  simp [allSane, sanityCheck, allPivots, List.pairwise_append, and_assoc]

theorem Sound.allSane (sound : pc.Sound) : pc.allSane :=
  allSane_iff.mpr ⟨sound.wellFormed.sanityCheck, sound.below⟩

/-- Capping the last partition fails a check exactly when it is capped at MaxKey. -/
theorem addWith_spec (now : Nat) (sound : pc.Sound) (above : ∀ p ∈ pc.pivots, p < pivot)
    (le_pivot : ∀ index row, pc.At index row → row.1 ≤ pivot) :
    (pivot = ⊤ ∧ pc.addWith pivot now = .error .verifyFailed) ∨
    (pivot ≠ ⊤ ∧ ∃ id, pc.addWith pivot now = .ok (pc.capAndAppend pivot id now) ∧
      (pc.capAndAppend pivot id now).Sound) := by
  obtain ⟨last, found, -, ids_le⟩ := sound.wellFormed.last
  have added := sound.wellFormed.capAndAppend now above le_pivot
    (fun id mem => Nat.lt_succ_of_le (ids_le id mem))
  have sane : (pc.capAndAppend pivot (last.id + 1) now).allSane ↔ pivot ≠ ⊤ := by
    rw [allSane_iff, and_iff_right added.sanityCheck, ← lt_top_iff_ne_top]
    constructor
    · intro all
      exact all pivot (by simp [PartitionedCollection.capAndAppend])
    · intro lt p mem
      rcases List.mem_append.mp mem with old | new
      · exact sound.below p old
      · exact List.mem_singleton.mp new ▸ lt
  unfold addWith
  rw [found]
  by_cases max : pivot = ⊤
  · exact .inl ⟨max, ensure_bind_of_not fun h => sane.mp h max⟩
  · exact .inr ⟨max, last.id + 1, ensure_bind_of (sane.mpr max), added,
      (allSane_iff.mp (sane.mpr max)).2⟩

theorem dropPartitionById_spec (sound : pc.Sound) (id : Nat) :
    pc.dropPartitionById id = .error .onlyPartition ∨
    pc.dropPartitionById id = .error (.noPartition id) ∨
    ∃ index, pc.ids[index]? = some id ∧ pc.dropPartitionById id = .ok (pc.dropAt index) ∧
      (pc.dropAt index).Sound := by
  unfold dropPartitionById
  rw [ensure_bind_of sound.allSane]
  by_cases many : 1 < pc.numPartitions
  · rw [ensure_bind_of many]
    by_cases there : id ∈ pc.ids
    · rw [ensure_bind_of there]
      obtain ⟨index, found⟩ := List.mem_iff_getElem?.mp there
      have inside : index < pc.numPartitions := by
        simpa [ids, numPartitions] using (List.getElem?_eq_some_iff.mp found).1
      have fewer : ∀ p ∈ (pc.dropAt index).pivots, p ∈ pc.pivots := by
        intro p mem
        simp only [dropAt] at mem
        split_ifs at mem
        · exact (List.dropLast_sublist _).subset mem
        · exact List.mem_of_mem_eraseIdx mem
      have after : (pc.dropAt index).Sound :=
        ⟨sound.wellFormed.dropAt many inside, fun p mem => sound.below p (fewer p mem)⟩
      rw [dropPartition_eq sound.wellFormed many found]
      exact .inr (.inr ⟨index, found, ensure_bind_of after.allSane, after⟩)
    · exact .inr (.inl (ensure_bind_of_not there))
  · exact .inl (ensure_bind_of_not many)

end Checks

/-! ### Every operation -/

/-- What an operation is to make of the documents. A dropped partition takes those of its
range with it. -/
def expect (docs : K → Option V) : PartitionOp K V → K → Option V
  | .insertObject _ obj =>
    match obj.id with
    | none => docs
    | some pk => Function.update docs pk (some obj.body)
  | .updateObject pk _ newObj => Function.update docs pk (some newObj.body)
  | .deleteObject pk => Function.update docs pk none
  | .addPartition .. => docs
  | .manuallyAddPartition .. => docs
  | .dropPartition id => fun k =>
    if pc.ids[pc.partitionWithPK k]? = some id then none else docs k

/-- The callers' side: an update is given the object stored under `pk`, and `lastKey` is
what `get_last_key` found. -/
def Allowed : PartitionOp K V → Prop
  | .updateObject pk oldObj _ => oldObj.id = some pk
  | .addPartition lastKey _ => pc.LastKey lastKey
  | .manuallyAddPartition _ lastKey _ => pc.LastKey lastKey
  | _ => True

end PartitionedCollection

open PartitionedCollection

variable {K V : Type} [LinearOrder K] [OrderTop K]

/-- The operation does not cap a partition at MaxKey. A pivot given by the user may be
MaxKey if it is refused, because a document has that key. -/
def PartitionOp.KeepsSane : PartitionOp K V → Prop
  | .addPartition lastKey _ => lastKey ≠ some ⊤
  | .manuallyAddPartition newPivot lastKey _ => newPivot.id = some ⊤ → lastKey = some ⊤
  | _ => True

/-- The collection holds the documents. -/
structure Holds (pc : PartitionedCollection K (K × V)) (docs : K → Option V) : Prop where
  sound : pc.Sound
  stored : ∀ k v, (k, v) ∈ pc.rows ↔ docs k = some v

variable {pc after : PartitionedCollection K (K × V)} {docs : K → Option V}

section

variable (holds : Holds pc docs)
include holds

theorem Holds.insertObject (pk : K) (v : V) :
    Holds (pc.insertObject Prod.fst (pk, v)) (Function.update docs pk (some v)) where
  sound := ⟨holds.sound.wellFormed.insertObject _, holds.sound.below⟩
  stored k w := by
    rw [mem_rows_insertObject holds.sound.wellFormed, holds.stored]
    by_cases same : k = pk
    · subst same
      simp [eq_comm]
    · simp [same]

theorem Holds.deleteDoc (pk : K) :
    Holds (pc.deleteDoc pk) (Function.update docs pk none) where
  sound := ⟨holds.sound.wellFormed.deleteDoc pk, holds.sound.below⟩
  stored k w := by
    rw [mem_rows_deleteDoc holds.sound.wellFormed, holds.stored]
    by_cases same : k = pk
    · simp [same]
    · simp [same]

theorem Holds.dropAt {index id : Nat} (found : pc.ids[index]? = some id)
    (sound : (pc.dropAt index).Sound) :
    Holds (pc.dropAt index) (pc.expect docs (.dropPartition id)) where
  sound := sound
  stored k w := by
    rw [mem_rows_dropAt holds.sound.wellFormed, holds.stored]
    -- ids are distinct, so the partition with this id is the one at `index`
    have same : pc.ids[pc.partitionWithPK k]? = some id ↔ pc.partitionWithPK k = index := by
      constructor
      · intro here
        exact (rank_of_getElem? holds.sound.wellFormed.ids_lt here).symm.trans
          (rank_of_getElem? holds.sound.wellFormed.ids_lt found)
      · rintro rfl
        exact found
    simp only [expect, same]
    by_cases here : pc.partitionWithPK k = index
    · simp [here]
    · simp [here]

theorem Holds.addWith {pivot : K} (now : Nat) (above : ∀ p ∈ pc.pivots, p < pivot)
    (le_pivot : ∀ index row, pc.At index row → row.1 ≤ pivot) :
    (pc.addWith pivot now = .error .verifyFailed ↔ pivot = ⊤) ∧
      ∀ after, pc.addWith pivot now = .ok after → Holds after docs := by
  rcases addWith_spec now holds.sound above le_pivot with
    ⟨max, fails⟩ | ⟨max, id, made, sound⟩
  · rw [fails]
    exact ⟨iff_of_true rfl max, nofun⟩
  · refine ⟨by simp [made, max], ?_⟩
    rintro after done
    obtain rfl := Except.ok.inj (made.symm.trans done)
    exact ⟨sound, fun k v => mem_rows_capAndAppend.trans (holds.stored k v)⟩

theorem Holds.addPartitionAt {lastKey : Option K} (now : Nat) (last : pc.LastKey lastKey) :
    (pc.addPartitionAt lastKey now = .error .verifyFailed ↔ lastKey = some ⊤) ∧
      ∀ after, pc.addPartitionAt lastKey now = .ok after → Holds after docs := by
  unfold PartitionedCollection.addPartitionAt
  rw [ensure_bind_of holds.sound.allSane]
  cases lastKey with
  | none => simp
  | some pivot =>
    obtain ⟨above, le_pivot⟩ := last.caps holds.sound.wellFormed
    simpa using holds.addWith now above le_pivot

theorem Holds.manuallyAddPartition {newPivot : Obj K V} {lastKey : Option K} (now : Nat)
    (last : pc.LastKey lastKey) :
    (pc.manuallyAddPartition newPivot lastKey now = .error .verifyFailed ↔
      newPivot.id = some ⊤ ∧ lastKey ≠ some ⊤) ∧
      ∀ after, pc.manuallyAddPartition newPivot lastKey now = .ok after → Holds after docs := by
  unfold PartitionedCollection.manuallyAddPartition
  rw [ensure_bind_of holds.sound.allSane]
  cases newPivot.id with
  | none => simp
  | some pivot =>
    dsimp only
    by_cases lastPivot : ∀ p ∈ pc.pivots.getLast?, p < pivot
    · rw [ensure_bind_of lastPivot]
      by_cases max : ∀ key ∈ lastKey, key < pivot
      · rw [ensure_bind_of max]
        obtain ⟨above, le_pivot⟩ := last.capsManually holds.sound.wellFormed lastPivot max
        obtain ⟨fails, made⟩ := holds.addWith now above le_pivot
        refine ⟨fails.trans ⟨?_, ?_⟩, made⟩
        · rintro rfl
          exact ⟨rfl, fun same => absurd (max ⊤ same) (lt_irrefl _)⟩
        · rintro ⟨same, -⟩
          exact Option.some.inj same
      · rw [ensure_bind_of_not max]
        refine ⟨⟨nofun, ?_⟩, nofun⟩
        -- a MaxKey pivot is refused here only by a MaxKey in the collection
        rintro ⟨⟨⟩, other⟩
        refine absurd (fun key mem => lt_top_iff_ne_top.mpr ?_) max
        rintro rfl
        exact other mem
    · rw [ensure_bind_of_not lastPivot]
      refine ⟨⟨nofun, ?_⟩, nofun⟩
      rintro ⟨⟨⟩, -⟩
      exact absurd (fun p mem => holds.sound.below p (List.mem_of_getLast? mem)) lastPivot

/-- One operation: it fails a check exactly when it caps a partition at MaxKey, and if it
succeeds the collection holds what it should. -/
theorem Holds.perform {op : PartitionOp K V} (allowed : pc.Allowed op) :
    (pc.perform op = .error .verifyFailed ↔ ¬ op.KeepsSane) ∧
      ∀ after, pc.perform op = .ok after → Holds after (pc.expect docs op) := by
  cases op with
  | insertObject noUniqueChecks obj =>
    simp only [PartitionedCollection.perform, insertDoc, expect, PartitionOp.KeepsSane]
    cases obj.id with
    | none => simp
    | some pk =>
      dsimp only
      by_cases free : noUniqueChecks = true ∨ (pc.findByPK pk).isNone = true
      · rw [ensure_bind_of free]
        refine ⟨by simp [pure, Except.pure], ?_⟩
        rintro after ⟨⟩
        exact holds.insertObject pk obj.body
      · rw [ensure_bind_of_not free]
        simp
  | updateObject pk oldObj newObj =>
    simp only [PartitionedCollection.perform, updateDoc, expect, PartitionOp.KeepsSane]
    by_cases same : newObj.id = none ∨ newObj.id = oldObj.id
    · rw [ensure_bind_of same]
      refine ⟨by simp [pure, Except.pure], ?_⟩
      rintro after ⟨⟩
      exact holds.insertObject pk newObj.body
    · rw [ensure_bind_of_not same]
      simp
  | deleteObject pk =>
    refine ⟨by simp [PartitionedCollection.perform, PartitionOp.KeepsSane], ?_⟩
    rintro after ⟨⟩
    exact holds.deleteDoc pk
  | addPartition lastKey now =>
    obtain ⟨fails, made⟩ := holds.addPartitionAt now allowed
    exact ⟨fails.trans not_not.symm, made⟩
  | manuallyAddPartition newPivot lastKey now =>
    obtain ⟨fails, made⟩ := holds.manuallyAddPartition now allowed
    exact ⟨fails.trans Classical.not_imp.symm, made⟩
  | dropPartition id =>
    simp only [PartitionedCollection.perform, PartitionOp.KeepsSane, not_true, iff_false]
    rcases dropPartitionById_spec holds.sound id with
      single | missing | ⟨index, found, dropped, sound⟩
    · simp [single]
    · simp [missing]
    · refine ⟨by simp [dropped], ?_⟩
      intro after done
      obtain rfl := Except.ok.inj (dropped.symm.trans done)
      exact holds.dropAt found sound

end

/-! ### Runs -/

/-- A collection, and the documents that were written to it and neither deleted nor
dropped since. -/
structure Served (K V : Type) where
  coll : PartitionedCollection K (K × V)
  docs : K → Option V

namespace Served

def create (now : Nat) : Served K V := ⟨.create now, fun _ => none⟩

/-- An operation, labelled with the error it ends in. One that fails is rolled back. -/
def Step (s : Served K V) (call : PartitionOp K V × Option (PartitionError K)) (t : Served K V) :
    Prop :=
  s.coll.Allowed call.1 ∧
    match s.coll.perform call.1 with
    | .ok after => call.2 = none ∧ t = ⟨after, s.coll.expect s.docs call.1⟩
    | .error e => call.2 = some e ∧ t = s

theorem Step.ok {s : Served K V} {op : PartitionOp K V}
    {after : PartitionedCollection K (K × V)} (allowed : s.coll.Allowed op)
    (done : s.coll.perform op = .ok after) :
    Step s (op, none) ⟨after, s.coll.expect s.docs op⟩ := by
  refine ⟨allowed, ?_⟩
  rw [done]
  exact ⟨rfl, rfl⟩

theorem Step.error {s : Served K V} {op : PartitionOp K V} {e : PartitionError K}
    (allowed : s.coll.Allowed op) (done : s.coll.perform op = .error e) :
    Step s (op, some e) s := by
  refine ⟨allowed, ?_⟩
  rw [done]
  exact ⟨rfl, rfl⟩

/-- The checks hold, every document lies in the first partition whose pivot is not below
its key, and the search finds what was written. -/
structure Routed (s : Served K V) : Prop where
  sane : s.coll.allSane
  placed : ∀ index k v, s.coll.At index (k, v) → index = s.coll.partitionWithPK k
  first : ∀ k, (∃ pivot, s.coll.allPivots[s.coll.partitionWithPK k]? = some pivot ∧ k ≤ pivot) ∧
    ∀ j pivot, j < s.coll.partitionWithPK k → s.coll.allPivots[j]? = some pivot → pivot < k
  found : ∀ k, s.coll.findByPK k = s.docs k

theorem routed_of_holds {s : Served K V} (holds : Holds s.coll s.docs) : s.Routed where
  sane := holds.sound.allSane
  placed index k v held := by
    rw [partitionWithPK_eq_rank holds.sound.wellFormed]
    exact (holds.sound.wellFormed.placed index (k, v) held).symm
  first k := by
    have sorted := holds.sound.allSane.2
    have place : rank s.coll.allPivots k = s.coll.partitionWithPK k := by
      rw [partitionWithPK_eq_rank holds.sound.wellFormed, allPivots, rank_append_of_le le_top]
    obtain ⟨upper, lower⟩ := rank_first (k := k) sorted
    have inside : rank s.coll.allPivots k < s.coll.allPivots.length := by
      have bound : rank s.coll.pivots k ≤ s.coll.pivots.length := rank_le_length
      rw [place, partitionWithPK_eq_rank holds.sound.wellFormed, allPivots, List.length_append]
      exact Nat.lt_succ_of_le bound
    rw [← place]
    have found := List.getElem?_eq_getElem inside
    exact ⟨⟨_, found, upper _ found⟩, lower⟩
  found k := by
    apply Option.ext
    intro v
    exact findByPK_eq_some holds.sound.wellFormed holds.stored

theorem holds_create (now : Nat) : Holds (create now : Served K V).coll (create now).docs where
  sound := ⟨wellFormed_create now, by simp [create, PartitionedCollection.create]⟩
  stored k v := by simp [create, PartitionedCollection.create, rows]

theorem holds_step {s t : Served K V} {call : PartitionOp K V × Option (PartitionError K)}
    (holds : Holds s.coll s.docs) (step : Step s call t) :
    Holds t.coll t.docs ∧ (call.2 ≠ some .verifyFailed ↔ call.1.KeepsSane) := by
  obtain ⟨allowed, result⟩ := step
  obtain ⟨fails, made⟩ := holds.perform allowed
  cases done : s.coll.perform call.1 with
  | ok after =>
    rw [done] at result fails
    obtain ⟨none, rfl⟩ := result
    refine ⟨made after done, ?_⟩
    simpa [none] using fails
  | error e =>
    rw [done] at result fails
    obtain ⟨raised, rfl⟩ := result
    refine ⟨holds, ?_⟩
    rw [raised, Ne, Option.some.injEq, ← not_iff_comm, ← fails, Except.error.injEq]

/-- **Routing.** Every run leaves the collection routed, and no check fails in it exactly
when it caps no partition at MaxKey. -/
theorem routed_of_run {now : Nat} {calls : List (PartitionOp K V × Option (PartitionError K))}
    {s : Served K V} (run : Run Step (create now) calls s) :
    s.Routed ∧
      ((∀ call ∈ calls, call.2 ≠ some .verifyFailed) ↔ ∀ call ∈ calls, call.1.KeepsSane) := by
  have every : Holds s.coll s.docs ∧
      ∀ call ∈ calls, call.2 ≠ some .verifyFailed ↔ call.1.KeepsSane := by
    refine run.history (P := fun calls s => Holds s.coll s.docs ∧
      ∀ call ∈ calls, call.2 ≠ some .verifyFailed ↔ call.1.KeepsSane)
      ⟨holds_create now, by simp⟩ ?_
    rintro past a call b - ⟨holds, before⟩ step
    obtain ⟨after, here⟩ := holds_step holds step
    refine ⟨after, ?_⟩
    simp only [List.forall_mem_append, List.forall_mem_singleton]
    exact ⟨before, here⟩
  exact ⟨routed_of_holds every.1, forall₂_congr every.2⟩

/-- A document, a partition capped behind it, another document, and the first partition
dropped. -/
def dropFirst : List (PartitionOp (Fin 10) ℕ × Option (PartitionError (Fin 10))) :=
  [(.insertObject false ⟨some 5, 0⟩, none), (.addPartition (some 5) 1, none),
    (.insertObject false ⟨some 7, 0⟩, none), (.dropPartition 0, none)]

theorem routed_of_run_dropFirst :
    ∃ s, Run Step (create 0) dropFirst s ∧ s.Routed ∧
      ∀ call ∈ dropFirst, call.2 ≠ some .verifyFailed := by
  have run : ∃ s, Run Step (create 0) dropFirst s := by
    refine ⟨?last, .cons (Step.ok trivial rfl) ?rest⟩
    case rest =>
      refine .cons (Step.ok (LastKey.single (by decide)) rfl) ?_
      refine .cons (Step.ok trivial rfl) ?_
      refine .cons (Step.ok trivial rfl) ?_
      exact .nil _
  obtain ⟨s, run⟩ := run
  obtain ⟨routed, sane⟩ := routed_of_run run
  refine ⟨s, run, routed, sane.mpr ?_⟩
  simp only [dropFirst, List.forall_mem_cons, PartitionOp.KeepsSane]
  exact ⟨trivial, by decide, trivial, trivial, nofun⟩

/-- MaxKey as a pivot, and MaxKey as an `_id` when the next partition is added. -/
theorem capped_at_maxKey :
    (∃ s : Served (Fin 10) ℕ, Run Step (create 0)
      [(.manuallyAddPartition ⟨some ⊤, 0⟩ none 1, some .verifyFailed)] s) ∧
    ∃ s : Served (Fin 10) ℕ, Run Step (create 0)
      [(.insertObject false ⟨some ⊤, 0⟩, none), (.addPartition (some ⊤) 1, some .verifyFailed)]
      s := by
  constructor
  · exact ⟨_, .cons (Step.error (LastKey.single (by decide)) rfl) (.nil _)⟩
  · refine ⟨?last, .cons (Step.ok trivial rfl) ?rest⟩
    case rest =>
      refine .cons (Step.error (LastKey.single (by decide)) rfl) ?_
      exact .nil _

end Served

end TokuMX.Collection
