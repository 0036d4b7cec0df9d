import Mathlib.Data.List.Basic
import Mathlib.Data.List.MinMax
import TokuMX.Lib.Checked
import TokuMX.Lib.Pivots
import TokuMX.Repl.GTID

/-!
Partitioned collections (`db/collection.cpp`, `PartitionedCollection`).

The primary key space is cut at increasing pivots; the last partition has none. A row
goes to the partition `partitionWithPK` finds. `addPartition` caps the last partition at
its greatest key and opens a new one; `dropPartition` removes one by id.

* `WellFormed` — pivots and ids increase, and every row lies in the range of its
  partition. Every operation keeps it.
* `dropWhileFirst_spec` — a loop that drops partitions from the front never fails a
  check and drops a front segment.

Rows are what the dictionaries hold, committed or not: rows are written without row
locks, and `get_last_key` reads the greatest key whoever wrote it. Keys and pivots are those that
`woCompare` orders totally, equal ones taken as one: where a double meets longs from 2^53 on it
calls the double equal to different longs, and the partition of a key is no longer determined.
-/

namespace TokuMX.Collection

open TokuMX.Lib TokuMX.Repl

variable {K Row : Type}

/-- A partition and its metadata. `maxRefGTID` is put there by the oplog's code. -/
structure Partition (Row : Type) where
  id : Nat
  createTime : Nat
  maxRefGTID : Option GTID
  rows : List Row
deriving DecidableEq

/-- `getMaxPKForPartitionCap`. -/
def Partition.maxPK [LinearOrder K] (key : Row → K) (p : Partition Row) : Option K :=
  (p.rows.map key).max?

/-- `_partitions` and `_partitionIDs`, and `_partitionPivots` without the last, which is
MaxKey. -/
structure PartitionedCollection (K Row : Type) where
  pivots : List K
  partitions : List (Partition Row)
deriving DecidableEq

/-- A collection as it is created. -/
def PartitionedCollection.create (now : Nat) : PartitionedCollection K Row :=
  ⟨[], [⟨0, now, none, []⟩]⟩

namespace PartitionedCollection

variable (pc : PartitionedCollection K Row)

def numPartitions : Nat := pc.partitions.length

def ids : List Nat := pc.partitions.map Partition.id

/-- `updatePartitionMetadata`, for the one field that is ever updated. -/
def setMaxRefGTID (index : Nat) (gtid : GTID) : PartitionedCollection K Row :=
  { pc with partitions := pc.partitions.modify index fun p => { p with maxRefGTID := some gtid } }

/-- Keep only some rows: what an abort does to the rows of its transaction. -/
def filterRows (keep : Row → Bool) : PartitionedCollection K Row :=
  { pc with partitions := pc.partitions.map fun p => { p with rows := p.rows.filter keep } }

/-- Without the first `n` partitions. -/
def dropFront (n : Nat) : PartitionedCollection K Row :=
  ⟨pc.pivots.drop n, pc.partitions.drop n⟩

/-- Without partition `index`. Its range goes to the next partition, or, when it is the
last, to the one before. -/
def dropAt (index : Nat) : PartitionedCollection K Row where
  pivots := if index = pc.numPartitions - 1 then pc.pivots.dropLast else pc.pivots.eraseIdx index
  partitions := pc.partitions.eraseIdx index

/-- `overwritePivot` on the last partition and `appendNewPartition`. -/
def capAndAppend (pivot : K) (id now : Nat) : PartitionedCollection K Row :=
  ⟨pc.pivots ++ [pivot], pc.partitions ++ [⟨id, now, none, []⟩]⟩

/-- Partition `index` holds the row. -/
def At (index : Nat) (row : Row) : Prop := ∃ p, pc.partitions[index]? = some p ∧ row ∈ p.rows

/-- The rows of all partitions. -/
def rows : List Row := pc.partitions.flatMap Partition.rows

/-- The `maxRefGTID` in the metadata of partition `index`. -/
def stamp (index : Nat) : Option GTID := pc.partitions[index]?.bind Partition.maxRefGTID

/-! ### Views

What the oplog's code relies on is the pivots, where each row is, and the stamps. -/

variable {pivot : K} {id : Nat}

section Views

variable {pc} {row : Row} {index n : Nat}

theorem mem_rows : row ∈ pc.rows ↔ ∃ index, pc.At index row := by
  simp only [rows, At, List.mem_flatMap]
  constructor
  · rintro ⟨p, mem_parts, mem⟩
    obtain ⟨index, found⟩ := List.mem_iff_getElem?.mp mem_parts
    exact ⟨index, p, found, mem⟩
  · rintro ⟨index, p, found, mem⟩
    exact ⟨p, List.mem_of_getElem? found, mem⟩

variable {keep : Row → Bool}

@[simp] theorem pivots_filterRows :
    (pc.filterRows keep).pivots = pc.pivots := rfl

variable {i : Nat}

@[simp] theorem at_setMaxRefGTID {gtid : GTID} :
    (pc.setMaxRefGTID i gtid).At index row ↔ pc.At index row := by
  simp only [At, setMaxRefGTID, List.getElem?_modify]
  by_cases same : i = index
  · simp [same]
  · simp [same]

theorem stamp_setMaxRefGTID {gtid : GTID} :
    (pc.setMaxRefGTID i gtid).stamp index =
      if i = index ∧ index < pc.numPartitions then some gtid else pc.stamp index := by
  simp only [stamp, setMaxRefGTID, numPartitions, List.getElem?_modify]
  by_cases inside : index < pc.partitions.length
  · by_cases same : i = index
    · simp [same, inside]
    · simp [same]
  · simp [inside]

@[simp] theorem at_filterRows : (pc.filterRows keep).At index row ↔ pc.At index row ∧ keep row := by
  simp only [At, filterRows, List.getElem?_map, Option.map_eq_some_iff]
  constructor
  · rintro ⟨_, ⟨p, found, rfl⟩, mem⟩
    exact ⟨⟨p, found, (List.mem_filter.mp mem).1⟩, (List.mem_filter.mp mem).2⟩
  · rintro ⟨⟨p, found, mem⟩, kept⟩
    exact ⟨_, ⟨p, found, rfl⟩, List.mem_filter.mpr ⟨mem, kept⟩⟩

@[simp] theorem stamp_filterRows : (pc.filterRows keep).stamp index = pc.stamp index := by
  simp only [stamp, filterRows, List.getElem?_map]
  cases pc.partitions[index]? <;> rfl

@[simp] theorem at_dropFront : (pc.dropFront n).At index row ↔ pc.At (n + index) row := by
  simp only [At, dropFront, List.getElem?_drop]

theorem at_dropAt :
    (pc.dropAt i).At index row ↔ pc.At (if index < i then index else index + 1) row := by
  simp only [At, dropAt, List.getElem?_eraseIdx]
  by_cases before : index < i
  · simp [before]
  · simp [before]

@[simp] theorem stamp_dropFront : (pc.dropFront n).stamp index = pc.stamp (n + index) := by
  simp only [stamp, dropFront, List.getElem?_drop]

variable {now : Nat}

@[simp] theorem at_capAndAppend :
    (pc.capAndAppend pivot id now).At index row ↔ pc.At index row := by
  simp only [At, capAndAppend, List.getElem?_append]
  by_cases old : index < pc.partitions.length
  · simp [old]
  · rw [if_neg old, List.getElem?_eq_none (Nat.not_lt.mp old)]
    constructor
    · rintro ⟨p, found, mem⟩
      have empty : p.rows = [] := by
        rw [List.mem_singleton.mp (List.mem_of_getElem? found)]
      simp [empty] at mem
    · rintro ⟨p, found, -⟩
      cases found

theorem mem_rows_capAndAppend : row ∈ (pc.capAndAppend pivot id now).rows ↔ row ∈ pc.rows := by
  simp only [mem_rows, at_capAndAppend]

theorem stamp_capAndAppend (old : index < pc.numPartitions) :
    (pc.capAndAppend pivot id now).stamp index = pc.stamp index := by
  simp only [stamp, capAndAppend, List.getElem?_append_left old]

theorem ids_modify (pc : PartitionedCollection K Row) (i : Nat)
    (f : Partition Row → Partition Row) (same : ∀ p, (f p).id = p.id) :
    (pc.partitions.modify i f).map Partition.id = pc.ids := by
  apply List.ext_getElem?
  intro j
  simp only [ids, List.getElem?_map, List.getElem?_modify]
  cases pc.partitions[j]? with
  | none => rfl
  | some p => by_cases here : i = j <;> simp [here, same]

end Views

variable [LinearOrder K]

/-- `sanityCheck`. -/
def sanityCheck : Prop :=
  pc.partitions.length = pc.pivots.length + 1 ∧ pc.pivots.Pairwise (· < ·)

instance : Decidable pc.sanityCheck := inferInstanceAs (Decidable (_ ∧ _))

/-- `partitionWithPK`: the last partition is tried first. -/
def partitionWithPK (pk : K) : Nat :=
  if pc.numPartitions = 1 then 0
  else match pc.pivots[pc.numPartitions - 2]? with
    | none => 0
    | some pivot =>
      if pivot < pk then pc.numPartitions - 1
      else bisect pc.pivots pk pc.numPartitions 0 (pc.numPartitions - 2)

/-- `findInMemoryPartition`. -/
def findInMemoryPartition (id : Nat) : Nat :=
  bisect pc.ids id pc.numPartitions 0 (pc.numPartitions - 1)

/-- `dropPartition`. When the last partition goes, the one before it becomes the last. -/
def dropPartition (id : Nat) : Option (PartitionedCollection K Row) := do
  check pc.sanityCheck
  check (1 < pc.numPartitions)
  check (id ∈ pc.ids)
  let index := pc.findInMemoryPartition id
  check (pc.ids[index]? = some id)
  let dropped : PartitionedCollection K Row :=
    { pivots :=
        if index = pc.numPartitions - 1 then pc.pivots.dropLast else pc.pivots.eraseIdx index
      partitions := pc.partitions.eraseIdx index }
  check dropped.sanityCheck
  some dropped

/-- A loop that drops the first partition as long as there are others and `droppable`
allows it. Returned with the collection: the pivot of the last partition dropped. -/
def dropWhileFirst (droppable : PartitionedCollection K Row → Bool) :
    (rounds : Nat) → PartitionedCollection K Row → Option K →
      Option (PartitionedCollection K Row × Option K)
  | 0, pc, trimmed => some (pc, trimmed)
  | rounds + 1, pc, trimmed =>
    if pc.numPartitions = 1 then some (pc, trimmed)
    else if droppable pc then do
      let first ← pc.partitions[0]?
      let pivot ← pc.pivots[0]?
      let rest ← pc.dropPartition first.id
      dropWhileFirst droppable rounds rest (some pivot)
    else some (pc, trimmed)

variable (key : Row → K)

/-- `insertObject` with `NO_UNIQUE_CHECKS`: a row with the key is overwritten. -/
def insertObject (row : Row) : PartitionedCollection K Row :=
  { pc with partitions := pc.partitions.modify (pc.partitionWithPK (key row)) fun p =>
      { p with rows := p.rows.filter (fun r => key r ≠ key row) ++ [row] } }

/-- `capLastPartition` fails: there is nothing in the last partition to cap it at. -/
def capPartitionFailed : Bool := (pc.partitions.getLast?.bind (Partition.maxPK key)).isNone

/-- `addPartition`: `capLastPartition`, then `appendNewPartition`. -/
def addPartition (now : Nat) : Option (PartitionedCollection K Row) := do
  check pc.sanityCheck
  let last ← pc.partitions.getLast?
  let pivot ← last.maxPK key
  let added := pc.capAndAppend pivot (last.id + 1) now
  check added.sanityCheck
  some added

/-- Pivots and ids increase, and every row lies in the range of its partition. -/
structure WellFormed : Prop where
  length : pc.partitions.length = pc.pivots.length + 1
  pivots_lt : pc.pivots.Pairwise (· < ·)
  ids_lt : pc.ids.Pairwise (· < ·)
  placed : ∀ index row, pc.At index row → rank pc.pivots (key row) = index

/-! ### Searching and inserting -/

section Inserts

variable {pc key} {row r : Row} {index : Nat}

@[simp] theorem stamp_insertObject : (pc.insertObject key row).stamp index = pc.stamp index := by
  simp only [stamp, insertObject, List.getElem?_modify]
  cases pc.partitions[index]? with
  | none => rfl
  | some p =>
    by_cases same : pc.partitionWithPK (key row) = index
    · simp [same]
    · simp [same]

theorem partitionWithPK_eq_rank (wf : pc.WellFormed key) (pk : K) :
    pc.partitionWithPK pk = rank pc.pivots pk := by
  have length := wf.length
  have bound : rank pc.pivots pk ≤ pc.pivots.length := rank_le_length
  unfold partitionWithPK numPartitions
  by_cases single : pc.partitions.length = 1
  · rw [if_pos single]
    omega
  · rw [if_neg single]
    have inside : pc.partitions.length - 2 < pc.pivots.length := by omega
    have found := List.getElem?_eq_getElem inside
    have split := lt_rank_iff (k := pk) wf.pivots_lt found
    simp only [found]
    by_cases above : pc.pivots[pc.partitions.length - 2] < pk
    · rw [if_pos above]
      have := split.mpr above
      omega
    · rw [if_neg above]
      have upper := Nat.not_lt.mp (mt split.mp above)
      exact bisect_eq_rank wf.pivots_lt (Nat.zero_le _) upper inside (by omega)

/-- An insert puts the row in the partition of its key, where it replaces a row with the
same key, and moves nothing else. -/
theorem at_insertObject (wf : pc.WellFormed key) :
    (pc.insertObject key row).At index r ↔
      r = row ∧ index = rank pc.pivots (key row) ∨ pc.At index r ∧ key r ≠ key row := by
  have slot_lt : rank pc.pivots (key row) < pc.partitions.length := by
    have bound : rank pc.pivots (key row) ≤ pc.pivots.length := rank_le_length
    have length := wf.length
    omega
  simp only [At, insertObject, List.getElem?_modify, partitionWithPK_eq_rank wf]
  by_cases here : rank pc.pivots (key row) = index
  · subst here
    rw [List.getElem?_eq_getElem slot_lt]
    simp only [if_true, Option.map_eq_map, Option.map_some, Option.some.injEq, exists_eq_left',
      List.mem_append, List.mem_filter, List.mem_singleton, decide_eq_true_eq]
    tauto
  · simp only [here, if_false, Option.map_eq_map, Option.map_id']
    constructor
    · rintro ⟨p, found, mem⟩
      -- a row with this key would be in the other partition
      have elsewhere : key r ≠ key row := by
        intro same
        exact here (same ▸ wf.placed index r ⟨p, found, mem⟩)
      exact .inr ⟨⟨p, found, mem⟩, elsewhere⟩
    · rintro (⟨-, same⟩ | ⟨held, -⟩)
      · exact absurd same.symm here
      · exact held

theorem mem_rows_insertObject (wf : pc.WellFormed key) :
    r ∈ (pc.insertObject key row).rows ↔ r = row ∨ r ∈ pc.rows ∧ key r ≠ key row := by
  simp only [mem_rows, at_insertObject wf]
  constructor
  · rintro ⟨index, ⟨rfl, -⟩ | ⟨held, other⟩⟩
    · exact .inl rfl
    · exact .inr ⟨⟨index, held⟩, other⟩
  · rintro (rfl | ⟨⟨index, held⟩, other⟩)
    · exact ⟨_, .inl ⟨rfl, rfl⟩⟩
    · exact ⟨index, .inr ⟨held, other⟩⟩

end Inserts

/-! ### Every operation keeps a collection well formed -/

section Preservation

variable {pc key} {row : Row} {n : Nat}

theorem wellFormed_create (now : Nat) :
    (create now : PartitionedCollection K Row).WellFormed key := by
  refine ⟨rfl, List.Pairwise.nil, by simp [ids, create], ?_⟩
  rintro index row ⟨p, found, mem⟩
  simp only [create, List.getElem?_cons, List.getElem?_nil] at found
  split at found
  · cases found
    simp at mem
  · cases found

open PartitionedCollection

section

variable (wf : pc.WellFormed key)
include wf

theorem WellFormed.insertObject (row : Row) :
    (pc.insertObject key row).WellFormed key where
  length := by simpa [PartitionedCollection.insertObject] using wf.length
  pivots_lt := wf.pivots_lt
  ids_lt := by
    have same : (pc.insertObject key row).ids = pc.ids := ids_modify pc _ _ (by simp)
    rw [same]
    exact wf.ids_lt
  placed index r held := by
    rcases (at_insertObject wf).mp held with ⟨rfl, rfl⟩ | ⟨before, -⟩
    · rfl
    · exact wf.placed index r before

theorem WellFormed.setMaxRefGTID (index : Nat) (gtid : GTID) :
    (pc.setMaxRefGTID index gtid).WellFormed key where
  length := by simpa [PartitionedCollection.setMaxRefGTID] using wf.length
  pivots_lt := wf.pivots_lt
  ids_lt := by
    have same : (pc.setMaxRefGTID index gtid).ids = pc.ids := ids_modify pc _ _ (by simp)
    rw [same]
    exact wf.ids_lt
  placed j r held := wf.placed j r (at_setMaxRefGTID.mp held)

theorem WellFormed.filterRows (keep : Row → Bool) :
    (pc.filterRows keep).WellFormed key where
  length := by simpa [PartitionedCollection.filterRows] using wf.length
  pivots_lt := wf.pivots_lt
  ids_lt := by
    have same : (pc.filterRows keep).ids = pc.ids := by
      simp [ids, PartitionedCollection.filterRows, Function.comp_def]
    rw [same]
    exact wf.ids_lt
  placed j r held := wf.placed j r (at_filterRows.mp held).1

theorem WellFormed.dropFront (remains : n ≤ pc.pivots.length) :
    (pc.dropFront n).WellFormed key where
  length := by
    have length := wf.length
    simp only [PartitionedCollection.dropFront, List.length_drop]
    omega
  pivots_lt := wf.pivots_lt.drop
  ids_lt := by
    have same : (pc.dropFront n).ids = pc.ids.drop n := by
      simp [ids, PartitionedCollection.dropFront]
    rw [same]
    exact wf.ids_lt.drop
  placed j r held := by
    have before := wf.placed _ r (at_dropFront.mp held)
    simp only [PartitionedCollection.dropFront, rank_drop wf.pivots_lt, before]
    omega

theorem WellFormed.sanityCheck : pc.sanityCheck := ⟨wf.length, wf.pivots_lt⟩

theorem WellFormed.dropAt (many : 1 < pc.numPartitions) {index : Nat}
    (inside : index < pc.numPartitions) : (pc.dropAt index).WellFormed key where
  length := by
    have length : pc.numPartitions = pc.pivots.length + 1 := wf.length
    have fewer : (pc.dropAt index).partitions.length = pc.numPartitions - 1 :=
      List.length_eraseIdx_of_lt inside
    have pivots : (pc.dropAt index).pivots.length = pc.pivots.length - 1 := by
      simp only [PartitionedCollection.dropAt]
      split_ifs with last
      · exact List.length_dropLast
      · exact List.length_eraseIdx_of_lt (by omega)
    omega
  pivots_lt := by
    simp only [PartitionedCollection.dropAt]
    split_ifs
    · exact wf.pivots_lt.sublist (List.dropLast_sublist _)
    · exact wf.pivots_lt.sublist (List.eraseIdx_sublist ..)
  ids_lt := wf.ids_lt.sublist ((List.eraseIdx_sublist pc.partitions index).map Partition.id)
  placed j r held := by
    have length : pc.numPartitions = pc.pivots.length + 1 := wf.length
    have before := wf.placed _ r (at_dropAt.mp held)
    simp only [PartitionedCollection.dropAt]
    split_ifs with last
    · -- every partition left lies before the one dropped
      have left : j < pc.numPartitions - 1 := by
        obtain ⟨p, found, -⟩ := held
        exact (List.getElem?_eq_some_iff.mp found).1.trans_eq (List.length_eraseIdx_of_lt inside)
      rw [if_pos (by omega)] at before
      rw [List.dropLast_eq_eraseIdx (i := pc.pivots.length - 1) (by omega),
        rank_eraseIdx wf.pivots_lt (by omega), before, if_neg (by omega)]
    · rw [rank_eraseIdx wf.pivots_lt (by omega), before]
      split_ifs <;> omega

/-- The ids increase, so the search finds the partition. -/
theorem dropPartition_eq (many : 1 < pc.numPartitions) {index : Nat}
    (found : pc.ids[index]? = some id) : pc.dropPartition id = some (pc.dropAt index) := by
  have inside : index < pc.numPartitions := by
    simpa [ids, numPartitions] using (List.getElem?_eq_some_iff.mp found).1
  have place := rank_of_getElem? wf.ids_lt found
  have search : pc.findInMemoryPartition id = index := by
    unfold findInMemoryPartition
    rw [bisect_eq_rank wf.ids_lt (Nat.zero_le _) (by omega) _ (by omega), place]
    simp only [ids, List.length_map, numPartitions] at inside ⊢
    omega
  have sane := (wf.dropAt many inside).sanityCheck
  simp only [dropAt] at sane
  simp only [dropPartition, search]
  simp [check, wf.sanityCheck, many, found, sane, List.mem_of_getElem? found, dropAt]

theorem dropPartition_first (many : 1 < pc.numPartitions) {first : Partition Row}
    (found : pc.partitions[0]? = some first) :
    pc.dropPartition first.id = some (pc.dropFront 1) := by
  have head : pc.ids[0]? = some first.id := by simp [ids, found]
  have not_last : ¬ 0 = pc.numPartitions - 1 := by omega
  rw [dropPartition_eq wf many head]
  simp [dropAt, not_last, dropFront, List.eraseIdx_zero]

end

/-- The loop drops a front segment, each partition of which was droppable when it came
first, and reports the last pivot dropped. -/
theorem dropWhileFirst_spec (droppable : PartitionedCollection K Row → Bool) (rounds : Nat)
    (wf : pc.WellFormed key) (trimmed : Option K) :
    ∃ n ≤ pc.pivots.length, dropWhileFirst droppable rounds pc trimmed =
        some (pc.dropFront n, if n = 0 then trimmed else pc.pivots[n - 1]?) ∧
      ∀ i < n, droppable (pc.dropFront i) := by
  induction rounds generalizing pc trimmed with
  | zero => exact ⟨0, Nat.zero_le _, rfl, nofun⟩
  | succ rounds ih =>
    have length := wf.length
    unfold dropWhileFirst
    by_cases single : pc.numPartitions = 1
    · exact ⟨0, Nat.zero_le _, by rw [if_pos single]; rfl, nofun⟩
    · rw [if_neg single]
      by_cases allowed : droppable pc = true
      · rw [if_pos allowed]
        unfold numPartitions at single
        have has_first : 0 < pc.partitions.length := by omega
        have has_pivot : 0 < pc.pivots.length := by omega
        have dropped := dropPartition_first wf (by unfold numPartitions; omega)
          (List.getElem?_eq_getElem has_first)
        obtain ⟨n, remains, result, each⟩ :=
          ih (wf.dropFront (n := 1) has_pivot) (some pc.pivots[0])
        have front : ∀ m, (pc.dropFront 1).dropFront m = pc.dropFront (m + 1) := by
          intro m
          simp [dropFront]
        refine ⟨n + 1, ?_, ?_, ?_⟩
        · simp only [dropFront, List.length_drop] at remains
          omega
        · simp only [List.getElem?_eq_getElem has_first, List.getElem?_eq_getElem has_pivot,
            dropped, Option.bind_eq_bind, Option.bind_some, result, front]
          cases n with
          | zero => simp [List.getElem?_eq_getElem has_pivot]
          | succ n => simp [dropFront]
        · intro i lt
          cases i with
          | zero => exact allowed
          | succ i => exact front i ▸ each i (by omega)
      · exact ⟨0, Nat.zero_le _, by rw [if_neg allowed]; rfl, nofun⟩

section

variable (wf : pc.WellFormed key)
include wf

/-- What no pivot reaches and no row exceeds can cap the last partition. -/
theorem WellFormed.capAndAppend (now : Nat) (above : ∀ p ∈ pc.pivots, p < pivot)
    (le_pivot : ∀ index row, pc.At index row → key row ≤ pivot) (fresh : ∀ i ∈ pc.ids, i < id) :
    (pc.capAndAppend pivot id now).WellFormed key where
  length := by simp [PartitionedCollection.capAndAppend, wf.length]
  pivots_lt := by
    simp only [PartitionedCollection.capAndAppend, List.pairwise_append]
    exact ⟨wf.pivots_lt, List.pairwise_singleton _ _, by simpa using above⟩
  ids_lt := by
    have shape : (pc.capAndAppend pivot id now).ids = pc.ids ++ [id] := by
      simp [ids, PartitionedCollection.capAndAppend]
    rw [shape, List.pairwise_append]
    exact ⟨wf.ids_lt, List.pairwise_singleton _ _, by simpa using fresh⟩
  placed index row held := by
    have before := at_capAndAppend.mp held
    rw [PartitionedCollection.capAndAppend, rank_append_of_le (le_pivot index row before)]
    exact wf.placed index row before

theorem WellFormed.last :
    ∃ last, pc.partitions.getLast? = some last ∧ pc.partitions[pc.pivots.length]? = some last ∧
      ∀ id ∈ pc.ids, id ≤ last.id := by
  have length := wf.length
  have inside : pc.pivots.length < pc.partitions.length := by omega
  refine ⟨pc.partitions[pc.pivots.length], ?_, List.getElem?_eq_getElem inside, ?_⟩
  · rw [List.getLast?_eq_getElem?, length]
    exact List.getElem?_eq_getElem inside
  · intro id mem
    obtain ⟨i, lt, rfl⟩ := List.mem_iff_getElem.mp mem
    have lt' : i < pc.partitions.length := by simpa [ids] using lt
    rcases Nat.lt_or_ge i pc.pivots.length with capped | final
    · have order := List.pairwise_iff_getElem.mp wf.ids_lt i pc.pivots.length lt
        (by simpa [ids] using inside) capped
      simpa [ids] using order.le
    · have : i = pc.pivots.length := by omega
      simp [ids, this]

/-- A key above every pivot that no row of the last partition exceeds is exceeded by no
row. -/
theorem WellFormed.rows_le (above : ∀ p ∈ pc.pivots, p < pivot)
    (last : ∀ row, pc.At pc.pivots.length row → key row ≤ pivot) :
    ∀ index row, pc.At index row → key row ≤ pivot := by
  intro index row held
  have placed := wf.placed index row held
  rcases Nat.lt_or_ge index pc.pivots.length with capped | final
  · have found := List.getElem?_eq_getElem capped
    have not_above := (lt_rank_iff (k := key row) wf.pivots_lt found).not.mp (by omega)
    exact (not_lt.mp not_above).trans (above _ (List.getElem_mem capped)).le
  · have bound : rank pc.pivots (key row) ≤ pc.pivots.length := rank_le_length
    obtain rfl : index = pc.pivots.length := by omega
    exact last row held

/-- A key of the last partition lies above every pivot. -/
theorem WellFormed.pivots_lt_of_last {k : K} (last : rank pc.pivots k = pc.pivots.length) :
    ∀ p ∈ pc.pivots, p < k := by
  intro p mem
  obtain ⟨i, lt, rfl⟩ := List.mem_iff_getElem.mp mem
  rw [← lt_rank_iff wf.pivots_lt (List.getElem?_eq_getElem lt), last]
  exact lt

/-- The greatest key of the last partition lies above every pivot and below no row. -/
theorem WellFormed.maxPK {last : Partition Row}
    (is_last : pc.partitions[pc.pivots.length]? = some last) (max : last.maxPK key = some pivot) :
    (∀ p ∈ pc.pivots, p < pivot) ∧ ∀ index row, pc.At index row → key row ≤ pivot := by
  have greatest : pivot ∈ last.rows.map key ∧ ∀ k ∈ last.rows.map key, k ≤ pivot :=
    List.max?_eq_some_iff.mp max
  obtain ⟨top, top_mem, rfl⟩ := List.mem_map.mp greatest.1
  have above := wf.pivots_lt_of_last (wf.placed _ top ⟨last, is_last, top_mem⟩)
  refine ⟨above, wf.rows_le above ?_⟩
  rintro row ⟨p, found, mem⟩
  cases is_last.symm.trans found
  exact greatest.2 _ (List.mem_map_of_mem mem)

/-- `addPartition` fails exactly when there is nothing to cap at. Otherwise the new pivot
is one that no row exceeds. -/
theorem addPartition_cases (now : Nat) :
    (pc.capPartitionFailed key = true ∧ pc.addPartition key now = none) ∨
    pc.capPartitionFailed key = false ∧
      ∃ pivot id, pc.addPartition key now = some (pc.capAndAppend pivot id now) ∧
        (pc.capAndAppend pivot id now).WellFormed key ∧
        ∀ index row, pc.At index row → key row ≤ pivot := by
  obtain ⟨last, found, is_last, ids_le⟩ := wf.last
  cases max : last.maxPK key with
  | none =>
    left
    simp [capPartitionFailed, addPartition, check, wf.sanityCheck, found, max]
  | some pivot =>
    right
    obtain ⟨above, le_pivot⟩ := wf.maxPK is_last max
    have wf' := wf.capAndAppend now above le_pivot (fun id mem => Nat.lt_succ_of_le (ids_le id mem))
    refine ⟨by simp [capPartitionFailed, found, max], pivot, last.id + 1, ?_, wf', le_pivot⟩
    simp [addPartition, check, wf.sanityCheck, found, max, wf'.sanityCheck]

end

end Preservation

end PartitionedCollection

end TokuMX.Collection
