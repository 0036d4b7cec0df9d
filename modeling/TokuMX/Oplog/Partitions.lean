import TokuMX.Collection.Partitioned
import TokuMX.Oplog.Refs

/-!
The partitions of the oplog and of `oplog.refs` (`db/oplog.cpp`).

The oplog is partitioned by GTID and `oplog.refs` by `(oid, seq)`. Both are trimmed from
the front. What keeps a partition of `oplog.refs` from going before the entries that refer
to it is the `maxRefGTID` in its metadata.

* `StoreInv` — both collections are well formed, and the `maxRefGTID` of every capped
  partition of `oplog.refs` bounds the GTID of every entry in the oplog with a document in
  it. Adding partitions and trimming keep it (`StoreInv.addOplogPartitions`,
  `StoreInv.trimWith`), and so do writes that respect it.

The metadata of a partition changes in the same step as the partition. Of an entry only
the GTID and what it refers to are kept.
-/

namespace TokuMX.Oplog

open TokuMX.Lib TokuMX.Repl TokuMX.Collection PartitionedCollection

variable {OID Op : Type}

/-- An entry of the oplog: `_id`, and `ops` or `ref`. -/
structure OplogEntry (OID Op : Type) where
  gtid : GTID
  payload : Payload OID Op
deriving DecidableEq

/-- `local.oplog.rs` and `local.oplog.refs`. -/
structure OplogStore (OID Op : Type) where
  op : PartitionedCollection GTID (OplogEntry OID Op)
  refs : PartitionedCollection (OID ×ₗ Nat) (RefsDoc OID Op)
deriving DecidableEq

/-- `createOplog`. -/
def OplogStore.create (now : Nat) : OplogStore OID Op := ⟨.create now, .create now⟩

/-- The loop of `logTransactionOpsRef` over the metadata of `count` partitions from `i` on.
It fails on a partition without `maxRefGTID`. -/
def raiseMaxRefGTID {K Row : Type} (gtid : GTID) :
    (count i : Nat) → PartitionedCollection K Row → Option (PartitionedCollection K Row)
  | 0, _, pc => some pc
  | count + 1, i, pc => do
    let currGTID ← pc.stamp i
    raiseMaxRefGTID gtid count (i + 1)
      (if gtid ≤ currGTID then pc else pc.setMaxRefGTID i gtid)

/-- The first oplog partition may go by time: the second was created by `tsMillis`. -/
def droppableTS (tsMillis : Nat) (op : PartitionedCollection GTID (OplogEntry OID Op)) : Bool :=
  match op.partitions[1]? with
  | some second => second.createTime ≤ tsMillis
  | none => false

/-- The first oplog partition may go by GTID: its pivot is not above `gtid`. -/
def droppableGTID (gtid : GTID) (op : PartitionedCollection GTID (OplogEntry OID Op)) : Bool :=
  match op.pivots[0]? with
  | some pivot => pivot ≤ gtid
  | none => false

/-- The first partition of `oplog.refs` may go: its `maxRefGTID` is not above `maxGTID`. -/
def droppableRefs {K Row : Type} (maxGTID : GTID) (refs : PartitionedCollection K Row) : Bool :=
  match refs.stamp 0 with
  | some currGTID => currGTID ≤ maxGTID
  | none => false

namespace OplogStore

variable [LinearOrder OID] (s : OplogStore OID Op)

/-- `writeEntryToOplog`. -/
def writeEntryToOplog (entry : OplogEntry OID Op) : OplogStore OID Op :=
  { s with op := s.op.insertObject OplogEntry.gtid entry }

/-- `writeEntryToOplogRefs`. -/
def writeEntryToOplogRefs (doc : RefsDoc OID Op) : OplogStore OID Op :=
  { s with refs := s.refs.insertObject RefsDoc.key doc }

/-- `logTransactionOpsRef`. -/
def logTransactionOpsRef (gtid : GTID) (oid : OID) : Option (OplogStore OID Op) := do
  let written := s.writeEntryToOplog ⟨gtid, .ref oid⟩
  let numRef := s.refs.numPartitions
  let minPartitionInserted := s.refs.partitionWithPK (toLex (oid, 0))
  if minPartitionInserted < numRef - 1 then
    let refs ← raiseMaxRefGTID gtid (numRef - 1 - minPartitionInserted) minPartitionInserted s.refs
    some { written with refs := refs }
  else some written

/-- `replicateFullTransactionToOplog`. `cursor` is what the cursor on the other member's
`oplog.refs` yields from the entry's OID on. -/
def replicateFullTransactionToOplog (entry : OplogEntry OID Op) (cursor : List (RefsDoc OID Op)) :
    OplogStore OID Op :=
  match entry.payload with
  | .ref oid =>
    ((cursor.takeWhile fun d => d.oid = oid).foldl writeEntryToOplogRefs s).writeEntryToOplog
      entry
  | .ops _ => s.writeEntryToOplog entry

/-- `addOplogPartitions`. -/
def addOplogPartitions (now : Nat) : Option (OplogStore OID Op) := do
  let op ← s.op.addPartition OplogEntry.gtid now
  if s.refs.capPartitionFailed RefsDoc.key then
    some { s with op := op }
  else
    let refs ← s.refs.addPartition RefsDoc.key now
    let pivot ← op.pivots[op.numPartitions - 2]?
    some ⟨op, refs.setMaxRefGTID (refs.numPartitions - 2) pivot⟩

/-- `trimOplogRefs`. -/
def trimOplogRefs (maxGTID : GTID) : Option (OplogStore OID Op) := do
  let (refs, _) ←
    PartitionedCollection.dropWhileFirst (droppableRefs maxGTID) s.refs.numPartitions s.refs none
  some { s with refs := refs }

/-- The common body of the two trims, for a test on the oplog. -/
def trimWith (droppable : PartitionedCollection GTID (OplogEntry OID Op) → Bool) :
    Option (OplogStore OID Op) := do
  let (op, maxGTIDTrimmed) ←
    PartitionedCollection.dropWhileFirst droppable s.op.numPartitions s.op none
  match maxGTIDTrimmed with
  | none => some { s with op := op }
  | some maxGTID => trimOplogRefs { s with op := op } maxGTID

/-- `maxGTIDTrimmed` as the loop over the oplog leaves it. -/
def maxGTIDTrimmed (droppable : PartitionedCollection GTID (OplogEntry OID Op) → Bool) :
    Option GTID :=
  (PartitionedCollection.dropWhileFirst droppable s.op.numPartitions s.op none).bind Prod.snd

/-- `trimOplogWithTS`, after `willOplogTrimTS`. -/
def trimOplogWithTS (tsMillis : Nat) : Option (OplogStore OID Op) :=
  if droppableTS tsMillis s.op then s.trimWith (droppableTS tsMillis) else some s

/-- `trimOplogwithGTID`, after `willOplogTrimGTID`. -/
def trimOplogwithGTID (gtid : GTID) : Option (OplogStore OID Op) :=
  if droppableGTID gtid s.op then s.trimWith (droppableGTID gtid) else some s

/-- The oplog and `oplog.refs` are well formed, and every capped partition of `oplog.refs`
has a `maxRefGTID` that bounds the entries with a document in it. -/
structure StoreInv : Prop where
  op_wf : s.op.WellFormed OplogEntry.gtid
  refs_wf : s.refs.WellFormed RefsDoc.key
  capped : ∀ j < s.refs.pivots.length, (s.refs.stamp j).isSome
  bounded : ∀ i j entry doc currGTID, s.op.At i entry → s.refs.At j doc →
    entry.payload = .ref doc.oid → j < s.refs.pivots.length →
    s.refs.stamp j = some currGTID → entry.gtid ≤ currGTID

section Raise

variable {K Row : Type} [LinearOrder K] {key : Row → K} {pc : PartitionedCollection K Row}

/-- The loop leaves rows and pivots alone and raises each `maxRefGTID` in its range. -/
theorem raiseMaxRefGTID_spec (gtid : GTID) (count i : Nat) (wf : pc.WellFormed key)
    (capped : ∀ j, i ≤ j → j < i + count → (pc.stamp j).isSome) :
    ∃ pc', raiseMaxRefGTID gtid count i pc = some pc' ∧ pc'.WellFormed key ∧
      pc'.pivots = pc.pivots ∧ (∀ j row, pc'.At j row ↔ pc.At j row) ∧
      ∀ j, pc'.stamp j =
        if i ≤ j ∧ j < i + count then (pc.stamp j).map (max gtid) else pc.stamp j := by
  induction count generalizing i pc with
  | zero =>
    refine ⟨pc, rfl, wf, rfl, fun _ _ => Iff.rfl, ?_⟩
    intro j
    rw [if_neg (by omega)]
  | succ count ih =>
    obtain ⟨currGTID, here⟩ := Option.isSome_iff_exists.mp (capped i le_rfl (by omega))
    have inside : i < pc.numPartitions := by
      by_contra outside
      have missing := List.getElem?_eq_none (Nat.not_lt.mp outside)
      simp [stamp, missing] at here
    have shift : ∀ j, j ≠ i → (i + 1 ≤ j ∧ j < i + 1 + count ↔ i ≤ j ∧ j < i + (count + 1)) := by
      omega
    by_cases high : gtid ≤ currGTID
    · obtain ⟨pc', result, wf', pivots, rows, stamps⟩ :=
        ih (i + 1) wf (fun j low up => capped j (by omega) (by omega))
      refine ⟨pc', ?_, wf', pivots, rows, ?_⟩
      · simp [raiseMaxRefGTID, here, high, result]
      · intro j
        rw [stamps j]
        by_cases same : j = i
        · subst same
          rw [if_neg (by omega), if_pos (by omega), here, Option.map_some, max_eq_right high]
        · simp only [shift j same]
    · have stamp_other : ∀ j, i ≠ j → (pc.setMaxRefGTID i gtid).stamp j = pc.stamp j := by
        intro j other
        rw [stamp_setMaxRefGTID, if_neg (by tauto)]
      obtain ⟨pc', result, wf', pivots, rows, stamps⟩ := ih (i + 1) (wf.setMaxRefGTID i gtid) (by
          intro j low up
          rw [stamp_other j (by omega)]
          exact capped j (by omega) (by omega))
      refine ⟨pc', ?_, wf', pivots, fun j row => (rows j row).trans (by simp), ?_⟩
      · simp [raiseMaxRefGTID, here, high, result]
      · intro j
        rw [stamps j]
        by_cases same : j = i
        · subst same
          rw [if_neg (by omega), if_pos (by omega), here, Option.map_some,
            max_eq_left (not_le.mp high).le, stamp_setMaxRefGTID,
            if_pos ⟨rfl, inside⟩]
        · rw [stamp_other j (Ne.symm same)]
          simp only [shift j same]

end Raise

variable {s s' : OplogStore OID Op}

theorem StoreInv.create (now : Nat) : (create now : OplogStore OID Op).StoreInv where
  op_wf := wellFormed_create now
  refs_wf := wellFormed_create now
  capped := nofun
  bounded := by
    intro i j entry doc currGTID _ _ _ capped
    exact absurd capped (Nat.not_lt_zero j)

open OplogStore

section

variable (inv : s.StoreInv)
include inv

/-- An entry may be written when every capped partition with one of its documents has a
`maxRefGTID` that bounds it. -/
theorem StoreInv.writeEntryToOplog {entry : OplogEntry OID Op}
    (covered : ∀ j doc currGTID, s.refs.At j doc → entry.payload = .ref doc.oid →
      j < s.refs.pivots.length → s.refs.stamp j = some currGTID → entry.gtid ≤ currGTID) :
    (s.writeEntryToOplog entry).StoreInv where
  op_wf := inv.op_wf.insertObject entry
  refs_wf := inv.refs_wf
  capped := inv.capped
  bounded := by
    intro i j e doc currGTID held doc_held refers capped stamp
    rcases (at_insertObject inv.op_wf).mp held with ⟨rfl, -⟩ | ⟨before, -⟩
    · exact covered j doc currGTID doc_held refers capped stamp
    · exact inv.bounded i j e doc currGTID before doc_held refers capped stamp

/-- A document may be written while no entry refers to its OID. -/
theorem StoreInv.writeEntryToOplogRefs {doc : RefsDoc OID Op}
    (unreferred : ∀ i entry, s.op.At i entry → entry.payload ≠ .ref doc.oid) :
    (s.writeEntryToOplogRefs doc).StoreInv where
  op_wf := inv.op_wf
  refs_wf := inv.refs_wf.insertObject doc
  capped := by
    intro j capped
    simpa [OplogStore.writeEntryToOplogRefs] using inv.capped j capped
  bounded := by
    intro i j entry d currGTID held doc_held refers capped stamp
    have stamp' : s.refs.stamp j = some currGTID := by
      simpa [OplogStore.writeEntryToOplogRefs] using stamp
    rcases (at_insertObject inv.refs_wf).mp doc_held with
      ⟨rfl, -⟩ | ⟨before, -⟩
    · exact absurd refers (unreferred i entry held)
    · exact inv.bounded i j entry d currGTID held before refers capped stamp'

/-- Rows may go. -/
theorem StoreInv.filterRows (keepEntry : OplogEntry OID Op → Bool)
    (keepDoc : RefsDoc OID Op → Bool) :
    StoreInv ⟨s.op.filterRows keepEntry, s.refs.filterRows keepDoc⟩ where
  op_wf := inv.op_wf.filterRows keepEntry
  refs_wf := inv.refs_wf.filterRows keepDoc
  capped := by simpa using inv.capped
  bounded := by
    intro i j entry doc currGTID held doc_held refers capped stamp
    simp only [at_filterRows, stamp_filterRows] at held doc_held stamp
    exact inv.bounded i j entry doc currGTID held.1 doc_held.1 refers capped stamp

/-- `logTransactionOpsRef` always succeeds and keeps the invariant: every document of the
transaction is in a partition from that of `(oid, 0)` on. -/
theorem StoreInv.logTransactionOpsRef (gtid : GTID) (oid : OID) :
    ∃ s', s.logTransactionOpsRef gtid oid = some s' ∧ s'.StoreInv ∧
      s'.op = (s.writeEntryToOplog ⟨gtid, .ref oid⟩).op ∧
      ∀ j doc, s'.refs.At j doc ↔ s.refs.At j doc := by
  have length := inv.refs_wf.length
  have first := partitionWithPK_eq_rank inv.refs_wf (toLex (oid, 0))
  -- the documents of the transaction are not before the partition of `(oid, 0)`
  have from_first : ∀ j doc, s.refs.At j doc → doc.oid = oid →
      s.refs.partitionWithPK (toLex (oid, 0)) ≤ j := by
    rintro j doc held rfl
    rw [first, ← inv.refs_wf.placed j doc held]
    exact rank_mono (Prod.Lex.toLex_mono ⟨le_rfl, Nat.zero_le _⟩)
  unfold OplogStore.logTransactionOpsRef numPartitions
  by_cases spread : s.refs.partitionWithPK (toLex (oid, 0)) < s.refs.partitions.length - 1
  · obtain ⟨refs', result, wf', pivots, rows, stamps⟩ := raiseMaxRefGTID_spec gtid
      (s.refs.partitions.length - 1 - s.refs.partitionWithPK (toLex (oid, 0)))
      (s.refs.partitionWithPK (toLex (oid, 0))) inv.refs_wf (fun j _ up => inv.capped j (by omega))
    have raised : ∀ j newGTID, refs'.stamp j = some newGTID → ∃ currGTID,
        s.refs.stamp j = some currGTID ∧ currGTID ≤ newGTID ∧
          (s.refs.partitionWithPK (toLex (oid, 0)) ≤ j → j < s.refs.pivots.length →
            gtid ≤ newGTID) := by
      intro j newGTID stamp
      rw [stamps j] at stamp
      by_cases touched : s.refs.partitionWithPK (toLex (oid, 0)) ≤ j ∧ j < s.refs.pivots.length
      · rw [if_pos (by omega), Option.map_eq_some_iff] at stamp
        obtain ⟨currGTID, before, rfl⟩ := stamp
        exact ⟨currGTID, before, le_max_right _ _, fun _ _ => le_max_left _ _⟩
      · rw [if_neg (by omega)] at stamp
        exact ⟨newGTID, stamp, le_rfl, fun low up => absurd ⟨low, up⟩ touched⟩
    rw [if_pos spread, result]
    refine ⟨_, rfl, ⟨inv.op_wf.insertObject _, wf', ?_, ?_⟩, rfl, rows⟩
    · intro j capped
      rw [pivots] at capped
      rw [stamps j]
      split
      · simpa using inv.capped j capped
      · exact inv.capped j capped
    · intro i j entry doc newGTID held doc_held refers capped stamp
      rw [pivots] at capped
      obtain ⟨currGTID, before, grows, covers⟩ := raised j newGTID stamp
      have doc_before := (rows j doc).mp doc_held
      rcases (at_insertObject inv.op_wf).mp held with ⟨rfl, -⟩ | ⟨old, -⟩
      · have own : doc.oid = oid := by simpa using refers.symm
        exact covers (from_first j doc doc_before own) capped
      · exact (inv.bounded i j entry doc currGTID old doc_before refers capped before).trans grows
  · rw [if_neg spread]
    refine ⟨_, rfl, inv.writeEntryToOplog ?_, rfl, fun _ _ => Iff.rfl⟩
    intro j doc currGTID held refers capped _
    have own : doc.oid = oid := by simpa using refers.symm
    have := from_first j doc held own
    omega

/-- Adding partitions fails only when there is nothing to cap the oplog at; otherwise it
moves no row and keeps the invariant: the GTID put on the partition of `oplog.refs` it caps
is one that no entry exceeds. -/
theorem StoreInv.addOplogPartitions (now : Nat) :
    (s.op.capPartitionFailed OplogEntry.gtid = true ∧ s.addOplogPartitions now = none) ∨
    ∃ s', s.addOplogPartitions now = some s' ∧ s'.StoreInv ∧
      (∀ i entry, s'.op.At i entry ↔ s.op.At i entry) ∧
      ∀ j doc, s'.refs.At j doc ↔ s.refs.At j doc := by
  rcases addPartition_cases inv.op_wf now with
    ⟨empty, failed⟩ | ⟨-, pivot, id, added, op_wf, le_pivot⟩
  · left
    exact ⟨empty, by simp [OplogStore.addOplogPartitions, failed]⟩
  · right
    rcases addPartition_cases inv.refs_wf now with
      ⟨refs_empty, -⟩ | ⟨refs_filled, refsPivot, refsId, refs_added, refs_wf, -⟩
    · refine ⟨{ s with op := s.op.capAndAppend pivot id now }, ?_, ?_, ?_, fun _ _ => Iff.rfl⟩
      · simp [OplogStore.addOplogPartitions, added, refs_empty]
      · refine ⟨op_wf, inv.refs_wf, inv.capped, ?_⟩
        intro i j entry doc currGTID held
        exact inv.bounded i j entry doc currGTID (at_capAndAppend.mp held)
      · exact fun _ _ => at_capAndAppend
    · have length := inv.refs_wf.length
      have op_length := inv.op_wf.length
      let refs := s.refs.capAndAppend refsPivot refsId now
      have count : refs.numPartitions = s.refs.pivots.length + 2 := by
        simp [refs, numPartitions, capAndAppend, length]
      have new_pivot : (s.op.capAndAppend pivot id now).pivots[
          (s.op.capAndAppend pivot id now).numPartitions - 2]? = some pivot := by
        simp [numPartitions, capAndAppend, op_length]
      have new_length : refs.pivots.length = s.refs.pivots.length + 1 := by
        simp [refs, capAndAppend]
      have stamp_last : (refs.setMaxRefGTID s.refs.pivots.length pivot).stamp
          s.refs.pivots.length = some pivot := by
        rw [stamp_setMaxRefGTID, if_pos ⟨rfl, by omega⟩]
      have stamp_old : ∀ j < s.refs.pivots.length,
          (refs.setMaxRefGTID s.refs.pivots.length pivot).stamp j = s.refs.stamp j := by
        intro j old
        rw [stamp_setMaxRefGTID, if_neg (by omega)]
        exact stamp_capAndAppend (by
          unfold numPartitions
          omega)
      refine ⟨⟨s.op.capAndAppend pivot id now, refs.setMaxRefGTID s.refs.pivots.length pivot⟩,
        ?_, ⟨op_wf, refs_wf.setMaxRefGTID _ _, ?_, ?_⟩, ?_, ?_⟩
      · simp [OplogStore.addOplogPartitions, added, refs_filled, refs_added, new_pivot]
        exact count ▸ rfl
      · intro j capped
        rcases Nat.lt_or_ge j s.refs.pivots.length with old | new
        · simpa [stamp_old j old] using inv.capped j old
        · have here : j = s.refs.pivots.length := by
            have : j < refs.pivots.length := capped
            omega
          simp [here, stamp_last]
      · intro i j entry doc currGTID held doc_held refers capped stamp
        have held' := at_capAndAppend.mp held
        have doc_held' : s.refs.At j doc := by simpa [refs] using doc_held
        rcases Nat.lt_or_ge j s.refs.pivots.length with old | new
        · exact inv.bounded i j entry doc currGTID held' doc_held' refers old
            (stamp_old j old ▸ stamp)
        · have here : j = s.refs.pivots.length := by
            have : j < refs.pivots.length := capped
            omega
          subst here
          cases stamp_last.symm.trans stamp
          exact le_pivot i entry held'
      · exact fun _ _ => at_capAndAppend
      · intro j doc
        simp [refs]

/-! ### Trimming -/

theorem StoreInv.dropFront {m n : Nat} (op_remains : m ≤ s.op.pivots.length)
    (refs_remains : n ≤ s.refs.pivots.length) :
    StoreInv ⟨s.op.dropFront m, s.refs.dropFront n⟩ where
  op_wf := inv.op_wf.dropFront op_remains
  refs_wf := inv.refs_wf.dropFront refs_remains
  capped := by
    intro j capped
    simp only [PartitionedCollection.dropFront, List.length_drop] at capped
    simpa using inv.capped (n + j) (by omega)
  bounded := by
    intro i j entry doc currGTID held doc_held refers capped stamp
    simp only [PartitionedCollection.at_dropFront, PartitionedCollection.stamp_dropFront]
      at held doc_held stamp
    simp only [PartitionedCollection.dropFront, List.length_drop] at capped
    exact inv.bounded _ _ entry doc currGTID held doc_held refers (by omega) stamp

/-- A trim drops a front segment of the oplog and one of `oplog.refs`; the `maxRefGTID` of
every partition of the latter is at most the last pivot of the former. -/
theorem StoreInv.trimWith (droppable : PartitionedCollection GTID (OplogEntry OID Op) → Bool) :
    ∃ m ≤ s.op.pivots.length, ∃ n ≤ s.refs.pivots.length,
      s.trimWith droppable = some ⟨s.op.dropFront m, s.refs.dropFront n⟩ ∧
      ∀ j < n, ∃ maxGTID currGTID, s.maxGTIDTrimmed droppable = some maxGTID ∧
        0 < m ∧ s.op.pivots[m - 1]? = some maxGTID ∧
        s.refs.stamp j = some currGTID ∧ currGTID ≤ maxGTID := by
  obtain ⟨m, op_remains, op_result, -⟩ :=
    dropWhileFirst_spec droppable s.op.numPartitions inv.op_wf none
  rcases Nat.eq_zero_or_pos m with rfl | positive
  · exact ⟨0, op_remains, 0, Nat.zero_le _, by simp [OplogStore.trimWith, op_result]; rfl, nofun⟩
  · have inside : m - 1 < s.op.pivots.length := by omega
    have pivot := List.getElem?_eq_getElem inside
    rw [if_neg positive.ne', pivot] at op_result
    obtain ⟨n, refs_remains, refs_result, each⟩ := dropWhileFirst_spec
      (droppableRefs s.op.pivots[m - 1]) s.refs.numPartitions inv.refs_wf none
    refine ⟨m, op_remains, n, refs_remains, ?_, ?_⟩
    · simp [OplogStore.trimWith, OplogStore.trimOplogRefs, op_result, refs_result]
    · intro j dropped
      have allowed := each j dropped
      simp only [droppableRefs, stamp_dropFront, Nat.add_zero] at allowed
      cases stamp : s.refs.stamp j with
      | none => simp [stamp] at allowed
      | some currGTID =>
        refine ⟨_, currGTID, ?_, positive, pivot, rfl, by simpa [stamp] using allowed⟩
        simp [maxGTIDTrimmed, op_result]

end

variable {droppable : PartitionedCollection GTID (OplogEntry OID Op) → Bool}

/-- A trim that leaves an entry leaves its documents. -/
theorem StoreInv.trimWith_keeps (inv : s.StoreInv) (trimmed : s.trimWith droppable = some s')
    {entry : OplogEntry OID Op} {doc : RefsDoc OID Op} (present : entry ∈ s'.op.rows)
    (refers : entry.payload = .ref doc.oid) (held : doc ∈ s.refs.rows) : doc ∈ s'.refs.rows := by
  obtain ⟨m, op_remains, n, refs_remains, result, each⟩ := inv.trimWith droppable
  rw [result] at trimmed
  cases trimmed
  obtain ⟨i, present⟩ := mem_rows.mp present
  obtain ⟨j, held⟩ := mem_rows.mp held
  have before := at_dropFront.mp present
  rcases Nat.lt_or_ge j n with dropped | kept
  · -- the entry would have to be in a dropped partition of the oplog
    obtain ⟨maxGTID, currGTID, -, positive, pivot, stamp, le_max⟩ := each j dropped
    have bound := inv.bounded _ j entry doc currGTID before held refers (by omega) stamp
    have above : maxGTID < entry.gtid := by
      rw [← lt_rank_iff inv.op_wf.pivots_lt pivot, inv.op_wf.placed _ entry before]
      omega
    exact absurd (bound.trans le_max) (not_le.mpr above)
  · refine mem_rows.mpr ⟨j - n, at_dropFront.mpr ?_⟩
    rwa [Nat.add_sub_cancel' kept]

/-- The tests before the trims change nothing: a trim whose test fails drops nothing. -/
theorem trimWith_of_not_droppable (inv : s.StoreInv) (stays : droppable s.op = false) :
    s.trimWith droppable = some s := by
  have length := inv.op_wf.length
  have loop : dropWhileFirst droppable s.op.numPartitions s.op none =
      some (s.op, none) := by
    unfold numPartitions
    rw [length]
    simp [dropWhileFirst, stays]
  simp [trimWith, loop]

theorem trimOplogWithTS_eq (inv : s.StoreInv) (tsMillis : Nat) :
    s.trimOplogWithTS tsMillis = s.trimWith (droppableTS tsMillis) := by
  unfold trimOplogWithTS
  cases will : droppableTS tsMillis s.op with
  | true => rfl
  | false => exact (trimWith_of_not_droppable inv will).symm

theorem trimOplogwithGTID_eq (inv : s.StoreInv) (gtid : GTID) :
    s.trimOplogwithGTID gtid = s.trimWith (droppableGTID gtid) := by
  unfold trimOplogwithGTID
  cases will : droppableGTID gtid s.op with
  | true => rfl
  | false => exact (trimWith_of_not_droppable inv will).symm

end OplogStore

end TokuMX.Oplog
