import Mathlib.Data.List.TakeWhile
import TokuMX.Lib.Runs
import TokuMX.Oplog.Partitions

/-!
How long `oplog.refs` keeps the documents of an entry (`db/oplog.cpp`).

Both members add partitions and trim (`Maintenance`). A primary fills `oplog.refs` while
its transactions run and writes their entries when they commit; a secondary copies entry
and documents together.

* `secondary_retains` — on a secondary every entry in the oplog has all its documents, in
  every run in which the documents of a replicated entry go to the last partition or to
  one whose `maxRefGTID` already bounds the entry (`Covered`). `secondary_loses` — a run
  with an older OID in which a trim takes them: nothing on this path raises `maxRefGTID`.
* `primary_retains` — on a primary the same, in every run in which no trim takes a
  document of a transaction that has not yet logged its entry (`Spares`).
  `primary_loses` — a run in which one does: `maxRefGTID` is raised only at the end.

Uncommitted rows are rows here, as the trims see them; an abort withdraws them. GTIDs may
come in any order, and do not wrap around. OIDs are not used twice.
-/

namespace TokuMX.Oplog

open TokuMX.Lib TokuMX.Repl TokuMX.Collection PartitionedCollection

variable {OID Op : Type}

/-- What is done to the partitions, on any member. -/
inductive Maintenance where
  | addPartitions (now : Nat)
  | trimWithTS (tsMillis : Nat)
  | trimWithGTID (gtid : GTID)

/-- The test that drives the loop over the oplog; adding partitions drops nothing. -/
def Maintenance.droppable :
    Maintenance → PartitionedCollection GTID (OplogEntry OID Op) → Bool
  | .addPartitions _ => fun _ => false
  | .trimWithTS tsMillis => droppableTS tsMillis
  | .trimWithGTID gtid => droppableGTID gtid

/-- The document is not in a partition that goes with a trim by `droppable`: it is in the
last one, or a partition not after its own stops the loop of `trimOplogRefs`. -/
def Spares (droppable : PartitionedCollection GTID (OplogEntry OID Op) → Bool)
    (s : OplogStore OID Op) (doc : RefsDoc OID Op) : Prop :=
  ∀ j maxGTID, s.refs.At j doc → j < s.refs.pivots.length →
    s.maxGTIDTrimmed droppable = some maxGTID →
      ∃ i ≤ j, ∀ currGTID, s.refs.stamp i = some currGTID → maxGTID < currGTID

open OplogStore

/-- Adding partitions spares everything. -/
theorem spares_addPartitions (now : Nat) (s : OplogStore OID Op) (doc : RefsDoc OID Op) :
    Spares (Maintenance.addPartitions now).droppable s doc := by
  have never : s.maxGTIDTrimmed (Maintenance.addPartitions now).droppable = none := by
    unfold maxGTIDTrimmed Maintenance.droppable
    cases s.op.numPartitions <;> simp [dropWhileFirst]
  intro j maxGTID _ _ trimmed
  rw [never] at trimmed
  cases trimmed

variable [LinearOrder OID]

def Maintenance.apply (s : OplogStore OID Op) : Maintenance → Option (OplogStore OID Op)
  | .addPartitions now => s.addOplogPartitions now
  | .trimWithTS tsMillis => s.trimOplogWithTS tsMillis
  | .trimWithGTID gtid => s.trimOplogwithGTID gtid

/-- What maintenance may do: the invariant stays, nothing is added, and the documents of
the entries that are left and those that are spared are left. -/
structure Maintained (spared : RefsDoc OID Op → Prop) (s s' : OplogStore OID Op) : Prop where
  inv : s'.StoreInv
  entries : ∀ entry ∈ s'.op.rows, entry ∈ s.op.rows
  docs : ∀ doc ∈ s'.refs.rows, doc ∈ s.refs.rows
  referred : ∀ entry ∈ s'.op.rows, ∀ doc ∈ s.refs.rows, entry.payload = .ref doc.oid →
    doc ∈ s'.refs.rows
  spared : ∀ doc ∈ s.refs.rows, spared doc → doc ∈ s'.refs.rows

section Maintained

variable {s s' : OplogStore OID Op} {m : Maintenance}
  {droppable : PartitionedCollection GTID (OplogEntry OID Op) → Bool}

theorem trimWith_maintained (inv : s.StoreInv) (trimmed : s.trimWith droppable = some s') :
    Maintained (Spares droppable s) s s' := by
  have keeps : ∀ entry ∈ s'.op.rows, ∀ doc ∈ s.refs.rows, entry.payload = .ref doc.oid →
      doc ∈ s'.refs.rows :=
    fun _ present _ held refers => inv.trimWith_keeps trimmed present refers held
  obtain ⟨k, op_remains, n, refs_remains, result, each⟩ := inv.trimWith droppable
  rw [result] at trimmed
  cases trimmed
  refine ⟨inv.dropFront op_remains refs_remains, ?_, ?_, keeps, ?_⟩
  · simp only [mem_rows, at_dropFront]
    rintro _ ⟨i, held⟩
    exact ⟨_, held⟩
  · simp only [mem_rows, at_dropFront]
    rintro _ ⟨j, held⟩
    exact ⟨_, held⟩
  · intro doc held spared
    obtain ⟨j, held⟩ := mem_rows.mp held
    rcases Nat.lt_or_ge j n with dropped | kept
    · -- the partition that stops the loop would have been dropped too
      obtain ⟨maxGTID, _, max, -⟩ := each j dropped
      obtain ⟨i, le, stops⟩ := spared j maxGTID held (by omega) max
      obtain ⟨maxGTID', currGTID, max', -, -, stamp, le_max⟩ := each i (by omega)
      cases max.symm.trans max'
      exact absurd le_max (not_le.mpr (stops currGTID stamp))
    · refine mem_rows.mpr ⟨j - n, at_dropFront.mpr ?_⟩
      rwa [Nat.add_sub_cancel' kept]

theorem addOplogPartitions_maintained (inv : s.StoreInv) {now : Nat}
    (added : s.addOplogPartitions now = some s') (spared : RefsDoc OID Op → Prop) :
    Maintained spared s s' := by
  rcases inv.addOplogPartitions now with ⟨-, failed⟩ | ⟨_, result, inv', entries, docs⟩
  · rw [failed] at added
    cases added
  · rw [result] at added
    cases added
    have same_entries : ∀ entry, entry ∈ s'.op.rows ↔ entry ∈ s.op.rows := by
      simp [mem_rows, entries]
    have same_docs : ∀ doc, doc ∈ s'.refs.rows ↔ doc ∈ s.refs.rows := by
      simp [mem_rows, docs]
    refine ⟨inv', ?_, ?_, ?_, ?_⟩
    · exact fun entry => (same_entries entry).mp
    · exact fun doc => (same_docs doc).mp
    · exact fun _ _ doc held _ => (same_docs doc).mpr held
    · exact fun doc held _ => (same_docs doc).mpr held

theorem Maintenance.apply_maintained (inv : s.StoreInv) (applied : m.apply s = some s') :
    Maintained (Spares m.droppable s) s s' := by
  cases m with
  | addPartitions now => exact addOplogPartitions_maintained inv applied _
  | trimWithTS tsMillis =>
    exact trimWith_maintained inv ((trimOplogWithTS_eq inv tsMillis).symm.trans applied)
  | trimWithGTID gtid =>
    exact trimWith_maintained inv ((trimOplogwithGTID_eq inv gtid).symm.trans applied)

end Maintained

/-! ### A secondary -/

/-- A secondary copies entries, in any order relative to the maintenance. -/
inductive SecondaryEvent (OID Op : Type) where
  | replicate (entry : OplogEntry OID Op) (cursor : List (RefsDoc OID Op))
  | maintain (m : Maintenance)

/-- The collections, and the OIDs that transactions of the primary have had. -/
structure SecondaryState (OID Op : Type) where
  store : OplogStore OID Op
  used : List OID

def SecondaryState.start (now : Nat) : SecondaryState OID Op := ⟨.create now, []⟩

/-- The OID an entry refers to, if it does. -/
def Payload.refs : Payload OID Op → List OID
  | .ops _ => []
  | .ref oid => [oid]

/-- The documents of an entry: those the cursor yields before another OID. -/
def ownDocs (oid : OID) (cursor : List (RefsDoc OID Op)) : List (RefsDoc OID Op) :=
  cursor.takeWhile fun d => d.oid = oid

def SecondaryStep (s : SecondaryState OID Op) (e : SecondaryEvent OID Op)
    (s' : SecondaryState OID Op) : Prop :=
  match e with
  | .replicate entry cursor =>
    (∀ oid, entry.payload = .ref oid → oid ∉ s.used) ∧ (cursor.map RefsDoc.key).Nodup ∧
      s' = ⟨s.store.replicateFullTransactionToOplog entry cursor, entry.payload.refs ++ s.used⟩
  | .maintain m => ∃ store, m.apply s.store = some store ∧ s' = { s with store := store }

/-- The documents of a replicated entry go to the last partition or to one whose
`maxRefGTID` bounds the entry. -/
def Covered (s : SecondaryState OID Op) : SecondaryEvent OID Op → Prop
  | .replicate ⟨gtid, .ref oid⟩ cursor => ∀ doc ∈ ownDocs oid cursor,
      s.store.refs.partitionWithPK doc.key < s.store.refs.numPartitions - 1 →
        ∀ currGTID ∈ s.store.refs.stamp (s.store.refs.partitionWithPK doc.key), gtid ≤ currGTID
  | _ => True

variable {store : OplogStore OID Op} {oid : OID}

section Secondary

variable {s : OplogStore OID Op}

/-- Writing documents with distinct keys, to whose OIDs no entry refers. -/
theorem writeDocs_spec (docs : List (RefsDoc OID Op)) (inv : s.StoreInv)
    (distinct : (docs.map RefsDoc.key).Nodup)
    (unreferred : ∀ doc ∈ docs, ∀ i entry, s.op.At i entry → entry.payload ≠ .ref doc.oid) :
    (docs.foldl writeEntryToOplogRefs s).StoreInv ∧ (docs.foldl writeEntryToOplogRefs s).op = s.op ∧
      (docs.foldl writeEntryToOplogRefs s).refs.pivots = s.refs.pivots ∧
      (∀ j, (docs.foldl writeEntryToOplogRefs s).refs.stamp j = s.refs.stamp j) ∧
      ∀ j r, (docs.foldl writeEntryToOplogRefs s).refs.At j r ↔
        r ∈ docs ∧ j = rank s.refs.pivots r.key ∨
          s.refs.At j r ∧ ∀ doc ∈ docs, r.key ≠ doc.key := by
  induction docs generalizing s with
  | nil => exact ⟨inv, rfl, rfl, fun _ => rfl, by simp⟩
  | cons doc docs ih =>
    rw [List.map_cons, List.nodup_cons] at distinct
    have inv' := inv.writeEntryToOplogRefs (unreferred doc List.mem_cons_self)
    obtain ⟨final, op, pivots, stamps, rows⟩ := ih inv' distinct.2
      (fun d mem => unreferred d (List.mem_cons_of_mem doc mem))
    have later : ∀ d ∈ docs, doc.key ≠ d.key := by
      intro d mem same
      exact distinct.1 (same ▸ List.mem_map_of_mem mem)
    refine ⟨final, op, pivots, fun j => (stamps j).trans (by simp [writeEntryToOplogRefs]), ?_⟩
    intro j r
    have written : (s.writeEntryToOplogRefs doc).refs.At j r ↔ _ := at_insertObject inv.refs_wf
    rw [List.foldl_cons, rows j r, written]
    simp only [List.mem_cons, forall_eq_or_imp]
    constructor
    · rintro (⟨mem, place⟩ | ⟨⟨rfl, place⟩ | ⟨held, other⟩, others⟩)
      · exact .inl ⟨.inr mem, place⟩
      · exact .inl ⟨.inl rfl, place⟩
      · exact .inr ⟨held, other, others⟩
    · rintro (⟨rfl | mem, place⟩ | ⟨held, other, others⟩)
      · exact .inr ⟨.inl ⟨rfl, place⟩, later⟩
      · exact .inl ⟨mem, place⟩
      · exact .inr ⟨.inr ⟨held, other⟩, others⟩

/-- Every row belongs to a transaction that was replicated, and what was replicated and
is still in the oplog has its documents. -/
structure SecondaryInv (past : List (SecondaryEvent OID Op)) (s : SecondaryState OID Op) :
    Prop where
  store : s.store.StoreInv
  entry_used : ∀ entry ∈ s.store.op.rows, ∀ oid, entry.payload = .ref oid → oid ∈ s.used
  doc_used : ∀ doc ∈ s.store.refs.rows, doc.oid ∈ s.used
  event_used : ∀ entry cursor, .replicate entry cursor ∈ past → ∀ oid, entry.payload = .ref oid →
    oid ∈ s.used
  held : ∀ entry cursor, .replicate entry cursor ∈ past → entry ∈ s.store.op.rows →
    ∀ oid, entry.payload = .ref oid → ∀ doc ∈ ownDocs oid cursor, doc ∈ s.store.refs.rows

variable {past : List (SecondaryEvent OID Op)} {s : SecondaryState OID Op}

section

variable (inv : SecondaryInv past s)
include inv

theorem SecondaryInv.maintain {m : Maintenance} (applied : m.apply s.store = some store) :
    SecondaryInv (past ++ [.maintain m]) { s with store := store } := by
  have kept := Maintenance.apply_maintained inv.store applied
  refine ⟨kept.inv, ?_, ?_, ?_, ?_⟩
  · exact fun entry mem => inv.entry_used entry (kept.entries entry mem)
  · exact fun doc mem => inv.doc_used doc (kept.docs doc mem)
  · intro entry cursor mem
    exact inv.event_used entry cursor (by simpa using mem)
  · intro entry cursor mem present oid refers doc own
    have before := inv.held entry cursor (by simpa using mem) (kept.entries entry present)
      oid refers doc own
    have same : doc.oid = oid := by simpa using List.mem_takeWhile_imp own
    exact kept.referred entry present doc before (same ▸ refers)

theorem SecondaryInv.replicateOps {entry : OplogEntry OID Op} {cursor : List (RefsDoc OID Op)}
    (inline : ∀ oid, entry.payload ≠ .ref oid) :
    SecondaryInv (past ++ [.replicate entry cursor])
      { s with store := s.store.writeEntryToOplog entry } := by
  have rows : ∀ e, e ∈ (s.store.writeEntryToOplog entry).op.rows → e = entry ∨
      e ∈ s.store.op.rows := by
    intro e mem
    exact ((mem_rows_insertObject inv.store.op_wf).mp mem).imp_right And.left
  refine ⟨inv.store.writeEntryToOplog ?_, ?_, inv.doc_used, ?_, ?_⟩
  · intro j doc currGTID _ refers
    exact absurd refers (inline doc.oid)
  · intro e mem oid refers
    rcases rows e mem with rfl | before
    · exact absurd refers (inline oid)
    · exact inv.entry_used e before oid refers
  · intro e cursor' mem oid refers
    rcases List.mem_append.mp mem with before | new
    · exact inv.event_used e cursor' before oid refers
    · simp only [List.mem_singleton, SecondaryEvent.replicate.injEq] at new
      exact absurd (new.1 ▸ refers) (inline oid)
  · intro e cursor' mem present oid refers
    rcases List.mem_append.mp mem with before | new
    · rcases rows e present with rfl | old
      · exact absurd refers (inline oid)
      · exact inv.held e cursor' before old oid refers
    · simp only [List.mem_singleton, SecondaryEvent.replicate.injEq] at new
      exact absurd (new.1 ▸ refers) (inline oid)

theorem SecondaryInv.replicateRef {gtid : GTID} {cursor : List (RefsDoc OID Op)}
    (fresh : oid ∉ s.used) (distinct : (cursor.map RefsDoc.key).Nodup)
    (covered : Covered s (.replicate ⟨gtid, .ref oid⟩ cursor)) :
    SecondaryInv (past ++ [.replicate ⟨gtid, .ref oid⟩ cursor])
      ⟨((ownDocs oid cursor).foldl writeEntryToOplogRefs s.store).writeEntryToOplog
        ⟨gtid, .ref oid⟩, oid :: s.used⟩ := by
  have own : ∀ doc ∈ ownDocs oid cursor, doc.oid = oid := by
    intro doc mem
    simpa using List.mem_takeWhile_imp mem
  have unreferred : ∀ doc ∈ ownDocs oid cursor, ∀ i entry, s.store.op.At i entry →
      entry.payload ≠ .ref doc.oid := by
    intro doc mem i entry held refers
    rw [own doc mem] at refers
    exact fresh (inv.entry_used entry (mem_rows.mpr ⟨i, held⟩) oid refers)
  obtain ⟨mid_inv, op, pivots, stamps, docs_at⟩ := writeDocs_spec (ownDocs oid cursor) inv.store
    (distinct.sublist ((List.takeWhile_sublist _).map _)) unreferred
  have docs_mem : ∀ doc, doc ∈ ((ownDocs oid cursor).foldl writeEntryToOplogRefs
      s.store).refs.rows ↔ doc ∈ ownDocs oid cursor ∨
        doc ∈ s.store.refs.rows ∧ ∀ d ∈ ownDocs oid cursor, doc.key ≠ d.key := by
    intro doc
    simp only [mem_rows, docs_at, exists_or, exists_and_left, exists_eq, and_true, exists_and_right]
  have entries : ∀ e ∈ (((ownDocs oid cursor).foldl writeEntryToOplogRefs
      s.store).writeEntryToOplog ⟨gtid, .ref oid⟩).op.rows,
      e = ⟨gtid, .ref oid⟩ ∨ e ∈ s.store.op.rows := by
    intro e mem
    have := (mem_rows_insertObject mid_inv.op_wf).mp mem
    rw [op] at this
    exact this.imp_right And.left
  refine ⟨mid_inv.writeEntryToOplog ?_, ?_, ?_, ?_, ?_⟩
  · intro j doc currGTID held refers capped stamp
    have same : doc.oid = oid := by simpa using refers.symm
    rw [pivots] at capped
    rw [stamps j] at stamp
    rcases (docs_at j doc).mp held with ⟨mem, rfl⟩ | ⟨before, -⟩
    · have place := partitionWithPK_eq_rank inv.store.refs_wf doc.key
      have length := inv.store.refs_wf.length
      refine covered doc mem ?_ currGTID ?_
      · rw [place]
        unfold numPartitions
        omega
      · rw [place]
        exact stamp
    · exact absurd (same ▸ inv.doc_used doc (mem_rows.mpr ⟨j, before⟩)) fresh
  · intro e mem oid' refers
    rcases entries e mem with rfl | before
    · cases refers
      exact List.mem_cons_self
    · exact List.mem_cons_of_mem _ (inv.entry_used e before oid' refers)
  · intro doc mem
    rcases (docs_mem doc).mp mem with new | ⟨before, -⟩
    · rw [own doc new]
      exact List.mem_cons_self
    · exact List.mem_cons_of_mem _ (inv.doc_used doc before)
  · intro e cursor' mem oid' refers
    rcases List.mem_append.mp mem with before | new
    · exact List.mem_cons_of_mem _ (inv.event_used e cursor' before oid' refers)
    · simp only [List.mem_singleton, SecondaryEvent.replicate.injEq] at new
      rw [new.1] at refers
      cases refers
      exact List.mem_cons_self
  · intro e cursor' mem present oid' refers doc own_doc
    apply (docs_mem doc).mpr
    rcases List.mem_append.mp mem with before | new
    · have known := inv.event_used e cursor' before oid' refers
      have old : e ∈ s.store.op.rows := by
        rcases entries e present with rfl | old
        · cases refers
          exact absurd known fresh
        · exact old
      refine .inr ⟨inv.held e cursor' before old oid' refers doc own_doc, ?_⟩
      -- its OID is another one
      intro d mem same
      have doc_oid : doc.oid = oid' := by simpa using List.mem_takeWhile_imp own_doc
      have keys : doc.oid = d.oid := congrArg (fun k => (ofLex k).1) same
      exact fresh (own d mem ▸ keys ▸ doc_oid ▸ known)
    · simp only [List.mem_singleton, SecondaryEvent.replicate.injEq] at new
      rw [new.1] at refers
      cases refers
      exact .inl (new.2 ▸ own_doc)

/-- A step that covers the entry it replicates. -/
def CoveredStep (s : SecondaryState OID Op) (e : SecondaryEvent OID Op)
    (s' : SecondaryState OID Op) : Prop :=
  SecondaryStep s e s' ∧ Covered s e

theorem SecondaryInv.step {s' : SecondaryState OID Op} {e : SecondaryEvent OID Op}
    (step : CoveredStep s e s') : SecondaryInv (past ++ [e]) s' := by
  obtain ⟨taken, covered⟩ := step
  cases e with
  | replicate entry cursor =>
    obtain ⟨gtid, payload⟩ := entry
    obtain ⟨fresh, distinct, rfl⟩ := taken
    cases payload with
    | ops ops => exact inv.replicateOps nofun
    | ref oid => exact inv.replicateRef (fresh oid rfl) distinct covered
  | maintain m =>
    obtain ⟨store, applied, rfl⟩ := taken
    exact inv.maintain applied

end

/-- **On a secondary, what the oplog refers to is there.** -/
theorem secondary_retains {now : Nat} {events : List (SecondaryEvent OID Op)}
    {s : SecondaryState OID Op} (run : Run CoveredStep (.start now) events s)
    (gtid : GTID) (oid : OID) (cursor : List (RefsDoc OID Op))
    (replicated : .replicate ⟨gtid, .ref oid⟩ cursor ∈ events)
    (present : ⟨gtid, .ref oid⟩ ∈ s.store.op.rows) :
    ∀ doc ∈ ownDocs oid cursor, doc ∈ s.store.refs.rows := by
  have start : SecondaryInv [] (.start now : SecondaryState OID Op) := by
    refine ⟨.create now, ?_, ?_, nofun, nofun⟩
    · simp [SecondaryState.start, OplogStore.create, PartitionedCollection.create,
        PartitionedCollection.rows]
    · simp [SecondaryState.start, OplogStore.create, PartitionedCollection.create,
        PartitionedCollection.rows]
  have inv : SecondaryInv events s := run.history start fun _ _ _ _ _ before => before.step
  exact inv.held _ cursor replicated present oid rfl

/-- A store after one entry, with OID 5, and an added partition. -/
def cappedStore : OplogStore Nat Nat where
  op := ⟨[⟨1, 1⟩], [⟨0, 0, none, [⟨⟨1, 1⟩, .ref 5⟩]⟩, ⟨1, 10, none, []⟩]⟩
  refs := ⟨[toLex (5, 1)], [⟨0, 0, some ⟨1, 1⟩, [⟨5, 1, [50]⟩]⟩, ⟨1, 10, none, []⟩]⟩

/-- The documents of an older OID go to the last partition; the trim leaves them. -/
theorem secondary_retains_older_oid : ∃ s : SecondaryState Nat Nat,
    Run CoveredStep (.start 0)
      [.replicate ⟨⟨1, 1⟩, .ref 5⟩ [⟨5, 1, [50]⟩], .maintain (.addPartitions 10),
        .replicate ⟨⟨1, 2⟩, .ref 8⟩ [⟨8, 1, [80]⟩],
        .replicate ⟨⟨1, 3⟩, .ref 7⟩ [⟨7, 1, [70]⟩, ⟨8, 1, [80]⟩],
        .maintain (.trimWithGTID ⟨1, 1⟩)] s ∧
    s.store.op.rows.length = 2 ∧ s.store.refs.rows.length = 2 ∧
    ∀ doc ∈ ownDocs 7 [⟨7, 1, [70]⟩, ⟨8, 1, [80]⟩], doc ∈ s.store.refs.rows := by
  let final : OplogStore Nat Nat :=
    ⟨⟨[], [⟨1, 10, none, [⟨⟨1, 2⟩, .ref 8⟩, ⟨⟨1, 3⟩, .ref 7⟩]⟩]⟩,
      ⟨[], [⟨1, 10, none, [⟨8, 1, [80]⟩, ⟨7, 1, [70]⟩]⟩]⟩⟩
  refine ⟨⟨final, [7, 8, 5]⟩, ?run, rfl, rfl,
    secondary_retains ?run ⟨1, 3⟩ 7 _ (by simp) (by decide)⟩
  exact .cons ⟨⟨by simp [SecondaryState.start], by decide, rfl⟩, by unfold Covered; decide⟩
    (.cons ⟨⟨cappedStore, by decide, rfl⟩, trivial⟩
      (.cons ⟨⟨by simp [SecondaryState.start, Payload.refs], by decide, rfl⟩,
          by unfold Covered; decide⟩
        (.cons ⟨⟨by simp [SecondaryState.start, Payload.refs], by decide, rfl⟩,
            by unfold Covered; decide⟩
          (.cons ⟨⟨final, by decide, rfl⟩, trivial⟩ (.nil _)))))

/-- The second entry's OID was chosen before the first's. Its document goes to the capped
partition, whose `maxRefGTID` is the first entry's GTID, and goes with it. -/
theorem secondary_loses : ∃ s : SecondaryState Nat Nat,
    Run SecondaryStep (.start 0)
      [.replicate ⟨⟨1, 1⟩, .ref 5⟩ [⟨5, 1, [50]⟩], .maintain (.addPartitions 10),
        .replicate ⟨⟨1, 2⟩, .ref 3⟩ [⟨3, 1, [30]⟩], .maintain (.trimWithGTID ⟨1, 1⟩)] s ∧
    ⟨⟨1, 2⟩, .ref 3⟩ ∈ s.store.op.rows ∧ ⟨3, 1, [30]⟩ ∉ s.store.refs.rows := by
  let final : OplogStore Nat Nat :=
    ⟨⟨[], [⟨1, 10, none, [⟨⟨1, 2⟩, .ref 3⟩]⟩]⟩, ⟨[], [⟨1, 10, none, []⟩]⟩⟩
  refine ⟨⟨final, [3, 5]⟩, ?_, by decide, by decide⟩
  exact .cons ⟨by simp [SecondaryState.start], by decide, rfl⟩
    (.cons ⟨cappedStore, by decide, rfl⟩
      (.cons ⟨by simp [SecondaryState.start, Payload.refs], by decide, rfl⟩
        (.cons ⟨final, by decide, rfl⟩ (.nil _))))

end Secondary

/-! ### A primary -/

/-- What happens on a primary. The entry of a transaction is written before its commit;
others may go in between. -/
inductive PrimaryEvent (OID Op : Type) where
  | begin (oid : OID)
  | spill (doc : RefsDoc OID Op)
  | logOps (gtid : GTID) (ops : List Op)
  | logRef (gtid : GTID) (oid : OID)
  | commit (oid : OID)
  | abort (oid : OID)
  | maintain (m : Maintenance)

/-- The collections, the OIDs that have been used, and those of the transactions that run:
the ones that may still spill, and the ones that have written their entry. -/
structure PrimaryState (OID Op : Type) where
  store : OplogStore OID Op
  used : List OID
  spilling : List OID
  logged : List OID

def PrimaryState.start (now : Nat) : PrimaryState OID Op := ⟨.create now, [], [], []⟩

def Payload.refersTo (oid : OID) : Payload OID Op → Bool
  | .ops _ => false
  | .ref oid' => oid' = oid

/-- An abort withdraws what the transaction wrote. -/
def OplogStore.withdraw (s : OplogStore OID Op) (oid : OID) : OplogStore OID Op :=
  ⟨s.op.filterRows fun e => !e.payload.refersTo oid, s.refs.filterRows fun d => d.oid ≠ oid⟩

def PrimaryStep (s : PrimaryState OID Op) (e : PrimaryEvent OID Op) (s' : PrimaryState OID Op) :
    Prop :=
  match e with
  | .begin oid =>
    oid ∉ s.used ∧ s' = { s with used := oid :: s.used, spilling := oid :: s.spilling }
  | .spill doc =>
    doc.oid ∈ s.spilling ∧ (∀ d ∈ s.store.refs.rows, d.key ≠ doc.key) ∧
      s' = { s with store := s.store.writeEntryToOplogRefs doc }
  | .logOps gtid ops => s' = { s with store := s.store.writeEntryToOplog ⟨gtid, .ops ops⟩ }
  | .logRef gtid oid =>
    oid ∈ s.spilling ∧ ∃ store, s.store.logTransactionOpsRef gtid oid = some store ∧
      s' = { s with
        store := store
        spilling := s.spilling.filter (· ≠ oid)
        logged := oid :: s.logged }
  | .commit oid => oid ∈ s.logged ∧ s' = { s with logged := s.logged.filter (· ≠ oid) }
  | .abort oid =>
    (oid ∈ s.spilling ∨ oid ∈ s.logged) ∧ s' = { s with
      store := s.store.withdraw oid
      spilling := s.spilling.filter (· ≠ oid)
      logged := s.logged.filter (· ≠ oid) }
  | .maintain m => ∃ store, m.apply s.store = some store ∧ s' = { s with store := store }

/-- No trim takes a document of a transaction that has not written its entry. -/
def Careful (s : PrimaryState OID Op) : PrimaryEvent OID Op → Prop
  | .maintain m => ∀ doc ∈ s.store.refs.rows, doc.oid ∈ s.spilling → Spares m.droppable s.store doc
  | _ => True

section Primary

/-- A transaction that may still spill has no entry, and its documents are there; so are
those of every entry in the oplog. -/
structure PrimaryInv (past : List (PrimaryEvent OID Op)) (s : PrimaryState OID Op) : Prop where
  store : s.store.StoreInv
  spilling_used : ∀ oid ∈ s.spilling, oid ∈ s.used
  entry_used : ∀ entry ∈ s.store.op.rows, ∀ oid, entry.payload = .ref oid →
    oid ∈ s.used ∧ oid ∉ s.spilling
  event_used : ∀ doc, .spill doc ∈ past → doc.oid ∈ s.used
  open_held : ∀ doc, .spill doc ∈ past → doc.oid ∈ s.spilling → doc ∈ s.store.refs.rows
  held : ∀ doc, .spill doc ∈ past → ∀ entry ∈ s.store.op.rows, entry.payload = .ref doc.oid →
    doc ∈ s.store.refs.rows

variable {past : List (PrimaryEvent OID Op)} {s s' : PrimaryState OID Op}

section

variable (inv : PrimaryInv past s)
include inv

theorem PrimaryInv.begin (fresh : oid ∉ s.used) :
    PrimaryInv (past ++ [.begin oid])
      { s with used := oid :: s.used, spilling := oid :: s.spilling } := by
  have old : ∀ doc, PrimaryEvent.spill doc ∈ past ++ [.begin oid] → .spill doc ∈ past := by simp
  refine ⟨inv.store, ?_, ?_, ?_, ?_, ?_⟩
  · intro other mem
    rcases List.mem_cons.mp mem with rfl | before
    · exact List.mem_cons_self
    · exact List.mem_cons_of_mem _ (inv.spilling_used other before)
  · intro entry mem other refers
    obtain ⟨known, closed⟩ := inv.entry_used entry mem other refers
    refine ⟨List.mem_cons_of_mem _ known, ?_⟩
    rw [List.mem_cons, not_or]
    exact ⟨fun same => fresh (same ▸ known), closed⟩
  · exact fun doc mem => List.mem_cons_of_mem _ (inv.event_used doc (old doc mem))
  · intro doc mem spilling
    rcases List.mem_cons.mp spilling with same | before
    · exact absurd (same ▸ inv.event_used doc (old doc mem)) fresh
    · exact inv.open_held doc (old doc mem) before
  · exact fun doc mem => inv.held doc (old doc mem)

theorem PrimaryInv.spill {doc : RefsDoc OID Op} (running : doc.oid ∈ s.spilling)
    (fresh : ∀ d ∈ s.store.refs.rows, d.key ≠ doc.key) :
    PrimaryInv (past ++ [.spill doc]) { s with store := s.store.writeEntryToOplogRefs doc } := by
  have unreferred : ∀ entry ∈ s.store.op.rows, entry.payload ≠ .ref doc.oid :=
    fun entry mem refers => (inv.entry_used entry mem doc.oid refers).2 running
  have rows : ∀ d, d ∈ (s.store.writeEntryToOplogRefs doc).refs.rows ↔
      d = doc ∨ d ∈ s.store.refs.rows := by
    intro d
    refine (mem_rows_insertObject inv.store.refs_wf).trans ?_
    exact or_congr_right ⟨And.left, fun mem => ⟨mem, fresh d mem⟩⟩
  have events : ∀ d, PrimaryEvent.spill d ∈ past ++ [.spill doc] → .spill d ∈ past ∨ d = doc := by
    simp
  refine ⟨?_, inv.spilling_used, inv.entry_used, ?_, ?_, ?_⟩
  · apply inv.store.writeEntryToOplogRefs
    intro i entry held
    exact unreferred entry (mem_rows.mpr ⟨i, held⟩)
  · intro d mem
    rcases events d mem with before | rfl
    · exact inv.event_used d before
    · exact inv.spilling_used d.oid running
  · intro d mem spilling
    rcases events d mem with before | rfl
    · exact (rows d).mpr (.inr (inv.open_held d before spilling))
    · exact (rows d).mpr (.inl rfl)
  · intro d mem entry present refers
    rcases events d mem with before | rfl
    · exact (rows d).mpr (.inr (inv.held d before entry present refers))
    · exact absurd refers (unreferred entry present)

theorem PrimaryInv.logOps (gtid : GTID) (ops : List Op) :
    PrimaryInv (past ++ [.logOps gtid ops])
      { s with store := s.store.writeEntryToOplog ⟨gtid, .ops ops⟩ } := by
  have old : ∀ doc, PrimaryEvent.spill doc ∈ past ++ [.logOps gtid ops] → .spill doc ∈ past := by
    simp
  have rows : ∀ e ∈ (s.store.writeEntryToOplog ⟨gtid, .ops ops⟩).op.rows, ∀ oid,
      e.payload = .ref oid → e ∈ s.store.op.rows := by
    intro e mem oid refers
    rcases (mem_rows_insertObject inv.store.op_wf).mp mem with
      rfl | ⟨before, -⟩
    · cases refers
    · exact before
  refine ⟨inv.store.writeEntryToOplog nofun, inv.spilling_used, ?_, ?_, ?_, ?_⟩
  · exact fun e mem oid refers => inv.entry_used e (rows e mem oid refers) oid refers
  · exact fun doc mem => inv.event_used doc (old doc mem)
  · exact fun doc mem => inv.open_held doc (old doc mem)
  · exact fun doc mem e present refers =>
      inv.held doc (old doc mem) e (rows e present doc.oid refers) refers

theorem PrimaryInv.logRef {gtid : GTID} (running : oid ∈ s.spilling)
    (written : s.store.logTransactionOpsRef gtid oid = some store) :
    PrimaryInv (past ++ [.logRef gtid oid]) { s with
      store := store
      spilling := s.spilling.filter (· ≠ oid)
      logged := oid :: s.logged } := by
  have old : ∀ doc, PrimaryEvent.spill doc ∈ past ++ [.logRef gtid oid] → .spill doc ∈ past := by
    simp
  obtain ⟨store', result, inv', op, docs_at⟩ := inv.store.logTransactionOpsRef gtid oid
  cases result.symm.trans written
  have entries : ∀ e ∈ store.op.rows, e = ⟨gtid, .ref oid⟩ ∨ e ∈ s.store.op.rows := by
    intro e mem
    rw [op] at mem
    exact ((mem_rows_insertObject inv.store.op_wf).mp mem).imp_right And.left
  have docs : ∀ doc, doc ∈ store.refs.rows ↔ doc ∈ s.store.refs.rows := by
    simp [mem_rows, docs_at]
  refine ⟨inv', ?_, ?_, ?_, ?_, ?_⟩
  · exact fun other mem => inv.spilling_used other (List.mem_filter.mp mem).1
  · intro e mem other refers
    rcases entries e mem with rfl | before
    · cases refers
      exact ⟨inv.spilling_used oid running, by simp⟩
    · obtain ⟨known, closed⟩ := inv.entry_used e before other refers
      exact ⟨known, fun mem => closed (List.mem_filter.mp mem).1⟩
  · exact fun doc mem => inv.event_used doc (old doc mem)
  · intro doc mem spilling
    exact (docs doc).mpr (inv.open_held doc (old doc mem) (List.mem_filter.mp spilling).1)
  · intro doc mem e present refers
    apply (docs doc).mpr
    rcases entries e present with rfl | before
    · cases refers
      exact inv.open_held doc (old doc mem) running
    · exact inv.held doc (old doc mem) e before refers

theorem PrimaryInv.abort (oid : OID) :
    PrimaryInv (past ++ [.abort oid]) { s with
      store := s.store.withdraw oid
      spilling := s.spilling.filter (· ≠ oid)
      logged := s.logged.filter (· ≠ oid) } := by
  have old : ∀ doc, PrimaryEvent.spill doc ∈ past ++ [.abort oid] → .spill doc ∈ past := by simp
  have entries : ∀ e, e ∈ (s.store.withdraw oid).op.rows ↔
      e ∈ s.store.op.rows ∧ e.payload.refersTo oid = false := by
    simp [mem_rows, withdraw]
  have docs : ∀ doc, doc ∈ (s.store.withdraw oid).refs.rows ↔
      doc ∈ s.store.refs.rows ∧ doc.oid ≠ oid := by
    simp [mem_rows, withdraw]
  refine ⟨inv.store.filterRows _ _, ?_, ?_, ?_, ?_, ?_⟩
  · exact fun other mem => inv.spilling_used other (List.mem_filter.mp mem).1
  · intro e mem other refers
    obtain ⟨known, closed⟩ := inv.entry_used e ((entries e).mp mem).1 other refers
    exact ⟨known, fun mem => closed (List.mem_filter.mp mem).1⟩
  · exact fun doc mem => inv.event_used doc (old doc mem)
  · intro doc mem spilling
    obtain ⟨before, other⟩ := List.mem_filter.mp spilling
    exact (docs doc).mpr ⟨inv.open_held doc (old doc mem) before, by simpa using other⟩
  · intro doc mem e present refers
    obtain ⟨before, unrelated⟩ := (entries e).mp present
    refine (docs doc).mpr ⟨inv.held doc (old doc mem) e before refers, ?_⟩
    rw [refers] at unrelated
    simpa [Payload.refersTo] using unrelated

theorem PrimaryInv.maintain {m : Maintenance} (applied : m.apply s.store = some store)
    (careful : Careful s (.maintain m)) :
    PrimaryInv (past ++ [.maintain m]) { s with store := store } := by
  have old : ∀ doc, PrimaryEvent.spill doc ∈ past ++ [.maintain m] → .spill doc ∈ past := by simp
  have kept := Maintenance.apply_maintained inv.store applied
  refine ⟨kept.inv, inv.spilling_used, ?_, ?_, ?_, ?_⟩
  · exact fun e mem => inv.entry_used e (kept.entries e mem)
  · exact fun doc mem => inv.event_used doc (old doc mem)
  · intro doc mem spilling
    have before := inv.open_held doc (old doc mem) spilling
    exact kept.spared doc before (careful doc before spilling)
  · intro doc mem e present refers
    have before := inv.held doc (old doc mem) e (kept.entries e present) refers
    exact kept.referred e present doc before refers

/-- A step in which no trim takes a document of a transaction that may still spill. -/
def CarefulPrimaryStep (s : PrimaryState OID Op) (e : PrimaryEvent OID Op)
    (s' : PrimaryState OID Op) : Prop :=
  PrimaryStep s e s' ∧ Careful s e

theorem PrimaryInv.step {e : PrimaryEvent OID Op} (step : CarefulPrimaryStep s e s') :
    PrimaryInv (past ++ [e]) s' := by
  obtain ⟨taken, careful⟩ := step
  cases e with
  | begin oid =>
    obtain ⟨fresh, rfl⟩ := taken
    exact inv.begin fresh
  | spill doc =>
    obtain ⟨running, fresh, rfl⟩ := taken
    exact inv.spill running fresh
  | logOps gtid ops =>
    cases taken
    exact inv.logOps gtid ops
  | logRef gtid oid =>
    obtain ⟨running, store, written, rfl⟩ := taken
    exact inv.logRef running written
  | commit oid =>
    obtain ⟨-, rfl⟩ := taken
    exact ⟨inv.store, inv.spilling_used, inv.entry_used,
      fun doc mem => inv.event_used doc (by simpa using mem),
      fun doc mem => inv.open_held doc (by simpa using mem),
      fun doc mem => inv.held doc (by simpa using mem)⟩
  | abort oid =>
    obtain ⟨-, rfl⟩ := taken
    exact inv.abort oid
  | maintain m =>
    obtain ⟨store, applied, rfl⟩ := taken
    exact inv.maintain applied careful

end

/-- **On a primary, what the oplog refers to is there.** In every state reached, every
document spilled by a transaction with an entry in the oplog is in `oplog.refs`, and the
`maxRefGTID` of every capped partition bounds the GTIDs of the entries with a document in
it. -/
theorem primary_retains {now : Nat} {events : List (PrimaryEvent OID Op)}
    (run : Run CarefulPrimaryStep (.start now) events s) :
    (∀ gtid oid, ⟨gtid, .ref oid⟩ ∈ s.store.op.rows →
      ∀ doc, .spill doc ∈ events → doc.oid = oid → doc ∈ s.store.refs.rows) ∧
    ∀ j doc currGTID, s.store.refs.At j doc → j < s.store.refs.pivots.length →
      s.store.refs.stamp j = some currGTID →
      ∀ gtid, ⟨gtid, .ref doc.oid⟩ ∈ s.store.op.rows → gtid ≤ currGTID := by
  have start : PrimaryInv [] (.start now : PrimaryState OID Op) := by
    refine ⟨.create now, nofun, ?_, nofun, nofun, nofun⟩
    simp [PrimaryState.start, OplogStore.create, PartitionedCollection.create,
      PartitionedCollection.rows]
  have inv : PrimaryInv events s := run.history start fun _ _ _ _ _ before => before.step
  constructor
  · intro gtid oid present doc spilled own
    exact inv.held doc spilled _ present (own ▸ rfl)
  · intro j doc currGTID held capped stamp gtid present
    obtain ⟨i, present⟩ := PartitionedCollection.mem_rows.mp present
    exact inv.store.bounded i j _ doc currGTID present held rfl capped stamp

/-- A store with an entry and a spilled document of OID 3, and an added partition. -/
def spilledStore : OplogStore Nat Nat where
  op := ⟨[⟨1, 1⟩], [⟨0, 0, none, [⟨⟨1, 1⟩, .ops [7]⟩]⟩, ⟨1, 10, none, []⟩]⟩
  refs := ⟨[toLex (3, 1)], [⟨0, 0, some ⟨1, 1⟩, [⟨3, 1, [30]⟩]⟩, ⟨1, 10, none, []⟩]⟩

/-- A transaction that spills on both sides of a partition boundary and logs its entry
before the trim: both documents stay. -/
theorem primary_retains_across_partitions : ∃ s : PrimaryState Nat Nat,
    Run CarefulPrimaryStep (.start 0)
      [.begin 3, .spill ⟨3, 1, [30]⟩, .logOps ⟨1, 1⟩ [7], .maintain (.addPartitions 10),
        .spill ⟨3, 2, [31]⟩, .logRef ⟨1, 2⟩ 3, .commit 3, .maintain (.trimWithGTID ⟨1, 1⟩)] s ∧
    ⟨3, 1, [30]⟩ ∈ s.store.refs.rows ∧ ⟨3, 2, [31]⟩ ∈ s.store.refs.rows := by
  let entries : Partition (OplogEntry Nat Nat) := ⟨1, 10, none, [⟨⟨1, 2⟩, .ref 3⟩]⟩
  let refs : PartitionedCollection (Nat ×ₗ Nat) (RefsDoc Nat Nat) :=
    ⟨[toLex (3, 1)], [⟨0, 0, some ⟨1, 2⟩, [⟨3, 1, [30]⟩]⟩, ⟨1, 10, none, [⟨3, 2, [31]⟩]⟩]⟩
  let logged : OplogStore Nat Nat :=
    ⟨⟨[⟨1, 1⟩], [⟨0, 0, none, [⟨⟨1, 1⟩, .ops [7]⟩]⟩, entries]⟩, refs⟩
  let trimmed : OplogStore Nat Nat := ⟨⟨[], [entries]⟩, refs⟩
  have run : Run CarefulPrimaryStep (.start 0)
      [.begin 3, .spill ⟨3, 1, [30]⟩, .logOps ⟨1, 1⟩ [7], .maintain (.addPartitions 10),
        .spill ⟨3, 2, [31]⟩, .logRef ⟨1, 2⟩ 3, .commit 3, .maintain (.trimWithGTID ⟨1, 1⟩)]
      ⟨trimmed, [3], [], []⟩ :=
    .cons ⟨⟨by decide, rfl⟩, trivial⟩
      (.cons ⟨⟨by decide, by decide, rfl⟩, trivial⟩
        (.cons ⟨rfl, trivial⟩
          (.cons ⟨⟨spilledStore, by decide, rfl⟩, fun doc _ _ => spares_addPartitions 10 _ doc⟩
            (.cons ⟨⟨by decide, by decide, rfl⟩, trivial⟩
              (.cons ⟨⟨by decide, logged, by decide, rfl⟩, trivial⟩
                (.cons ⟨⟨by decide, rfl⟩, trivial⟩
                  (.cons ⟨⟨trimmed, by decide, rfl⟩, fun _ _ running =>
                      absurd (show _ ∈ ([] : List Nat) from running) List.not_mem_nil⟩
                    (.nil _))))))))
  obtain ⟨kept, -⟩ := primary_retains run
  exact ⟨_, run, kept ⟨1, 2⟩ 3 (by decide) _ (by simp) rfl,
    kept ⟨1, 2⟩ 3 (by decide) _ (by simp) rfl⟩

/-- The transaction spills, the partition with its document is capped and trimmed, and
only then does it write its entry. -/
theorem primary_loses : ∃ s : PrimaryState Nat Nat,
    Run PrimaryStep (.start 0)
      [.begin 3, .spill ⟨3, 1, [30]⟩, .logOps ⟨1, 1⟩ [7], .maintain (.addPartitions 10),
        .maintain (.trimWithGTID ⟨1, 1⟩), .logRef ⟨1, 2⟩ 3, .commit 3] s ∧
    ⟨⟨1, 2⟩, .ref 3⟩ ∈ s.store.op.rows ∧ ⟨3, 1, [30]⟩ ∉ s.store.refs.rows := by
  let trimmed : OplogStore Nat Nat := ⟨⟨[], [⟨1, 10, none, []⟩]⟩, ⟨[], [⟨1, 10, none, []⟩]⟩⟩
  let logged : OplogStore Nat Nat :=
    ⟨⟨[], [⟨1, 10, none, [⟨⟨1, 2⟩, .ref 3⟩]⟩]⟩, ⟨[], [⟨1, 10, none, []⟩]⟩⟩
  refine ⟨⟨logged, [3], [], []⟩, ?_, by decide, by decide⟩
  exact .cons ⟨by decide, rfl⟩
    (.cons ⟨by decide, by decide, rfl⟩
      (.cons rfl
        (.cons ⟨spilledStore, by decide, rfl⟩
          (.cons ⟨trimmed, by decide, rfl⟩
            (.cons ⟨by decide, logged, by decide, rfl⟩
              (.cons ⟨by decide, rfl⟩ (.nil _)))))))

end Primary

end TokuMX.Oplog
