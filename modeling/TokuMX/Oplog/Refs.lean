import Mathlib.Algebra.GroupWithZero.Nat
import Mathlib.Data.List.MinMax
import Mathlib.Data.List.Perm.Basic
import Mathlib.Data.List.Sort
import Mathlib.Data.Prod.Lex

/-!
The `oplog.refs` collection and what replays it (`db/oplog.cpp`).

A transaction too large for one oplog entry spills its operations into documents
keyed by `(oid, seq)`; its oplog entry then holds the OID alone. `applyRefOp`
finds the documents again by repeated point queries for the next greater key and
stops at the first document of another OID.

* `applyRefOp_eq` — on a collection in which the documents of `oid` are `docs`,
  in increasing `seq`, it applies exactly their operations, in that order.
* `opsToRollback_eq` — a rollback undoes exactly the operations that were applied, in the
  reverse order: `rollbackRefOp` reads the documents from the greatest `seq` down.

Inserts into `oplog.refs` carry `NO_UNIQUE_CHECKS`: one with a key already
present overwrites (`insertRefs`).
-/

namespace TokuMX.Oplog

variable {OID Op : Type}

/-- A document of `oplog.refs`: `{_id: {oid, seq}, ops: [...]}`. -/
structure RefsDoc (OID Op : Type) where
  oid : OID
  seq : Nat
  ops : List Op
deriving DecidableEq

/-- The `_id`, in the order of the `_id` index. -/
def RefsDoc.key (d : RefsDoc OID Op) : OID ×ₗ Nat := toLex (d.oid, d.seq)

/-- What a committed transaction left in the oplog: its operations, or the OID
they are filed under in `oplog.refs`. -/
inductive Payload (OID Op : Type) where
  | ops (ops : List Op)
  | ref (oid : OID)
deriving DecidableEq

variable [LinearOrder OID]

/-- `writeEntryToOplogRefs`: insert without uniqueness checks. -/
def insertRefs (refs : List (RefsDoc OID Op)) (doc : RefsDoc OID Op) : List (RefsDoc OID Op) :=
  refs.filter (fun d => d.key ≠ doc.key) ++ [doc]

/-- `findOne(rsOplogRefs, {_id: {$gt: {oid, seq}}})` on the `_id` index. -/
def nextRef (refs : List (RefsDoc OID Op)) (oid : OID) (seq : Nat) : Option (RefsDoc OID Op) :=
  (refs.filter fun d => toLex (oid, seq) < d.key).argmin RefsDoc.key

/-- The loop of `applyRefOp`: the operations it applies from `seq` on. Each round
consumes one document, so as many rounds as there are documents suffice. -/
def applyRefLoop (refs : List (RefsDoc OID Op)) (oid : OID) : Nat → Nat → List Op
  | 0, _ => []
  | rounds + 1, seq =>
    match nextRef refs oid seq with
    | none => []
    | some d => if oid ≠ d.oid then [] else d.ops ++ applyRefLoop refs oid rounds d.seq

/-- `applyRefOp`: 0 is smaller than any of the `seq` numbers. -/
def applyRefOp (refs : List (RefsDoc OID Op)) (oid : OID) : List Op :=
  applyRefLoop refs oid refs.length 0

/-- The operations `applyTransactionFromOplog` applies for an entry. -/
def Payload.opsToApply (refs : List (RefsDoc OID Op)) : Payload OID Op → List Op
  | .ops applied => applied
  | .ref oid => applyRefOp refs oid

/-- `LLONG_MAX`. -/
def llongMax : Nat := 2 ^ 63 - 1

/-- The first document of a reverse cursor from `{oid, seq}` down to `{oid, 0}`, which is
not included. -/
def prevRef (refs : List (RefsDoc OID Op)) (oid : OID) (seq : Nat) : Option (RefsDoc OID Op) :=
  (refs.filter fun d => toLex (oid, 0) < d.key ∧ d.key ≤ toLex (oid, seq)).argmax RefsDoc.key

/-- The loop of `rollbackRefOp`: the operations it rolls back, in that order, from `seq`
down. -/
def rollbackRefLoop (refs : List (RefsDoc OID Op)) (oid : OID) : Nat → Nat → List Op
  | 0, _ => []
  | rounds + 1, seq =>
    match prevRef refs oid seq with
    | none => []
    | some d =>
      if oid ≠ d.oid then [] else d.ops.reverse ++ rollbackRefLoop refs oid rounds (d.seq - 1)

/-- `rollbackRefOp`. -/
def rollbackRefOp (refs : List (RefsDoc OID Op)) (oid : OID) : List Op :=
  rollbackRefLoop refs oid refs.length llongMax

/-- The operations `rollbackTransactionFromOplog` rolls back for an entry, in that order. -/
def Payload.opsToRollback (refs : List (RefsDoc OID Op)) : Payload OID Op → List Op
  | .ops applied => applied.reverse
  | .ref oid => rollbackRefOp refs oid

theorem insertRefs_of_fresh {refs : List (RefsDoc OID Op)} {doc : RefsDoc OID Op}
    (fresh : ∀ d ∈ refs, d.key ≠ doc.key) : insertRefs refs doc = refs ++ [doc] := by
  unfold insertRefs
  rw [List.filter_eq_self.mpr]
  simpa using fresh

theorem key_lt_iff {oid : OID} {seq : Nat} {d : RefsDoc OID Op} :
    toLex (oid, seq) < d.key ↔ oid < d.oid ∨ oid = d.oid ∧ seq < d.seq :=
  Prod.Lex.toLex_lt_toLex

open RefsDoc

section Replay

variable {refs docs : List (RefsDoc OID Op)} {oid : OID} {seq : Nat}

/-- The next document of `oid` above `seq`, when there is one. -/
theorem nextRef_eq_some {d : RefsDoc OID Op} (mem : d ∈ refs) (own : d.oid = oid)
    (above : seq < d.seq)
    (least : ∀ d' ∈ refs, d'.oid = oid → seq < d'.seq → d' = d ∨ d.seq < d'.seq) :
    nextRef refs oid seq = some d := by
  classical
  unfold nextRef
  rw [List.argmin_eq_some_iff]
  have order : ∀ d' ∈ refs.filter (fun d => toLex (oid, seq) < d.key), d' = d ∨ d.key < d'.key := by
    intro d' hd'
    simp only [List.mem_filter, decide_eq_true_eq, key_lt_iff] at hd'
    rcases hd' with ⟨hmem, later | ⟨same, later⟩⟩
    · exact .inr (Prod.Lex.toLex_lt_toLex.mpr (.inl (own ▸ later)))
    · rcases least d' hmem same.symm later with eq | lt
      · exact .inl eq
      · exact .inr (Prod.Lex.toLex_lt_toLex.mpr (.inr ⟨own.trans same, lt⟩))
  refine ⟨?_, fun d' hd' => ?_, fun d' hd' le => ?_⟩
  · simp only [List.mem_filter, decide_eq_true_eq, key_lt_iff]
    exact ⟨mem, .inr ⟨own.symm, above⟩⟩
  · rcases order d' hd' with rfl | lt
    · exact le_rfl
    · exact lt.le
  · rcases order d' hd' with rfl | lt
    · exact le_rfl
    · exact absurd lt (not_lt.mpr le)

/-- With no document of `oid` above `seq`, the query finds none or another OID's. -/
theorem nextRef_oid_ne {d : RefsDoc OID Op} (none : ∀ d ∈ refs, d.oid = oid → d.seq ≤ seq)
    (found : nextRef refs oid seq = some d) : oid ≠ d.oid := by
  have mem := List.argmin_mem found
  simp only [List.mem_filter, decide_eq_true_eq, key_lt_iff] at mem
  rcases mem with ⟨hmem, later | ⟨same, later⟩⟩
  · exact later.ne
  · exact absurd later (not_lt.mpr (none d hmem same.symm))

theorem applyRefLoop_eq {rounds : Nat} (sorted : docs.Pairwise fun a b => a.seq < b.seq)
    (own : ∀ d ∈ docs, d ∈ refs ∧ d.oid = oid ∧ seq < d.seq)
    (all : ∀ d ∈ refs, d.oid = oid → seq < d.seq → d ∈ docs) (enough : docs.length ≤ rounds) :
    applyRefLoop refs oid rounds seq = docs.flatMap ops := by
  induction docs generalizing seq rounds with
  | nil =>
    cases rounds with
    | zero => rfl
    | succ rounds =>
      unfold applyRefLoop
      cases found : nextRef refs oid seq with
      | none => rfl
      | some d =>
        have none : ∀ d ∈ refs, d.oid = oid → d.seq ≤ seq := by
          intro d mem own
          by_contra above
          exact absurd (all d mem own (not_le.mp above)) List.not_mem_nil
        simp [nextRef_oid_ne none found]
  | cons d docs ih =>
    obtain ⟨mem, hoid, above⟩ := own d List.mem_cons_self
    obtain ⟨first, rest⟩ := List.pairwise_cons.mp sorted
    have found : nextRef refs oid seq = some d := by
      refine nextRef_eq_some mem hoid above fun d' mem' own' above' => ?_
      rcases List.mem_cons.mp (all d' mem' own' above') with eq | later
      · exact .inl eq
      · exact .inr (first d' later)
    cases rounds with
    | zero => simp at enough
    | succ rounds =>
      have step : applyRefLoop refs oid rounds d.seq = docs.flatMap ops := by
        refine ih rest (fun d' hd' => ?_) (fun d' mem' own' above' => ?_) (by simpa using enough)
        · exact ⟨(own d' (List.mem_cons_of_mem _ hd')).1,
            (own d' (List.mem_cons_of_mem _ hd')).2.1, first d' hd'⟩
        · rcases List.mem_cons.mp (all d' mem' own' (above.trans above')) with rfl | later
          · exact absurd above' (lt_irrefl _)
          · exact later
      simp [applyRefLoop, found, hoid, step]

/-- `applyRefOp` replays the documents of `oid` in `seq` order and nothing else. -/
theorem applyRefOp_eq {others : List (RefsDoc OID Op)} (perm : refs.Perm (others ++ docs))
    (foreign : ∀ d ∈ others, d.oid ≠ oid) (sorted : docs.Pairwise fun a b => a.seq < b.seq)
    (own : ∀ d ∈ docs, d.oid = oid ∧ 0 < d.seq) :
    applyRefOp refs oid = docs.flatMap ops := by
  refine applyRefLoop_eq sorted (fun d hd => ⟨?_, own d hd⟩) (fun d hd hoid _ => ?_) ?_
  · exact perm.mem_iff.mpr (List.mem_append_right _ hd)
  · rcases List.mem_append.mp (perm.mem_iff.mp hd) with other | mine
    · exact absurd hoid (foreign d other)
    · exact mine
  · rw [perm.length_eq, List.length_append]
    exact Nat.le_add_left _ _

end Replay

section Rollback

variable {refs docs : List (RefsDoc OID Op)} {oid : OID} {seq : Nat}

theorem key_between_iff {d : RefsDoc OID Op} :
    (toLex (oid, 0) < d.key ∧ d.key ≤ toLex (oid, seq)) ↔
      d.oid = oid ∧ 0 < d.seq ∧ d.seq ≤ seq := by
  rw [key_lt_iff, key, Prod.Lex.toLex_le_toLex]
  constructor
  · rintro ⟨above | ⟨rfl, positive⟩, below | ⟨same, le⟩⟩
    · exact absurd below above.asymm
    · exact absurd same above.ne'
    · exact absurd below (lt_irrefl _)
    · exact ⟨rfl, positive, le⟩
  · rintro ⟨rfl, positive, le⟩
    exact ⟨.inr ⟨rfl, positive⟩, .inr ⟨rfl, le⟩⟩

/-- The last document of `oid` up to `seq`, when there is one. -/
theorem prevRef_eq_some {d : RefsDoc OID Op} (mem : d ∈ refs) (own : d.oid = oid)
    (positive : 0 < d.seq) (below : d.seq ≤ seq)
    (greatest : ∀ d' ∈ refs, d'.oid = oid → 0 < d'.seq → d'.seq ≤ seq → d' = d ∨ d'.seq < d.seq) :
    prevRef refs oid seq = some d := by
  classical
  have order : ∀ d' ∈ refs.filter (fun d => toLex (oid, 0) < d.key ∧ d.key ≤ toLex (oid, seq)),
      d' = d ∨ d'.key < d.key := by
    intro d' hd'
    simp only [List.mem_filter, decide_eq_true_eq, key_between_iff] at hd'
    obtain ⟨hmem, same, positive', below'⟩ := hd'
    rcases greatest d' hmem same positive' below' with eq | lt
    · exact .inl eq
    · exact .inr (Prod.Lex.toLex_lt_toLex.mpr (.inr ⟨same.trans own.symm, lt⟩))
  unfold prevRef
  rw [List.argmax_eq_some_iff]
  refine ⟨?_, ?_, ?_⟩
  · simp only [List.mem_filter, decide_eq_true_eq, key_between_iff]
    exact ⟨mem, own, positive, below⟩
  · intro d' hd'
    rcases order d' hd' with rfl | lt
    · exact le_rfl
    · exact lt.le
  · intro d' hd' le
    rcases order d' hd' with rfl | lt
    · exact le_rfl
    · exact absurd lt (not_lt.mpr le)

theorem rollbackRefLoop_eq {rounds : Nat} (sorted : docs.Pairwise fun a b => a.seq < b.seq)
    (own : ∀ d ∈ docs, d ∈ refs ∧ d.oid = oid ∧ 0 < d.seq ∧ d.seq ≤ seq)
    (all : ∀ d ∈ refs, d.oid = oid → 0 < d.seq → d.seq ≤ seq → d ∈ docs)
    (enough : docs.length ≤ rounds) :
    rollbackRefLoop refs oid rounds seq = (docs.flatMap ops).reverse := by
  induction docs using List.reverseRecOn generalizing seq rounds with
  | nil =>
    cases rounds with
    | zero => rfl
    | succ rounds =>
      have nothing : prevRef refs oid seq = none := by
        unfold prevRef
        rw [List.argmax_eq_none, List.filter_eq_nil_iff]
        intro d mem between
        simp only [decide_eq_true_eq, key_between_iff] at between
        exact absurd (all d mem between.1 between.2.1 between.2.2) List.not_mem_nil
      simp [rollbackRefLoop, nothing]
  | append_singleton docs d ih =>
    obtain ⟨mem, hoid, positive, below⟩ := own d (by simp)
    obtain ⟨init, -, before⟩ := List.pairwise_append.mp sorted
    have earlier : ∀ d' ∈ docs, d'.seq < d.seq := fun d' hd' => before d' hd' d (by simp)
    have found : prevRef refs oid seq = some d := by
      apply prevRef_eq_some mem hoid positive below
      intro d' mem' own' positive' below'
      rcases List.mem_append.mp (all d' mem' own' positive' below') with hd' | last
      · exact .inr (earlier d' hd')
      · exact .inl (List.mem_singleton.mp last)
    cases rounds with
    | zero => simp at enough
    | succ rounds =>
      have step : rollbackRefLoop refs oid rounds (d.seq - 1) = (docs.flatMap ops).reverse := by
        refine ih init (fun d' hd' => ?_) (fun d' mem' own' positive' below' => ?_)
          (by simpa using enough)
        · obtain ⟨mem', own', positive', -⟩ := own d' (by simp [hd'])
          exact ⟨mem', own', positive', Nat.le_sub_one_of_lt (earlier d' hd')⟩
        · rcases List.mem_append.mp (all d' mem' own' positive' (by omega)) with hd' | last
          · exact hd'
          · rw [List.mem_singleton.mp last] at below'
            omega
      simp [rollbackRefLoop, found, hoid, step]

/-- The documents of an OID in increasing `seq`, apart from the others. -/
theorem exists_docs (distinct : (refs.map key).Nodup) (oid : OID) :
    ∃ others docs, refs.Perm (others ++ docs) ∧ (∀ d ∈ others, d.oid ≠ oid) ∧
      (∀ d ∈ docs, d.oid = oid) ∧ docs.Pairwise fun a b => a.seq < b.seq := by
  let sorted := (refs.filter fun d => d.oid = oid).insertionSort fun a b => a.seq ≤ b.seq
  have perm : sorted.Perm (refs.filter fun d => d.oid = oid) := List.perm_insertionSort _ _
  have own : ∀ d ∈ sorted, d.oid = oid := by
    intro d mem
    simpa using (List.mem_filter.mp (perm.mem_iff.mp mem)).2
  refine ⟨refs.filter fun d => ¬ d.oid = oid, sorted, ?_, ?_, own, ?_⟩
  · exact ((List.filter_append_perm (fun d => d.oid = oid) refs).symm.trans
      List.perm_append_comm).trans (by simpa using perm.symm.append_left _)
  · intro d mem
    simpa using (List.mem_filter.mp mem).2
  · have keys : sorted.Pairwise fun a b => a.key ≠ b.key := by
      rw [← List.pairwise_map (R := (· ≠ ·))]
      exact ((perm.map key).nodup_iff).mpr (distinct.sublist (List.filter_sublist.map _))
    have order := List.pairwise_insertionSort (fun a b : RefsDoc OID Op => a.seq ≤ b.seq)
      (refs.filter fun d => d.oid = oid)
    refine (List.Pairwise.and_mem.mp (order.and keys)).imp ?_
    rintro a b ⟨mem_a, mem_b, le, ne⟩
    refine lt_of_le_of_ne le fun same => ne ?_
    rw [key, key, own a mem_a, own b mem_b, same]

/-- A rollback undoes what was applied, last operation first. -/
theorem opsToRollback_eq (distinct : (refs.map key).Nodup)
    (range : ∀ d ∈ refs, 0 < d.seq ∧ d.seq ≤ llongMax) (payload : Payload OID Op) :
    payload.opsToRollback refs = (payload.opsToApply refs).reverse := by
  cases payload with
  | ops applied => rfl
  | ref oid =>
    obtain ⟨others, docs, perm, foreign, own, sorted⟩ := exists_docs distinct oid
    have mem : ∀ d ∈ docs, d ∈ refs := fun d hd =>
      perm.mem_iff.mpr (List.mem_append_right _ hd)
    have applied : applyRefOp refs oid = docs.flatMap ops :=
      applyRefOp_eq perm foreign sorted fun d hd => ⟨own d hd, (range d (mem d hd)).1⟩
    have rolledBack : rollbackRefOp refs oid = (docs.flatMap ops).reverse := by
      refine rollbackRefLoop_eq sorted
        (fun d hd => ⟨mem d hd, own d hd, range d (mem d hd)⟩) (fun d hd hoid _ _ => ?_) ?_
      · rcases List.mem_append.mp (perm.mem_iff.mp hd) with other | mine
        · exact absurd hoid (foreign d other)
        · exact mine
      · rw [perm.length_eq, List.length_append]
        exact Nat.le_add_left _ _
    rw [Payload.opsToRollback, Payload.opsToApply, applied, rolledBack]

end Rollback

end TokuMX.Oplog
