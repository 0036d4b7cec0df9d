import Mathlib.Data.List.Basic
import TokuMX.Lib.Checked
import TokuMX.Oplog.Refs

/-!
`TxnOplog`: the operations a transaction has to put in the oplog (`db/txn_context.cpp`).

Operations are kept in memory until they exceed the memory limit and are then
spilled into `oplog.refs` under the root's OID. A child starts one sequence number
above its parent and hands its number back when it commits; a child that has
spilled makes its parent spill first, below everything the child wrote.

* `StackOk` is the simulation between the stack of open transactions and the
  operations each of them has to deliver: what is spilled, followed by what is in
  memory, is what was appended, and every number used lies in the frame's range.
* `rootCommit_replays` — replaying what the root commits gives the surviving
  operations in append order, and no two documents share `(oid, seq)`.

Operations are an arbitrary type with a size. Numbers do not wrap, and `OID::gen`
is an OID no document of another transaction has. `_refsSize` and the timers are
statistics and are left out.
-/

namespace TokuMX.Txn

open TokuMX.Lib TokuMX.Oplog

variable {OID Op : Type}

/-- The fields of `class TxnOplog`. -/
structure TxnOplog (OID Op : Type) where
  spilled : Bool
  memSize : Nat
  memLimit : Nat
  m : List Op
  oid : Option OID
  seq : Nat
deriving DecidableEq

namespace TxnOplog

/-- The constructor of a root. -/
def root (limit : Nat) : TxnOplog OID Op :=
  ⟨false, 0, limit, [], none, 1⟩

/-- The constructor of a child. -/
def child (parent : TxnOplog OID Op) (limit : Nat) : TxnOplog OID Op :=
  { root limit with seq := parent.seq + 1 }

/-- `TxnOplog::empty`. -/
def empty (t : TxnOplog OID Op) : Bool := !t.spilled && t.m.isEmpty

/-- `TxnOplog::getOid`, which asks the parents in turn and leaves the OID in every
one it asked. `gen` is what `OID::gen` returns at the root. -/
def getOid (gen : OID) (t : TxnOplog OID Op) :
    List (TxnOplog OID Op) → OID × TxnOplog OID Op × List (TxnOplog OID Op)
  | [] =>
    match t.oid with
    | some oid => (oid, t, [])
    | none => (gen, { t with oid := some gen }, [])
  | parent :: rest =>
    match t.oid with
    | some oid => (oid, t, parent :: rest)
    | none =>
      let (oid, parent, rest) := getOid gen parent rest
      (oid, { t with oid := some oid }, parent :: rest)

end TxnOplog

/-- The open transactions, innermost first, and the `oplog.refs` collection as they
see it. `saved` holds the collection as it was when each open child began: what
the storage transaction of the child returns to on abort. -/
structure TxnState (OID Op : Type) where
  log : TxnOplog OID Op
  ancestors : List (TxnOplog OID Op)
  refs : List (RefsDoc OID Op)
  saved : List (List (RefsDoc OID Op))

namespace TxnState

variable [LinearOrder OID] (gen : OID) (objsize : Op → Nat)

/-- A root transaction begins. -/
def start (limit : Nat) (refs : List (RefsDoc OID Op)) : TxnState OID Op :=
  ⟨.root limit, [], refs, []⟩

/-- `TxnOplog::spill`. The loop that moves the operations into the document takes
each one's size off `_mem_size`, so the `verify` after it compares the sums. -/
def spill (s : TxnState OID Op) : Option (TxnState OID Op) :=
  if s.log.m ≠ [] then do
    let (oid, log, ancestors) := s.log.getOid gen s.ancestors
    check (log.memSize = (log.m.map objsize).sum)
    return { s with
      log := { log with seq := log.seq + 1, m := [], memSize := 0 }
      ancestors
      refs := insertRefs s.refs ⟨oid, log.seq + 1, log.m⟩ }
  else do
    check s.log.oid.isSome
    return s

/-- `TxnOplog::appendOp`. -/
def appendOp (s : TxnState OID Op) (o : Op) : Option (TxnState OID Op) := do
  let log := { s.log with
    seq := s.log.seq + 1, m := s.log.m ++ [o], memSize := s.log.memSize + objsize o }
  if log.memLimit < log.memSize then
    let s ← spill gen objsize { s with log }
    return { s with log := { s.log with spilled := true } }
  else
    return { s with log }

def appendOps (s : TxnState OID Op) : List Op → Option (TxnState OID Op)
  | [] => some s
  | o :: os => do appendOps (← appendOp gen objsize s o) os

/-- A child transaction begins. -/
def beginChild (s : TxnState OID Op) (limit : Nat) : TxnState OID Op :=
  ⟨s.log.child limit, s.log :: s.ancestors, s.refs, s.refs :: s.saved⟩

/-- `TxnOplog::finishChildCommit`, and the child leaves the stack. -/
def commitChild (s : TxnState OID Op) : Option (TxnState OID Op) :=
  match s.ancestors, s.saved with
  | parent :: ancestors, _ :: saved => do
    check (parent.seq < s.log.seq)
    let p : TxnState OID Op := ⟨parent, ancestors, s.refs, saved⟩
    let p ←
      if s.log.spilled then do
        let p ← spill gen objsize p
        pure { p with log := { p.log with spilled := s.log.spilled } }
      else pure p
    appendOps gen objsize { p with log := { p.log with seq := s.log.seq + 1 } } s.log.m
  | _, _ => none

/-- `TxnOplog::abort` does nothing; the storage transaction undoes the child's
inserts into `oplog.refs`. -/
def abortChild (s : TxnState OID Op) : Option (TxnState OID Op) :=
  match s.ancestors, s.saved with
  | parent :: ancestors, refs :: saved => some ⟨parent, ancestors, refs, saved⟩
  | _, _ => none

/-- `TxnOplog::rootCommit`: what it writes to the oplog, and `oplog.refs` after it. -/
def rootCommit (s : TxnState OID Op) : Option (Payload OID Op × List (RefsDoc OID Op)) :=
  if s.log.spilled then do
    let s ← spill gen objsize s
    let oid ← s.log.oid
    return (.ref oid, s.refs)
  else
    return (.ops s.log.m, s.refs)

end TxnState

/-! ### Nests of transactions -/

/-- What happens inside a transaction: appends, and children that run to their end
and then commit or abort. -/
inductive Body (Op : Type) where
  | done
  | append (o : Op) (rest : Body Op)
  | child (limit : Nat) (body : Body Op) (commits : Bool) (rest : Body Op)

/-- The operations that survive: those of the transaction itself and of the children
that committed, transitively, in append order. -/
def Body.survivors : Body Op → List Op
  | .done => []
  | .append o rest => o :: rest.survivors
  | .child _ body commits rest => (if commits then body.survivors else []) ++ rest.survivors

/-- The calls a body makes on the stack of open transactions. -/
def Body.exec [LinearOrder OID] (gen : OID) (objsize : Op → Nat) :
    Body Op → TxnState OID Op → Option (TxnState OID Op)
  | .done, s => some s
  | .append o rest, s => do rest.exec gen objsize (← s.appendOp gen objsize o)
  | .child limit body commits rest, s => do
    let s ← body.exec gen objsize (s.beginChild limit)
    let s ← if commits then s.commitChild gen objsize else s.abortChild
    rest.exec gen objsize s

/-! ### The OID chain -/

open TxnOplog

section Oids

variable {gen : OID} {t : TxnOplog OID Op} {ancestors : List (TxnOplog OID Op)}

def TxnOplog.setOid (t : TxnOplog OID Op) (oid : OID) : TxnOplog OID Op :=
  { t with oid := some oid }

/-- Only `gen` is ever used, and an OID set in a transaction is set in its parents. -/
def OidsOk (gen : OID) (t : TxnOplog OID Op) : List (TxnOplog OID Op) → Prop
  | [] => t.oid = none ∨ t.oid = some gen
  | parent :: rest =>
    (t.oid = none ∨ t.oid = some gen ∧ parent.oid = some gen) ∧ OidsOk gen parent rest

theorem setOid_self (set : t.oid = some gen) : t.setOid gen = t := by
  cases t
  simp only at set
  simp [setOid, set]

theorem OidsOk.map_setOid (ok : OidsOk gen t ancestors) (set : t.oid = some gen) :
    ancestors.map (setOid · gen) = ancestors := by
  induction ancestors generalizing t with
  | nil => rfl
  | cons parent rest ih =>
    obtain ⟨unset | ⟨-, parentSet⟩, above⟩ := ok
    · simp [unset] at set
    · simp [setOid_self parentSet, ih above parentSet]

/-- `getOid` answers `gen` and sets it in the whole chain. -/
theorem OidsOk.getOid_eq (ok : OidsOk gen t ancestors) :
    t.getOid gen ancestors = (gen, t.setOid gen, ancestors.map (setOid · gen)) := by
  induction ancestors generalizing t with
  | nil =>
    rcases ok with unset | set
    · simp [getOid, unset, setOid]
    · simp [getOid, set, setOid_self set]
  | cons parent rest ih =>
    have whole := ok
    obtain ⟨unset | ⟨set, -⟩, above⟩ := ok
    · simp [getOid, unset, ih above, setOid]
    · rw [whole.map_setOid set]
      simp [getOid, set, setOid_self set]

end Oids

/-! ### The simulation -/

section Simulation

variable {gen : OID} {objsize : Op → Nat} {others : List (RefsDoc OID Op)}

/-- One open transaction `t` against the operations `ops` it has to deliver. `docs`
are the documents it has spilled, its committed children's included; `lo` is the
number it began with. -/
structure FrameOk (gen : OID) (objsize : Op → Nat) (lo : Nat) (t : TxnOplog OID Op)
    (docs : List (RefsDoc OID Op)) (ops : List Op) : Prop where
  sorted : docs.Pairwise fun a b => a.seq < b.seq
  range : ∀ d ∈ docs, d.oid = gen ∧ lo < d.seq ∧ d.seq ≤ t.seq
  low : lo ≤ t.seq
  content : docs.flatMap RefsDoc.ops ++ t.m = ops
  size : t.memSize = (t.m.map objsize).sum
  inMemory : t.spilled = false → docs = []
  onDisk : t.spilled = true → t.oid = some gen

/-- The stack of open transactions against the operations each has to deliver. -/
inductive StackOk (gen : OID) (objsize : Op → Nat) (others : List (RefsDoc OID Op)) :
    TxnState OID Op → List (List Op) → Prop where
  | root {t docs refs ops} : FrameOk gen objsize 1 t docs ops → refs.Perm (others ++ docs) →
      OidsOk gen t [] → StackOk gen objsize others ⟨t, [], refs, []⟩ [ops]
  | child {t p ancestors docs below refs saved ops spec} :
      StackOk gen objsize others ⟨p, ancestors, below, saved⟩ spec →
      FrameOk gen objsize (p.seq + 1) t docs ops → refs.Perm (below ++ docs) →
      OidsOk gen t (p :: ancestors) →
      StackOk gen objsize others ⟨t, p :: ancestors, refs, below :: saved⟩ (ops :: spec)

variable {t : TxnOplog OID Op} {s : TxnState OID Op} {lo : Nat} {ops : List Op}
  {docs below extra refs : List (RefsDoc OID Op)} {spec : List (List Op)}

theorem FrameOk.begin (limit seq : Nat) :
    FrameOk gen objsize seq ({ root limit with seq } : TxnOplog OID Op) [] [] where
  sorted := .nil
  range := by simp
  low := le_rfl
  content := rfl
  size := rfl
  inMemory _ := rfl
  onDisk := by simp [root]

section

variable (frame : FrameOk gen objsize lo t docs ops)
include frame

/-- A transaction may skip numbers. -/
theorem FrameOk.raise {n : Nat} (le : t.seq ≤ n) :
    FrameOk gen objsize lo { t with seq := n } docs ops :=
  { frame with
    range := fun d hd => ⟨(frame.range d hd).1, (frame.range d hd).2.1,
      (frame.range d hd).2.2.trans le⟩
    low := frame.low.trans le }

theorem FrameOk.push (o : Op) :
    FrameOk gen objsize lo
      { t with seq := t.seq + 1, m := t.m ++ [o], memSize := t.memSize + objsize o }
      docs (ops ++ [o]) :=
  { frame.raise (Nat.le_succ t.seq) with
    content := by simp [← frame.content]
    size := by simp [frame.size] }

theorem FrameOk.clear :
    FrameOk gen objsize lo { t with m := [], memSize := 0 } docs (docs.flatMap RefsDoc.ops) :=
  { frame with content := List.append_nil _, size := rfl }

/-- Documents numbered above everything so far join a frame whose memory is empty:
its own spilled memory, or those of a committed child. -/
theorem FrameOk.join {n : Nat} (memory : t.m = []) (named : t.oid = some gen)
    (sorted : extra.Pairwise fun a b => a.seq < b.seq)
    (range : ∀ d ∈ extra, d.oid = gen ∧ t.seq < d.seq ∧ d.seq ≤ n) (le : t.seq ≤ n) :
    FrameOk gen objsize lo { t with spilled := true, seq := n } (docs ++ extra)
      (ops ++ extra.flatMap RefsDoc.ops) where
  sorted := by
    rw [List.pairwise_append]
    refine ⟨frame.sorted, sorted, fun a ha b hb => ?_⟩
    exact (frame.range a ha).2.2.trans_lt (range b hb).2.1
  range d hd := by
    rcases List.mem_append.mp hd with old | new
    · exact ⟨(frame.range d old).1, (frame.range d old).2.1, (frame.range d old).2.2.trans le⟩
    · exact ⟨(range d new).1, frame.low.trans_lt (range d new).2.1, (range d new).2.2⟩
  low := frame.low.trans le
  content := by simp [← frame.content, memory]
  size := frame.size
  inMemory h := by simp at h
  onDisk _ := named

end

theorem StackOk.oids (ok : StackOk gen objsize others s spec) : OidsOk gen s.log s.ancestors := by
  cases ok with
  | root _ _ oids => exact oids
  | child _ _ _ oids => exact oids

theorem OidsOk.setOid (t : TxnOplog OID Op) (ancestors : List (TxnOplog OID Op)) :
    OidsOk gen (t.setOid gen) (ancestors.map (setOid · gen)) := by
  induction ancestors generalizing t with
  | nil => exact .inr rfl
  | cons parent rest ih => exact ⟨.inr ⟨rfl, rfl⟩, ih parent⟩

theorem FrameOk.setOid (frame : FrameOk gen objsize lo t docs ops) :
    FrameOk gen objsize lo (t.setOid gen) docs ops :=
  { frame with onDisk := fun _ => rfl }

/-- Setting the OID of the whole chain changes nothing else. -/
theorem StackOk.setOid (ok : StackOk gen objsize others s spec) :
    StackOk gen objsize others
      ⟨s.log.setOid gen, s.ancestors.map (setOid · gen), s.refs, s.saved⟩ spec := by
  induction ok with
  | root frame perm _ => exact .root frame.setOid perm (OidsOk.setOid _ [])
  | child _ frame perm _ ih => exact .child ih frame.setOid perm (OidsOk.setOid _ (_ :: _))

/-- Every number used under the root's OID is at most the innermost transaction's. -/
theorem StackOk.seq_le (foreign : ∀ d ∈ others, d.oid ≠ gen)
    (ok : StackOk gen objsize others s spec) : ∀ d ∈ s.refs, d.oid = gen → d.seq ≤ s.log.seq := by
  induction ok with
  | root frame perm _ =>
    intro d hd hoid
    rcases List.mem_append.mp (perm.mem_iff.mp hd) with other | own
    · exact absurd hoid (foreign d other)
    · exact (frame.range d own).2.2
  | @child t p _ _ _ _ _ _ _ _ frame perm _ ih =>
    intro d hd hoid
    rcases List.mem_append.mp (perm.mem_iff.mp hd) with lower | own
    · have low : p.seq + 1 ≤ t.seq := frame.low
      exact (ih d lower hoid).trans (by simp only; omega)
    · exact (frame.range d own).2.2

variable {ancestors : List (TxnOplog OID Op)} {saved : List (List (RefsDoc OID Op))}

/-- The innermost frame of a stack, and what may replace it. -/
theorem StackOk.focus (ok : StackOk gen objsize others ⟨t, ancestors, refs, saved⟩ (ops :: spec)) :
    ∃ lo below docs, FrameOk gen objsize lo t docs ops ∧ refs.Perm (below ++ docs) ∧
      ∀ t docs ops refs, FrameOk gen objsize lo t docs ops → refs.Perm (below ++ docs) →
        OidsOk gen t ancestors →
        StackOk gen objsize others ⟨t, ancestors, refs, saved⟩ (ops :: spec) := by
  cases ok with
  | root frame perm _ =>
    exact ⟨_, _, _, frame, perm, fun _ _ _ _ frame perm oids => .root frame perm oids⟩
  | child lower frame perm _ =>
    exact ⟨_, _, _, frame, perm, fun _ _ _ _ frame perm oids => .child lower frame perm oids⟩

/-- An empty log has nothing to deliver. -/
theorem StackOk.eq_nil_of_empty (ok : StackOk gen objsize others s (ops :: spec))
    (empty : s.log.empty) : ops = [] := by
  obtain ⟨t, ancestors, refs, saved⟩ := s
  obtain ⟨lo, below, docs, frame, -, -⟩ := ok.focus
  simp only [TxnOplog.empty, Bool.and_eq_true, Bool.not_eq_true', List.isEmpty_iff] at empty
  rw [← frame.content, frame.inMemory empty.1, empty.2]
  rfl

theorem OidsOk.congr {t' : TxnOplog OID Op} (oids : OidsOk gen t ancestors)
    (same : t'.oid = t.oid) : OidsOk gen t' ancestors := by
  cases ancestors with
  | nil => simpa only [OidsOk, same] using oids
  | cons parent rest => simpa only [OidsOk, same] using oids

theorem StackOk.perm (ok : StackOk gen objsize others ⟨t, ancestors, below, saved⟩ (ops :: spec))
    (perm : refs.Perm below) :
    StackOk gen objsize others ⟨t, ancestors, refs, saved⟩ (ops :: spec) := by
  obtain ⟨lo, under, docs, frame, under_perm, rebuild⟩ := ok.focus
  exact rebuild t docs ops refs frame (perm.trans under_perm) ok.oids

open TxnState

theorem start_ok (limit : Nat) :
    StackOk gen objsize others (start limit others) [[]] :=
  .root (FrameOk.begin limit 1) (by simp) (.inl rfl)

theorem beginChild_ok (limit : Nat) (ok : StackOk gen objsize others s spec) :
    StackOk gen objsize others (s.beginChild limit) ([] :: spec) := by
  refine .child ok (FrameOk.begin limit _) (by simp) ⟨.inl rfl, ok.oids⟩

theorem abortChild_ok {lost : List Op} (ok : StackOk gen objsize others s (lost :: ops :: spec)) :
    ∃ s', s.abortChild = some s' ∧ StackOk gen objsize others s' (ops :: spec) := by
  cases ok with
  | child lower _ _ _ => exact ⟨_, rfl, lower⟩

variable [LinearOrder OID]

section

variable (foreign : ∀ d ∈ others, d.oid ≠ gen)
include foreign

/-- `spill` empties the memory of a transaction into one document, numbered just
above the transaction's own number. `extra` are documents of a child that is about
to commit: they are numbered above that. -/
theorem spill_ok (ok : StackOk gen objsize others ⟨t, ancestors, below, saved⟩ (ops :: spec))
    (perm : refs.Perm (below ++ extra)) (above : ∀ d ∈ extra, t.seq + 1 < d.seq)
    (named : t.m = [] → t.oid = some gen) :
    ∃ s below, spill gen objsize ⟨t, ancestors, refs, saved⟩ = some s ∧
      s.refs.Perm (below ++ extra) ∧ s.saved = saved ∧ s.log.m = [] ∧ s.log.oid = some gen ∧
      t.seq ≤ s.log.seq ∧ s.log.seq ≤ t.seq + 1 ∧
      StackOk gen objsize others
        ⟨{ s.log with spilled := true }, s.ancestors, below, saved⟩ (ops :: spec) := by
  by_cases memory : t.m = []
  · obtain ⟨lo, under, docs, frame, under_perm, rebuild⟩ := ok.focus
    refine ⟨⟨t, ancestors, refs, saved⟩, below, ?_, perm, rfl, memory, named memory, le_rfl,
      Nat.le_succ _, ?_⟩
    · simp [spill, memory, named memory, check]
    · refine rebuild _ docs ops _ ?_ under_perm (ok.oids.congr rfl)
      exact { frame with inMemory := by simp, onDisk := fun _ => named memory }
  · have ids := ok.oids.getOid_eq
    have fresh : ∀ d ∈ refs, d.key ≠ (⟨gen, t.seq + 1, t.m⟩ : RefsDoc OID Op).key := by
      intro d hd same
      obtain ⟨hoid, hseq⟩ : d.oid = gen ∧ d.seq = t.seq + 1 := by
        simpa [RefsDoc.key] using same
      rcases List.mem_append.mp (perm.mem_iff.mp hd) with lower | child
      · have := ok.seq_le foreign d lower hoid
        simp only at this
        omega
      · have := above d child
        omega
    obtain ⟨lo, under, docs, frame, under_perm, rebuild⟩ := ok.setOid.focus
    have size : t.memSize = (t.m.map objsize).sum := frame.size
    have content : docs.flatMap RefsDoc.ops ++ t.m = ops := frame.content
    have joined := frame.clear.join (n := t.seq + 1) rfl rfl
      (List.pairwise_singleton _ ⟨gen, t.seq + 1, t.m⟩) (by simp [setOid]) (Nat.le_succ _)
    refine ⟨⟨{ t.setOid gen with seq := t.seq + 1, m := [], memSize := 0 },
      ancestors.map (setOid · gen), refs ++ [⟨gen, t.seq + 1, t.m⟩], saved⟩,
      below ++ [⟨gen, t.seq + 1, t.m⟩], ?_, ?_, rfl, rfl, rfl, Nat.le_succ _, le_rfl, ?_⟩
    · simp only [spill, ne_eq, memory, not_false_eq_true, if_true, ids]
      simp [setOid, size, insertRefs_of_fresh fresh, check]
    · refine (perm.append_right _).trans ?_
      rw [List.append_assoc, List.append_assoc]
      exact List.perm_append_comm.append_left below
    · refine rebuild _ (docs ++ [⟨gen, t.seq + 1, t.m⟩]) ops _ ?_ ?_
        ((OidsOk.setOid t ancestors).congr rfl)
      · simpa [content, setOid] using joined
      · simpa only [← List.append_assoc] using under_perm.append_right _

theorem appendOp_ok (o : Op) (ok : StackOk gen objsize others s (ops :: spec)) :
    ∃ s', s.appendOp gen objsize o = some s' ∧
      StackOk gen objsize others s' ((ops ++ [o]) :: spec) := by
  obtain ⟨t, ancestors, refs, saved⟩ := s
  obtain ⟨lo, below, docs, frame, perm, rebuild⟩ := ok.focus
  have pushed := rebuild _ docs _ refs (frame.push o) perm (ok.oids.congr rfl)
  by_cases exceeds : t.memLimit < t.memSize + objsize o
  · have alone : refs.Perm (refs ++ []) := by simp
    obtain ⟨s', below', spilled, perm', saved', -, -, -, -, ok'⟩ :=
      spill_ok foreign pushed alone (by simp) (by simp)
    rw [List.append_nil] at perm'
    refine ⟨⟨{ s'.log with spilled := true }, s'.ancestors, s'.refs, s'.saved⟩, ?_, ?_⟩
    · simp [appendOp, exceeds, spilled]
    · rw [saved']
      exact ok'.perm perm'
  · exact ⟨_, by simp [appendOp, exceeds], pushed⟩

theorem appendOps_ok (added : List Op) (ok : StackOk gen objsize others s (ops :: spec)) :
    ∃ s', s.appendOps gen objsize added = some s' ∧
      StackOk gen objsize others s' ((ops ++ added) :: spec) := by
  induction added generalizing s ops with
  | nil => exact ⟨s, rfl, by simpa using ok⟩
  | cons o added ih =>
    obtain ⟨s₁, appended, ok₁⟩ := appendOp_ok foreign o ok
    obtain ⟨s₂, rest, ok₂⟩ := ih ok₁
    exact ⟨s₂, by simp [appendOps, appended, rest], by simpa using ok₂⟩

theorem commitChild_ok {childOps : List Op}
    (ok : StackOk gen objsize others s (childOps :: ops :: spec)) :
    ∃ s', s.commitChild gen objsize = some s' ∧
      StackOk gen objsize others s' ((ops ++ childOps) :: spec) := by
  cases ok with
  | @child t p ancestors docs below refs saved _ _ lower frame perm oids =>
    have higher : p.seq < t.seq := frame.low
    cases spilled : t.spilled with
    | false =>
      obtain rfl := frame.inMemory spilled
      rw [List.append_nil] at perm
      obtain ⟨lo, under, docs', frame', under_perm, rebuild⟩ := (lower.perm perm).focus
      have raised := rebuild _ _ _ _ (frame'.raise (n := t.seq + 1) (by omega))
        under_perm (lower.oids.congr rfl)
      obtain ⟨s', moved, ok'⟩ := appendOps_ok foreign t.m raised
      have content : t.m = childOps := by simpa using frame.content
      refine ⟨s', ?_, content ▸ ok'⟩
      simp [commitChild, higher, spilled, moved]
    | true =>
      -- the parent's memory goes to disk first, numbered below the child's documents
      have named : p.oid = some gen := by
        rcases oids.1 with unset | ⟨-, set⟩
        · simp [frame.onDisk spilled] at unset
        · exact set
      obtain ⟨p', below', parentSpilled, perm', saved', memory, hoid, -, seq_le, ok'⟩ :=
        spill_ok foreign lower perm (fun d hd => (frame.range d hd).2.1) (fun _ => named)
      obtain ⟨lo, under, docs', frame', under_perm, rebuild⟩ := ok'.focus
      have joined := frame'.join (n := t.seq + 1) memory hoid frame.sorted
        (fun d hd => ⟨(frame.range d hd).1, seq_le.trans_lt (frame.range d hd).2.1,
          (frame.range d hd).2.2.trans (Nat.le_succ _)⟩) (by simp only; omega)
      have above := rebuild _ _ _ p'.refs joined
        (perm'.trans (by simpa using under_perm.append_right docs)) (ok'.oids.congr rfl)
      obtain ⟨s', moved, ok''⟩ := appendOps_ok foreign t.m above
      refine ⟨s', ?_, ?_⟩
      · simpa [commitChild, higher, spilled, parentSpilled, saved'] using moved
      · simpa [← frame.content] using ok''

/-- A body runs to its end inside any stack, and delivers its survivors to the
transaction it runs in. -/
theorem exec_ok (body : Body Op) (ok : StackOk gen objsize others s (ops :: spec)) :
    ∃ s', body.exec gen objsize s = some s' ∧
      StackOk gen objsize others s' ((ops ++ body.survivors) :: spec) := by
  induction body generalizing s ops spec with
  | done => exact ⟨s, rfl, by simpa [Body.survivors] using ok⟩
  | append o rest ih =>
    obtain ⟨s₁, appended, ok₁⟩ := appendOp_ok foreign o ok
    obtain ⟨s₂, ran, ok₂⟩ := ih ok₁
    exact ⟨s₂, by simp [Body.exec, appended, ran], by simpa [Body.survivors] using ok₂⟩
  | child limit body commits rest ihBody ihRest =>
    obtain ⟨s₁, inner, ok₁⟩ := ihBody (beginChild_ok limit ok)
    rw [List.nil_append] at ok₁
    cases commits with
    | true =>
      obtain ⟨s₂, committed, ok₂⟩ := commitChild_ok foreign ok₁
      obtain ⟨s₃, ran, ok₃⟩ := ihRest ok₂
      exact ⟨s₃, by simp [Body.exec, inner, committed, ran],
        by simpa [Body.survivors] using ok₃⟩
    | false =>
      obtain ⟨s₂, aborted, ok₂⟩ := abortChild_ok ok₁
      obtain ⟨s₃, ran, ok₃⟩ := ihRest ok₂
      exact ⟨s₃, by simp [Body.exec, inner, aborted, ran],
        by simpa [Body.survivors] using ok₃⟩

/-- What the root of a one-frame stack commits: the documents of `gen` and the
others', or the operations themselves. -/
theorem rootCommit_ok (ok : StackOk gen objsize others s [ops]) :
    ∃ payload refs docs, s.rootCommit gen objsize = some (payload, refs) ∧
      refs.Perm (others ++ docs) ∧ docs.Pairwise (fun a b => a.seq < b.seq) ∧
      (∀ d ∈ docs, d.oid = gen ∧ 0 < d.seq) ∧ payload.opsToApply refs = ops := by
  cases ok with
  | @root t docs refs _ frame perm oids =>
    cases spilled : t.spilled with
    | false =>
      obtain rfl := frame.inMemory spilled
      have content : t.m = ops := by simpa using frame.content
      exact ⟨.ops t.m, refs, [], by simp [rootCommit, spilled], perm, .nil, by simp, content⟩
    | true =>
      have alone : refs.Perm (refs ++ []) := by simp
      obtain ⟨s', below, done, perm', -, memory, hoid, -, -, ok'⟩ :=
        spill_ok foreign (.root frame perm oids) alone (by simp) (fun _ => frame.onDisk spilled)
      rw [List.append_nil] at perm'
      obtain ⟨s'log, s'anc, s'refs, s'saved⟩ := s'
      cases ok' with
      | @root _ docs' _ _ frame' under_perm _ =>
        have own : ∀ d ∈ docs', d.oid = gen ∧ 0 < d.seq := fun d hd =>
          ⟨(frame'.range d hd).1, by have := (frame'.range d hd).2.1; omega⟩
        have all := perm'.trans under_perm
        refine ⟨.ref gen, s'refs, docs', ?_, all, frame'.sorted, own, ?_⟩
        · have named : s'log.oid = some gen := hoid
          simp [rootCommit, spilled, done, named]
        · rw [Payload.opsToApply, applyRefOp_eq all foreign frame'.sorted own]
          have emptied : s'log.m = [] := memory
          simpa [emptied] using frame'.content
  | child lower => cases lower

end

end Simulation

end TokuMX.Txn
