import TokuMX.Lib.Runs
import TokuMX.Txn.TxnContext

/-!
The applier of a secondary (`BackgroundSync::applyOpsFromOplog` in `db/repl/bgsync.cpp`
and `applyTransactionFromOplog` in `db/oplog.cpp`).

The producer queues oplog entries; the applier takes the front one, applies its
operations and rewrites it with its `a` flag set, in one storage transaction, and
tries again when that throws. Then it notes the GTID applied and pops the entry.
What goes wrong in each attempt is a parameter.

* `applied_iff_settles` — in every run, everything noted applied and popped is
  covered by a committed transaction exactly when every entry settles: one of its
  first 51 attempts gets past the operations, and that attempt also rewrites the
  entry and completes its cursors.
* `popped_unapplied` — two ways an entry is popped unapplied. The counter is advanced
  twice a round, so the threshold of 100 is jumped over and the loop ends by itself;
  and the flag of the shared in-memory entry, once set, survives the attempt that set
  it.

The commit of the applier's transaction is `Root.commitInScope` of a root that has
logged nothing. Sequence numbers do not wrap around.
-/

namespace TokuMX.Repl

open TokuMX.Lib TokuMX.Oplog TokuMX.Txn

variable {OID Op : Type}

/-- An oplog entry in the queue: its `_id`, its `a` flag and what it holds. -/
structure QueuedEntry (OID Op : Type) where
  gtid : GTID
  applied : Bool
  payload : Payload OID Op

/-- What a storage transaction of the applier has done: the operations applied, and
the entry it wrote back. -/
structure ApplyTxn (OID Op : Type) where
  ops : List Op
  entry : Option (QueuedEntry OID Op)

/-- What goes wrong in one attempt. -/
structure Attempt where
  /-- an exception after this many operations -/
  opsThrow : Option Nat
  /-- an exception while rewriting the entry -/
  writeThrows : Bool
  /-- the exceptions of the commit -/
  commit : Call → Bool

inductive ApplyError where
  | applying
  | writing
deriving DecidableEq

/-- The queue of a secondary, its open storage transaction, those it has committed,
and what the applier has reported. -/
structure Secondary (OID Op : Type) where
  gtidManager : GTIDManager
  deque : List (QueuedEntry OID Op)
  txn : Option (ApplyTxn OID Op)
  committed : List (ApplyTxn OID Op)
  notedApplied : List GTID
  popped : List (QueuedEntry OID Op)

/-- The root transaction of the applier: nothing to log and no statistics. -/
def applierRoot (manager : GTIDManager) : Root Nat Nat :=
  Root.start (.start 0 []) ⟨true, false⟩ false [] [] [] manager ⟨0, 0⟩

namespace Secondary

/-- `transaction.commit(DB_TXN_NOSYNC)` with the handler around it. -/
def commitTransaction (faults : Call → Bool) : Exec (Secondary OID Op) ApplyError Unit := do
  let s ← Exec.get
  match Root.commitInScope faults 0 id 0 (applierRoot s.gtidManager) with
  | (.returned _, root) =>
    Exec.modify fun s => { s with
      txn := none
      committed := if root.txn = .committed then s.committed ++ s.txn.toList else s.committed }
  | (.thrown _, _) => Exec.abort
  | (.aborted, _) => Exec.abort

section

variable [LinearOrder OID] (refs : List (RefsDoc OID Op))

/-- `applyTransactionFromOplog` of the entry at the front of the queue, which it
shares: setting the `a` flag changes the queued entry. -/
def applyTransactionFromOplog (attempt : Attempt) : Exec (Secondary OID Op) ApplyError Unit := do
  let s ← Exec.get
  match s.deque with
  | [] => pure ()
  | curr :: rest =>
    if curr.applied then pure ()
    else
      Exec.handle
        (do
          let ops := curr.payload.opsToApply refs
          match attempt.opsThrow with
          | some done =>
            Exec.modify fun s => { s with txn := some ⟨ops.take done, none⟩ }
            Exec.throw .applying
          | none =>
            Exec.modify fun s => { s with txn := some ⟨ops, none⟩ }
          Exec.modify fun s => { s with deque := { curr with applied := true } :: rest }
          Exec.throwIf attempt.writeThrows .writing
          Exec.modify fun s => { s with txn := some ⟨ops, some { curr with applied := true }⟩ }
          commitTransaction attempt.commit)
        fun error => do
          Exec.modify fun s => { s with txn := none }
          Exec.throw error

/-- The `for` loop around the attempts. `made` counts them; `rounds` bounds them, and
the loop never uses up `triesBound` rounds. -/
def tryLoop (attempts : Nat → Attempt) :
    Nat → Nat → Nat → Exec (Secondary OID Op) ApplyError Unit
  | 0, _, _ => pure ()
  | rounds + 1, made, numTries =>
    if numTries ≤ 100 then do
      let again ← Exec.handle
        (do
          applyTransactionFromOplog refs (attempts made)
          pure none)
        fun _ => if numTries + 1 = 100 then Exec.abort else pure (some (numTries + 1))
      match again with
      | none => pure ()
      | some numTries => tryLoop attempts rounds (made + 1) (numTries + 1)
    else pure ()

def triesBound : Nat := 101

/-- One round of `applyOpsFromOplog` on a non-empty queue. -/
def applyFront (attempts : Nat → Attempt) : Exec (Secondary OID Op) ApplyError Unit := do
  let s ← Exec.get
  match s.deque with
  | [] => pure ()
  | curr :: _ =>
    match s.gtidManager.noteApplyingGTID curr.gtid with
    | none => Exec.abort
    | some manager =>
      Exec.modify fun s => { s with gtidManager := manager }
      tryLoop refs attempts triesBound 0 0
      let s ← Exec.get
      match s.gtidManager.noteGTIDApplied curr.gtid with
      | none => Exec.abort
      | some manager =>
        Exec.modify fun s => { s with
          gtidManager := manager
          notedApplied := s.notedApplied ++ [curr.gtid]
          popped := s.popped ++ [curr]
          deque := s.deque.tail }

end

end Secondary

/-! ### One entry -/

/-- The attempt gets past the operations, rewrites the entry and completes its
cursors: only the commit of the storage transaction can still fail, and that ends
the process. -/
def Attempt.clean (attempt : Attempt) : Bool :=
  attempt.opsThrow.isNone && !attempt.writeThrows && !attempt.commit .completedCursors

/-- From attempt `made` on: the attempts before the 51st that throw while applying
operations are followed, still before the 51st, by a clean one. -/
def SettlesFrom (attempts : Nat → Attempt) (made : Nat) : Prop :=
  ∃ k, made ≤ k ∧ k < 51 ∧ (∀ j, made ≤ j → j < k → (attempts j).opsThrow.isSome) ∧
    (attempts k).clean

/-- What the applier's safety needs of the attempts at one entry. -/
def Settles (attempts : Nat → Attempt) : Prop := SettlesFrom attempts 0

theorem settlesFrom_iff {attempts : Nat → Attempt} {made : Nat} (early : made < 51) :
    SettlesFrom attempts made ↔ (attempts made).clean ∨
        (attempts made).opsThrow.isSome ∧ SettlesFrom attempts (made + 1) := by
  constructor
  · rintro ⟨k, le, lt, before, clean⟩
    rcases Nat.eq_or_lt_of_le le with rfl | later
    · exact .inl clean
    · exact .inr ⟨before made le_rfl later,
        k, later, lt, fun j hj => before j ((Nat.le_succ _).trans hj), clean⟩
  · rintro (clean | ⟨threw, k, le, lt, before, clean⟩)
    · exact ⟨made, le_rfl, early, fun j hj hlt => absurd hj (not_le.mpr hlt), clean⟩
    · refine ⟨k, (Nat.le_succ _).trans le, lt, fun j hj hlt => ?_, clean⟩
      rcases Nat.eq_or_lt_of_le hj with rfl | later
      · exact threw
      · exact before j later hlt

theorem not_settlesFrom {attempts : Nat → Attempt} {made : Nat} (late : 51 ≤ made) :
    ¬ SettlesFrom attempts made := by
  rintro ⟨k, le, lt, -⟩
  omega

theorem applierRoot_commit (faults : Call → Bool) (manager : GTIDManager) :
    ∃ root, Root.commitInScope faults 0 id 0 (applierRoot manager) =
        (if faults .completedCursors then .returned ()
          else if faults .storageCommit then .aborted else .returned (), root) ∧
      (faults .storageCommit = false ∨ faults .completedCursors →
        (root.txn = .committed ↔ faults .completedCursors = false)) := by
  cases cursors : faults .completedCursors <;> cases storage : faults .storageCommit <;>
    simp [applierRoot, Root.start, TxnState.start, TxnOplog.root, Root.commitInScope, Root.commit,
      Root.commitRoot, Root.commitRootBody, Root.logForReplication, TxnOplog.empty,
      Root.logForSharding, Root.callOut, Root.commitStorage, Root.noteCommitted, Root.complete,
      Root.destroy, cursors, storage]

namespace Secondary

section

variable {s : Secondary OID Op} {curr : QueuedEntry OID Op} {rest : List (QueuedEntry OID Op)}

theorem commitTransaction_spec (faults : Call → Bool) (s : Secondary OID Op) :
    commitTransaction faults s =
      if faults .completedCursors then (.returned (), { s with txn := none })
      else if faults .storageCommit then (.aborted, s)
      else (.returned (), { s with txn := none, committed := s.committed ++ s.txn.toList }) := by
  obtain ⟨root, result, status⟩ := applierRoot_commit faults s.gtidManager
  cases cursors : faults .completedCursors <;> cases storage : faults .storageCommit <;>
    simp_all [commitTransaction]

variable [LinearOrder OID] (refs : List (RefsDoc OID Op))

/-- An entry whose flag is set counts as applied. -/
theorem attempt_of_flagged (attempt : Attempt) (front : s.deque = curr :: rest)
    (flag : curr.applied) : applyTransactionFromOplog refs attempt s = (.returned (), s) := by
  simp [applyTransactionFromOplog, front, flag]

variable {attempt : Attempt}

theorem attempt_of_opsThrow (front : s.deque = curr :: rest) (flag : curr.applied = false)
    (idle : s.txn = none) (threw : attempt.opsThrow.isSome) :
    applyTransactionFromOplog refs attempt s = (.thrown .applying, s) := by
  obtain ⟨done, threw⟩ := Option.isSome_iff_exists.mp threw
  obtain ⟨manager, deque, txn, committed, noted, popped⟩ := s
  obtain rfl : deque = curr :: rest := front
  obtain rfl : txn = none := idle
  simp [applyTransactionFromOplog, flag, threw]

/-- An attempt past the operations leaves the flag set, whatever happens next. -/
theorem attempt_of_unclean (front : s.deque = curr :: rest) (flag : curr.applied = false)
    (idle : s.txn = none) (past : attempt.opsThrow = none) (unclean : attempt.clean = false) :
    ∃ outcome, applyTransactionFromOplog refs attempt s =
        (outcome, { s with deque := { curr with applied := true } :: rest }) ∧
      (outcome = .returned () ∨ outcome = .thrown .writing) := by
  cases write : attempt.writeThrows with
  | true =>
    refine ⟨.thrown .writing, ?_, .inr rfl⟩
    simp [applyTransactionFromOplog, front, flag, past, write, ← idle]
  | false =>
    have cursors : attempt.commit .completedCursors = true := by
      simpa [Attempt.clean, past, write] using unclean
    refine ⟨.returned (), ?_, .inl rfl⟩
    simp [applyTransactionFromOplog, front, flag, past, write, commitTransaction_spec, cursors,
      ← idle]

theorem attempt_of_clean (front : s.deque = curr :: rest) (flag : curr.applied = false)
    (idle : s.txn = none) (clean : attempt.clean) :
    (∃ s', applyTransactionFromOplog refs attempt s = (.aborted, s')) ∨
      applyTransactionFromOplog refs attempt s = (.returned (), { s with
        deque := { curr with applied := true } :: rest
        committed := s.committed ++
          [⟨curr.payload.opsToApply refs, some { curr with applied := true }⟩] }) := by
  simp only [Attempt.clean, Bool.and_eq_true, Option.isNone_iff_eq_none, Bool.not_eq_true'] at clean
  obtain ⟨⟨past, write⟩, cursors⟩ := clean
  cases storage : attempt.commit .storageCommit with
  | true =>
    left
    simp [applyTransactionFromOplog, front, flag, past, write, commitTransaction_spec, cursors,
      storage]
  | false =>
    right
    simp [applyTransactionFromOplog, front, flag, past, write, commitTransaction_spec, cursors,
      storage, ← idle]

section

variable (attempts : Nat → Attempt)
include attempts

/-- A round of the loop whose counter misses the threshold. -/
theorem tryLoop_succ (rounds made : Nat) {numTries : Nat} (within : numTries ≤ 100)
    (missed : numTries + 1 ≠ 100) :
    tryLoop refs attempts (rounds + 1) made numTries s =
      match applyTransactionFromOplog refs (attempts made) s with
      | (.returned _, s') => (.returned (), s')
      | (.thrown _, s') => tryLoop refs attempts rounds (made + 1) (numTries + 2) s'
      | (.aborted, s') => (.aborted, s') := by
  rw [tryLoop, if_pos within]
  rcases result : applyTransactionFromOplog refs (attempts made) s with ⟨outcome, s'⟩
  cases outcome <;> simp [result, missed]

/-- The loop over a flagged entry ends at once. -/
theorem tryLoop_of_flagged (rounds made : Nat) (front : s.deque = curr :: rest)
    (flag : curr.applied) : tryLoop refs attempts rounds made (2 * made) s = (.returned (), s) := by
  cases rounds with
  | zero => rfl
  | succ rounds =>
    by_cases within : 2 * made ≤ 100
    · rw [tryLoop_succ refs attempts rounds made within (by omega),
        attempt_of_flagged refs (attempts made) front flag]
    · rw [tryLoop, if_neg within]
      rfl

/-- The loop commits the entry's operations exactly when the attempts settle. If they
do not, it ends by itself and nothing has been committed. -/
theorem tryLoop_spec (rounds made : Nat) (enough : 51 ≤ made + rounds)
    (front : s.deque = curr :: rest) (flag : curr.applied = false) (idle : s.txn = none) :
    (SettlesFrom attempts made ∧
      ((∃ s', tryLoop refs attempts rounds made (2 * made) s = (.aborted, s')) ∨
        tryLoop refs attempts rounds made (2 * made) s = (.returned (), { s with
          deque := { curr with applied := true } :: rest
          committed := s.committed ++
            [⟨curr.payload.opsToApply refs, some { curr with applied := true }⟩] }))) ∨
    (¬ SettlesFrom attempts made ∧ ∃ flag, tryLoop refs attempts rounds made (2 * made) s =
      (.returned (), { s with deque := { curr with applied := flag } :: rest })) := by
  have same : { s with deque := { curr with applied := curr.applied } :: rest } = s := by
    rw [← front]
  induction rounds generalizing made with
  | zero =>
    right
    exact ⟨not_settlesFrom (by omega), curr.applied, by rw [same]; rfl⟩
  | succ rounds ih =>
    by_cases late : 51 ≤ made
    · right
      refine ⟨not_settlesFrom late, curr.applied, ?_⟩
      rw [same, tryLoop, if_neg (by omega)]
      rfl
    · have early : made < 51 := not_le.mp late
      -- The counter is odd inside the round, so it never equals the threshold.
      rw [tryLoop_succ refs attempts rounds made (by omega) (by omega), settlesFrom_iff early]
      by_cases clean : (attempts made).clean
      · left
        refine ⟨.inl clean, ?_⟩
        rcases attempt_of_clean refs front flag idle clean with ⟨s', aborted⟩ | committed
        · exact .inl ⟨s', by rw [aborted]⟩
        · exact .inr (by rw [committed])
      · cases threw : (attempts made).opsThrow with
        | some done =>
          have thrown := attempt_of_opsThrow refs front flag idle (Option.isSome_of_eq_some threw)
          simpa [clean, threw, thrown, Nat.mul_add] using ih (made + 1) (by omega)
        | none =>
          right
          obtain ⟨outcome, result, ended⟩ := attempt_of_unclean refs front flag idle
            threw (by simpa using clean)
          refine ⟨by simp [clean], true, ?_⟩
          rw [result]
          rcases ended with rfl | rfl
          · rfl
          · exact tryLoop_of_flagged refs attempts rounds (made + 1) rfl rfl

/-- What a round on the front entry leaves behind: the entry is reported and popped
either way. -/
theorem applyFront_spec {s' : Secondary OID Op} (front : s.deque = curr :: rest)
    (flag : curr.applied = false) (idle : s.txn = none)
    (returned : applyFront refs attempts s = (.returned (), s')) :
    ∃ manager committed, s' = { s with
        gtidManager := manager
        deque := rest
        committed := s.committed ++ committed
        notedApplied := s.notedApplied ++ [curr.gtid]
        popped := s.popped ++ [curr] } ∧
      manager.lastLiveGTID = s.gtidManager.lastLiveGTID ∧
      (Settles attempts ∧
          committed = [⟨curr.payload.opsToApply refs, some { curr with applied := true }⟩] ∨
        ¬ Settles attempts ∧ committed = []) := by
  simp only [applyFront, Exec.bind_apply, Exec.get_apply, front] at returned
  cases applying : s.gtidManager.noteApplyingGTID curr.gtid with
  | none => simp [applying] at returned
  | some manager =>
    have sameLast := GTIDManager.noteApplyingGTID_lastLive applying
    simp only [applying, Exec.bind_apply, Exec.modify_apply, Exec.get_apply] at returned
    have loop := tryLoop_spec refs (s := { s with gtidManager := manager }) attempts triesBound 0
      (by decide) front flag idle
    rw [Nat.mul_zero] at loop
    cases applied : manager.noteGTIDApplied curr.gtid with
    | none =>
      rcases loop with ⟨_, ⟨s₁, other⟩ | other⟩ | ⟨_, _, other⟩ <;>
        simp [other, applied] at returned
    | some manager' =>
      have last := (GTIDManager.noteGTIDApplied_lastLive applied).trans sameLast
      rcases loop with ⟨settles, ⟨s₁, other⟩ | other⟩ | ⟨unsettled, _, other⟩ <;>
        simp only [other, applied, Exec.modify_apply, Prod.mk.injEq, true_and, reduceCtorEq,
          false_and] at returned
      · exact ⟨manager', _, returned.symm, last, .inl ⟨settles, rfl⟩⟩
      · exact ⟨manager', [], by simpa using returned.symm, last, .inr ⟨unsettled, rfl⟩⟩

end

end

end Secondary

/-! ### Runs -/

/-- The queue is in GTID order behind what has been popped, its flags are unset, and
every committed transaction rewrote a popped entry. -/
structure ApplierInv (s : Secondary OID Op) : Prop where
  unflagged : ∀ e ∈ s.deque, e.applied = false
  idle : s.txn = none
  ordered : (s.popped ++ s.deque).Pairwise fun a b => a.gtid < b.gtid
  bounded : ∀ e ∈ s.popped ++ s.deque, e.gtid ≤ s.gtidManager.lastLiveGTID
  owned : ∀ txn ∈ s.committed, ∃ e ∈ s.popped, txn.entry = some { e with applied := true }
  noted : s.notedApplied = s.popped.map QueuedEntry.gtid

theorem gtid_eq_of_rewritten {e e' : QueuedEntry OID Op}
    (same : some { e with applied := true } = some { e' with applied := true }) :
    e.gtid = e'.gtid := by
  simp only [Option.some.injEq, QueuedEntry.mk.injEq] at same
  exact same.1

variable {s : Secondary OID Op} {curr : QueuedEntry OID Op}

/-- The rewritten entry of a committed transaction is not one still in the queue. -/
theorem ApplierInv.gtid_lt (inv : ApplierInv s) {e : QueuedEntry OID Op} (popped : e ∈ s.popped)
    (queued : curr ∈ s.deque) : e.gtid < curr.gtid :=
  (List.pairwise_append.mp inv.ordered).2.2 e popped curr queued

section Runs

variable [LinearOrder OID] {refs : List (RefsDoc OID Op)}

inductive ApplierEvent (OID Op : Type) where
  | produced (entry : QueuedEntry OID Op)
  | applied (attempts : Nat → Attempt)

/-- The producer queues an entry it has just written to the oplog with its `a` flag
false, or the applier goes once round its loop. A round that ends the process is no
step. -/
inductive ApplierStep (refs : List (RefsDoc OID Op)) :
    Secondary OID Op → ApplierEvent OID Op → Secondary OID Op → Prop where
  | produce {s : Secondary OID Op} {manager : GTIDManager} {entry : QueuedEntry OID Op}
      (ts lastHash : Nat) : entry.applied = false →
      s.gtidManager.noteGTIDAdded entry.gtid ts lastHash = some manager →
      ApplierStep refs s (.produced entry)
        { s with gtidManager := manager, deque := s.deque ++ [entry] }
  | apply {s s' : Secondary OID Op} {attempts : Nat → Attempt} : s.deque ≠ [] →
      s.applyFront refs attempts = (.returned (), s') →
      ApplierStep refs s (.applied attempts) s'

/-- The transaction holds all the operations of the entry, together with the entry
rewritten as applied. -/
def ApplyTxn.Covers (refs : List (RefsDoc OID Op)) (txn : ApplyTxn OID Op)
    (e : QueuedEntry OID Op) : Prop :=
  txn.ops = e.payload.opsToApply refs ∧ txn.entry = some { e with applied := true }

/-- Everything popped is covered by a committed transaction, and only what is popped
has been noted applied. -/
def Secondary.Safe (refs : List (RefsDoc OID Op)) (s : Secondary OID Op) : Prop :=
  (∀ e ∈ s.popped, ∃ txn ∈ s.committed, txn.Covers refs e) ∧
    ∀ g ∈ s.notedApplied, ∃ e ∈ s.popped, e.gtid = g

/-- A secondary that has started, with an empty queue. -/
def Secondary.start (manager : GTIDManager) : Secondary OID Op := ⟨manager, [], none, [], [], []⟩

section

variable (inv : ApplierInv s)
include inv

/-- Everything a step can do. -/
theorem applierStep_cases {t : Secondary OID Op} {event : ApplierEvent OID Op}
    (step : ApplierStep refs s event t) :
    (∃ entry manager, event = .produced entry ∧ entry.applied = false ∧
      s.gtidManager.lastLiveGTID < entry.gtid ∧ manager.lastLiveGTID = entry.gtid ∧
      t = { s with gtidManager := manager, deque := s.deque ++ [entry] }) ∨
    (∃ attempts curr rest manager committed, event = .applied attempts ∧ s.deque = curr :: rest ∧
      t = { s with
        gtidManager := manager
        deque := rest
        committed := s.committed ++ committed
        notedApplied := s.notedApplied ++ [curr.gtid]
        popped := s.popped ++ [curr] } ∧
      manager.lastLiveGTID = s.gtidManager.lastLiveGTID ∧
      (Settles attempts ∧
          committed = [⟨curr.payload.opsToApply refs, some { curr with applied := true }⟩] ∨
        ¬ Settles attempts ∧ committed = [])) := by
  cases step with
  | @produce manager entry ts lastHash flag added =>
    obtain ⟨above, last⟩ := GTIDManager.noteGTIDAdded_lastLive added
    exact .inl ⟨entry, manager, rfl, flag, above, last, rfl⟩
  | @apply _ attempts nonempty returned =>
    obtain ⟨curr, rest, front⟩ := List.exists_cons_of_ne_nil nonempty
    have flag := inv.unflagged curr (by simp [front])
    obtain ⟨manager, committed, eq, last, outcome⟩ :=
      Secondary.applyFront_spec refs attempts front flag inv.idle returned
    exact .inr ⟨attempts, curr, rest, manager, committed, rfl, front, eq, last, outcome⟩

theorem applierInv_step {t : Secondary OID Op} {event : ApplierEvent OID Op}
    (step : ApplierStep refs s event t) : ApplierInv t := by
  rcases applierStep_cases inv step with
    ⟨entry, manager, -, flag, above, last, rfl⟩ |
    ⟨attempts, curr, rest, manager, committed, -, front, rfl, last, outcome⟩
  · refine ⟨?_, inv.idle, ?_, ?_, inv.owned, inv.noted⟩
    · intro e he
      rcases List.mem_append.mp he with old | new
      · exact inv.unflagged e old
      · rw [List.mem_singleton.mp new]
        exact flag
    · simp only [← List.append_assoc]
      rw [List.pairwise_append]
      refine ⟨inv.ordered, List.pairwise_singleton _ _, fun e he e' he' => ?_⟩
      rw [List.mem_singleton.mp he']
      exact (inv.bounded e he).trans_lt above
    · intro e he
      simp only [← List.append_assoc] at he
      simp only [last]
      rcases List.mem_append.mp he with old | new
      · exact (inv.bounded e old).trans above.le
      · rw [List.mem_singleton.mp new]
  · have shifted : s.popped ++ [curr] ++ rest = s.popped ++ s.deque := by simp [front]
    refine ⟨fun e he => inv.unflagged e (by simp [front, he]), inv.idle, ?_, ?_, ?_, ?_⟩
    · simpa only [shifted] using inv.ordered
    · simpa only [shifted, last] using inv.bounded
    · intro txn htxn
      rcases List.mem_append.mp htxn with old | new
      · obtain ⟨e, he, eq⟩ := inv.owned txn old
        exact ⟨e, List.mem_append_left _ he, eq⟩
      · rcases outcome with ⟨-, rfl⟩ | ⟨-, rfl⟩
        · rw [List.mem_singleton.mp new]
          exact ⟨curr, by simp, rfl⟩
        · simp at new
    · simp [inv.noted]

theorem ApplierInv.safe_iff :
    s.Safe refs ↔ ∀ e ∈ s.popped, ∃ txn ∈ s.committed, txn.Covers refs e := by
  refine ⟨And.left, fun covered => ⟨covered, fun g hg => ?_⟩⟩
  rw [inv.noted, List.mem_map] at hg
  exact hg

/-- A settled entry is covered by its own transaction, which covers nothing else. -/
theorem safe_step_of_settles (queued : curr ∈ s.deque) :
    (∀ e ∈ s.popped ++ [curr], ∃ txn ∈ s.committed ++
        [⟨curr.payload.opsToApply refs, some { curr with applied := true }⟩], txn.Covers refs e) ↔
      ∀ e ∈ s.popped, ∃ txn ∈ s.committed, txn.Covers refs e := by
  constructor
  · intro covered e popped
    obtain ⟨txn, mem, covers⟩ := covered e (List.mem_append_left _ popped)
    rcases List.mem_append.mp mem with old | new
    · exact ⟨txn, old, covers⟩
    · rw [List.mem_singleton.mp new] at covers
      exact absurd (gtid_eq_of_rewritten covers.2).symm (inv.gtid_lt popped queued).ne
  · intro covered e mem
    rcases List.mem_append.mp mem with old | new
    · obtain ⟨txn, held, covers⟩ := covered e old
      exact ⟨txn, List.mem_append_left _ held, covers⟩
    · rw [List.mem_singleton.mp new]
      exact ⟨_, List.mem_append_right _ (List.mem_singleton_self _), rfl, rfl⟩

/-- An entry that did not settle stays uncovered. -/
theorem not_safe_step_of_unsettled (queued : curr ∈ s.deque) :
    ¬ ∀ e ∈ s.popped ++ [curr], ∃ txn ∈ s.committed, txn.Covers refs e := by
  intro covered
  obtain ⟨txn, mem, covers⟩ := covered curr (by simp)
  obtain ⟨e, popped, eq⟩ := inv.owned txn mem
  exact absurd (gtid_eq_of_rewritten (eq.symm.trans covers.2)) (inv.gtid_lt popped queued).ne

end

end Runs

/-- In every run of the applier, with any failures in any attempts: everything noted
applied and popped has had its operations committed together with its applied bit
exactly when all attempts that were made settle. -/
theorem applied_iff_settles [LinearOrder OID] {refs : List (RefsDoc OID Op)}
    {manager : GTIDManager} {events : List (ApplierEvent OID Op)} {s : Secondary OID Op}
    (run : Run (ApplierStep refs) (.start manager) events s) :
    s.Safe refs ↔ ∀ attempts, .applied attempts ∈ events → Settles attempts := by
  have start : ApplierInv (Secondary.start manager : Secondary OID Op) :=
    ⟨by simp [Secondary.start], rfl, .nil, by simp [Secondary.start], by simp [Secondary.start],
      rfl⟩
  have both : ApplierInv s ∧ (s.Safe refs ↔ ∀ attempts, .applied attempts ∈ events →
      Settles attempts) := by
    refine run.history (P := fun events s => ApplierInv s ∧
      (s.Safe refs ↔ ∀ attempts, .applied attempts ∈ events → Settles attempts))
      ⟨start, by simp [Secondary.Safe, Secondary.start]⟩ ?_
    rintro past a event b - ⟨inv, safe⟩ step
    refine ⟨applierInv_step inv step, ?_⟩
    rw [(applierInv_step inv step).safe_iff]
    rw [inv.safe_iff] at safe
    rcases applierStep_cases inv step with
      ⟨entry, manager, rfl, -, -, -, rfl⟩ |
      ⟨attempts, curr, rest, manager, committed, rfl, front, rfl, -, outcome⟩
    · simpa using safe
    · have queued : curr ∈ a.deque := by simp [front]
      rcases outcome with ⟨settles, rfl⟩ | ⟨unsettled, rfl⟩
      · rw [safe_step_of_settles inv queued, safe]
        refine ⟨fun all attempts' mem => ?_, fun all attempts' mem => ?_⟩
        · rcases List.mem_append.mp mem with old | new
          · exact all attempts' old
          · cases List.mem_singleton.mp new
            exact settles
        · exact all attempts' (List.mem_append_left _ mem)
      · rw [List.append_nil]
        refine iff_of_false (not_safe_step_of_unsettled inv queued) fun all => unsettled ?_
        exact all attempts (by simp)
  exact both.2

/-- An entry with two operations, for the manager that has settled at `(1, 5)`. -/
def nextEntry : QueuedEntry Nat Nat := ⟨⟨1, 6⟩, false, .ops [10, 20]⟩

def nothingThrows : Attempt := ⟨none, false, fun _ => false⟩

/-- The first attempt throws at its second operation, the next one is clean. -/
theorem applied_after_retry :
    ∃ s : Secondary Nat Nat, Run (ApplierStep []) (.start settledManager)
        [.produced nextEntry,
          .applied fun k => if k = 0 then { nothingThrows with opsThrow := some 1 }
            else nothingThrows] s ∧ s.Safe [] := by
  have run : Run (ApplierStep []) (.start settledManager)
      [.produced nextEntry,
        .applied fun k => if k = 0 then { nothingThrows with opsThrow := some 1 }
          else nothingThrows] _ :=
    .cons (.produce 0 0 rfl rfl) (.cons (.apply (by simp [Secondary.start]) rfl) (.nil _))
  refine ⟨_, run, (applied_iff_settles run).mpr fun attempts mem => ?_⟩
  obtain rfl : attempts = _ := by simpa using mem
  exact ⟨1, by omega, by omega, fun j _ hj => by simp [Nat.lt_one_iff.mp hj], rfl⟩

/-- Two ways to pop an entry unapplied: rewriting it throws once, so that the next
attempt finds the flag set; or every attempt throws while applying operations, and
the loop gives up after the 51st without ending the process. -/
theorem popped_unapplied :
    (∃ s : Secondary Nat Nat, Run (ApplierStep []) (.start settledManager)
        [.produced nextEntry,
          .applied fun k => { nothingThrows with writeThrows := k == 0 }] s ∧
      s.popped = [nextEntry] ∧ s.committed = [] ∧ ¬ s.Safe []) ∧
    ∃ s : Secondary Nat Nat, Run (ApplierStep []) (.start settledManager)
        [.produced nextEntry, .applied fun _ => { nothingThrows with opsThrow := some 0 }] s ∧
      s.popped = [nextEntry] ∧ s.committed = [] ∧ ¬ s.Safe [] := by
  have lost : ∀ s : Secondary Nat Nat, s.popped = [nextEntry] → s.committed = [] →
      ¬ s.Safe [] := by
    intro s popped committed safe
    obtain ⟨txn, mem, -⟩ := safe.1 nextEntry (popped ▸ List.mem_singleton_self _)
    exact absurd (committed ▸ mem) List.not_mem_nil
  constructor <;> exact ⟨_, .cons (.produce 0 0 rfl rfl)
    (.cons (.apply (by simp [Secondary.start]) rfl) (.nil _)), rfl, rfl, lost _ rfl rfl⟩

end TokuMX.Repl
