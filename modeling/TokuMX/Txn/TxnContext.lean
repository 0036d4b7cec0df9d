import TokuMX.Lib.Exec
import TokuMX.Repl.GTIDManager
import TokuMX.Txn.TxnOplog

/-!
Committing a root transaction (`TxnContext` in `db/txn_context.cpp`).

`commitRoot` takes a GTID, writes the transaction's operations to the oplog, the
migrate log and the cursor hooks, commits the storage transaction and reports the
GTID done. Any of the calls may throw. Which ones do is the parameter `faults`.

* `AllOrNothing` and `GTIDDoneOnce` say what a caller of `commit` may rely on.
* `commit_allOrNothing_iff` — they hold exactly when nothing before the storage
  commit throws. The outer handler of `commitRoot` swallows what it catches: after
  an early exception the caller sees a normal return and the capped statistics are
  completed as committed, while the storage transaction never commits.
* `commit_swallows` is such a run.

An exception of the storage commit itself ends the process. A process that ends
takes its GTID manager with it, so nothing is asked of the GTID then. Numbers do not wrap
around.
-/

namespace TokuMX.Txn

open TokuMX.Lib TokuMX.Oplog TokuMX.Repl Exec

variable {OID Op : Type}

/-- The calls of a commit that may throw. -/
inductive Call where
  /-- `_logOpsToOplogRef`, for what `rootCommit` still has to spill. -/
  | oplogRefs
  /-- `_logTxnToOplog` or `_logTxnOpsRef`. -/
  | oplogEntry
  /-- `_writeObjToMigrateLogRef`, for the last document of a spilled vector. -/
  | migrateLogRefs
  /-- `_writeObjToMigrateLog`. -/
  | migrateLog
  /-- `noteTxnCompletedCursors`. -/
  | completedCursors
  /-- The commit of the storage transaction. -/
  | storageCommit
deriving DecidableEq

inductive TxnError where
  | inCall (call : Call)
  | assertion
deriving DecidableEq

/-- The storage transaction. -/
inductive StorageTxn where
  | live
  | committed
  | aborted
deriving DecidableEq

/-- `CappedCollectionRollback::Context`: what one capped collection's statistics
owe to the transaction. -/
structure CappedContext where
  minPK : Option Nat
  nDelta : Int
  sizeDelta : Int
deriving DecidableEq

/-- One call of `noteTxnCompletedInserts`. -/
structure CompletedInserts where
  ns : String
  context : CappedContext
  committed : Bool
deriving DecidableEq

/-- What `commitRoot` asks of `_txnOpsForSharding`: whether there is anything in it,
and whether it still has a spilled document to finish. -/
structure ShardingOps where
  empty : Bool
  unfinished : Bool
deriving DecidableEq

/-- An entry of the oplog. -/
structure OplogEntry (OID Op : Type) where
  gtid : GTID
  timestamp : Nat
  hash : Nat
  payload : Payload OID Op

/-- A root `TxnContext`, what it acts on, and the locals of `commitRoot` that its
handler reads. -/
structure Root (OID Op : Type) where
  txn : StorageTxn
  retired : Bool
  initiatingRS : Bool
  txnOps : TxnState OID Op
  txnOpsForSharding : ShardingOps
  cappedRollback : List (String × CappedContext)
  /-- the oplog as the transaction sees it -/
  oplog : List (OplogEntry OID Op)
  /-- the oplog and `oplog.refs` as everyone sees them -/
  durable : List (OplogEntry OID Op) × List (RefsDoc OID Op)
  completed : List CompletedInserts
  lastOp : GTID
  gtidManager : GTIDManager
  handedOut : List GTID
  notedDone : List GTID
  gotGTID : Bool
  gtid : GTID

/-- A root about to commit: `others` is what `oplog.refs` held before it. -/
def Root.start (txnOps : TxnState OID Op) (sharding : ShardingOps) (initiatingRS : Bool)
    (capped : List (String × CappedContext)) (oplog : List (OplogEntry OID Op))
    (others : List (RefsDoc OID Op)) (manager : GTIDManager) (lastOp : GTID) : Root OID Op where
  txn := .live
  retired := false
  initiatingRS
  txnOps
  txnOpsForSharding := sharding
  cappedRollback := capped
  oplog
  durable := (oplog, others)
  completed := []
  lastOp
  gtidManager := manager
  handedOut := []
  notedDone := []
  gotGTID := false
  gtid := ⟨0, 0⟩

namespace Root

/-- `CappedCollectionRollback::_complete`. -/
def complete (committed : Bool) : Exec (Root OID Op) TxnError Unit :=
  Exec.modify fun r => { r with
    completed := r.completed ++ r.cappedRollback.map fun (ns, context) => ⟨ns, context, committed⟩ }

/-- `txnGTIDManager->noteLiveGTIDDone(gtid)`. -/
def noteLiveGTIDDone : Exec (Root OID Op) TxnError Unit := do
  let r ← Exec.get
  let manager ← Exec.ofOption .assertion (r.gtidManager.noteLiveGTIDDone r.gtid)
  Exec.modify fun r => { r with gtidManager := manager, notedDone := r.notedDone ++ [r.gtid] }

/-- After the storage commit: the client's last operation, and the GTID is done. -/
def noteCommitted : Exec (Root OID Op) TxnError Unit := do
  let r ← Exec.get
  if r.gotGTID && !r.initiatingRS then
    Exec.modify fun r => { r with lastOp := r.gtid }
    noteLiveGTIDDone

section

variable (faults : Call → Bool)

/-- A call that throws when `faults` says so. -/
def callOut (call : Call) : Exec (Root OID Op) TxnError Unit :=
  Exec.throwIf (faults call) (.inCall call)

/-- `TxnContext::writeTxnOpsToMigrateLog`: `getObjectsOrRef` finishes the vector. -/
def writeTxnOpsToMigrateLog : Exec (Root OID Op) TxnError Unit := do
  let r ← Exec.get
  if r.txnOpsForSharding.unfinished then callOut faults .migrateLogRefs
  callOut faults .migrateLog

/-- The part of `commitRoot` that logs for chunk migrations. -/
def logForSharding : Exec (Root OID Op) TxnError Unit := do
  let r ← Exec.get
  if !r.txnOpsForSharding.empty then writeTxnOpsToMigrateLog faults

/-- `_txn.commit(flags)` with the handler around it. -/
def commitStorage : Exec (Root OID Op) TxnError Unit :=
  Exec.handle
    (do
      callOut faults .storageCommit
      Exec.modify fun r => { r with txn := .committed, durable := (r.oplog, r.txnOps.refs) })
    fun _ => Exec.abort

variable [LinearOrder OID] (gen : OID) (objsize : Op → Nat) (now : Nat)

/-- A GTID for the entry; while initiating a replica set there is no manager. The
result is the entry's timestamp and hash. -/
def takeGTID : Exec (Root OID Op) TxnError (Nat × Nat) := do
  let r ← Exec.get
  if r.initiatingRS then
    Exec.modify fun r => { r with gotGTID := true }
    return (now, 0)
  else
    let got ← Exec.ofOption .assertion (r.gtidManager.getGTIDForPrimary now)
    Exec.modify fun r => { r with
      gtid := got.1.1
      gtidManager := got.2
      handedOut := r.handedOut ++ [got.1.1]
      gotGTID := true }
    return got.1.2

/-- `rootCommit` has to write a document of `oplog.refs` before the entry. -/
def toSpill (r : Root OID Op) : Bool := r.txnOps.log.spilled && !r.txnOps.log.m.isEmpty

/-- `_txnOps.rootCommit(gtid, timestamp, hash)`: what is left is spilled, then the
entry is written. -/
def rootCommit (timestamp hash : Nat) : Exec (Root OID Op) TxnError Unit := do
  let r ← Exec.get
  if r.toSpill then callOut faults .oplogRefs
  let written ← Exec.ofOption .assertion (r.txnOps.rootCommit gen objsize)
  Exec.modify fun r => { r with txnOps := { r.txnOps with refs := written.2 } }
  callOut faults .oplogEntry
  Exec.modify fun r => { r with oplog := r.oplog ++ [⟨r.gtid, timestamp, hash, written.1⟩] }

/-- The part of `commitRoot` that logs for replication. -/
def logForReplication : Exec (Root OID Op) TxnError Unit := do
  let r ← Exec.get
  if !r.txnOps.log.empty then
    let stamp ← takeGTID now
    rootCommit faults gen objsize stamp.1 stamp.2

/-- The body of the outer `try` of `TxnContext::commitRoot`. -/
def commitRootBody : Exec (Root OID Op) TxnError Unit := do
  logForReplication faults gen objsize now
  logForSharding faults
  callOut faults .completedCursors
  commitStorage faults
  noteCommitted

/-- `TxnContext::commitRoot`. -/
def commitRoot : Exec (Root OID Op) TxnError Unit := do
  Exec.modify fun r => { r with gtid := r.gtid.incPrimary }
  Exec.handle (commitRootBody faults gen objsize now) fun _ => do
    let r ← Exec.get
    if r.gotGTID && !r.initiatingRS then noteLiveGTIDDone
  complete true

/-- `TxnContext::commit` of a root. -/
def commit : Exec (Root OID Op) TxnError Unit := do
  let r ← Exec.get
  Exec.throwIf r.retired .assertion
  commitRoot faults gen objsize now
  Exec.modify fun r => { r with retired := true }

/-- `TxnContext::abort`. -/
def abort : Exec (Root OID Op) TxnError Unit := do
  callOut faults .completedCursors
  Exec.modify fun r => { r with txn := .aborted }
  complete false
  Exec.modify fun r => { r with retired := true }

/-- `TxnContext::~TxnContext`, and the destructor of the storage transaction after
it. Throwing in a destructor ends the process. -/
def destroy : Exec (Root OID Op) TxnError Unit := do
  let r ← Exec.get
  if !r.retired then Exec.handle (abort faults) fun _ => Exec.abort
  Exec.modify fun r => { r with txn := if r.txn = .live then .aborted else r.txn }

/-- `commit` as its caller meets it: the context is destroyed on the way out, also
when an exception passes. -/
def commitInScope : Exec (Root OID Op) TxnError Unit := do
  Exec.handle (commit faults gen objsize now) fun error => do
    destroy faults
    Exec.throw error
  destroy faults

end

end Root

/-! ### What a caller may rely on -/

/-- A call of `logForReplication` throws. -/
def Root.replicationThrows (faults : Call → Bool) (r : Root OID Op) : Bool :=
  !r.txnOps.log.empty && (r.toSpill && faults .oplogRefs || faults .oplogEntry)

/-- A call of `logForSharding` throws. -/
def Root.shardingThrows (faults : Call → Bool) (r : Root OID Op) : Bool :=
  !r.txnOpsForSharding.empty &&
    (r.txnOpsForSharding.unfinished && faults .migrateLogRefs || faults .migrateLog)

/-- Some call before the commit of the storage transaction throws. -/
def Root.throwsEarly (faults : Call → Bool) (r : Root OID Op) : Bool :=
  r.replicationThrows faults || r.shardingThrows faults || faults .completedCursors

/-- The statistics of the capped collections in `capped`, completed one way. -/
def completedAs (committed : Bool) (capped : List (String × CappedContext)) :
    List CompletedInserts :=
  capped.map fun (ns, context) => ⟨ns, context, committed⟩

/-- The call returned with the storage transaction committed and `logged` in the
oplog under its GTID, or did not return, with the storage transaction not committed
and the capped statistics not completed as committed. -/
def AllOrNothing [LinearOrder OID] (capped : List (String × CappedContext)) (logged : List Op) :
    Outcome TxnError Unit × Root OID Op → Prop
  | (.returned (), r) => r.txn = .committed ∧ r.completed = completedAs true capped ∧
      (logged ≠ [] → ∃ entry ∈ r.durable.1, (r.initiatingRS ∨ entry.gtid ∈ r.handedOut) ∧
        entry.payload.opsToApply r.durable.2 = logged)
  | (.thrown _, r) => r.txn ≠ .committed ∧ r.completed = completedAs false capped
  | (.aborted, r) => r.txn ≠ .committed ∧ ∀ c ∈ r.completed, c.committed = false

/-- Every GTID handed out is reported done once, unless the process is gone. -/
def GTIDDoneOnce : Outcome TxnError Unit × Root OID Op → Prop
  | (.aborted, _) => True
  | (_, r) => ∀ g ∈ r.handedOut, r.notedDone.count g = 1

namespace Root

/-- What every state of `commitRoot` before the storage commit looks like. -/
structure Uncommitted (start r : Root OID Op) : Prop where
  txn : r.txn = .live
  retired : r.retired = false
  completed : r.completed = []
  capped : r.cappedRollback = start.cappedRollback
  sharding : r.txnOpsForSharding = start.txnOpsForSharding
  initiating : r.initiatingRS = start.initiatingRS
  notedDone : r.notedDone = []
  held : r.gotGTID && !r.initiatingRS → r.handedOut = [r.gtid] ∧
    ∃ manager, r.gtidManager.noteLiveGTIDDone r.gtid = some manager
  unheld : ¬ (r.gotGTID && !r.initiatingRS) → r.handedOut = []

section

variable {faults : Call → Bool} {start r : Root OID Op}

theorem logForSharding_throws (throws : r.shardingThrows faults) :
    ∃ e, logForSharding faults r = (.thrown e, r) := by
  cases empty : r.txnOpsForSharding.empty <;> cases unfinished : r.txnOpsForSharding.unfinished <;>
    cases refs : faults .migrateLogRefs <;> cases log : faults .migrateLog <;>
    simp_all [shardingThrows, logForSharding, writeTxnOpsToMigrateLog, callOut]

theorem logForSharding_returns (throws : ¬ r.shardingThrows faults) :
    logForSharding faults r = (.returned (), r) := by
  cases empty : r.txnOpsForSharding.empty <;> cases unfinished : r.txnOpsForSharding.unfinished <;>
    cases refs : faults .migrateLogRefs <;> cases log : faults .migrateLog <;>
    simp_all [shardingThrows, logForSharding, writeTxnOpsToMigrateLog, callOut]

variable {outstanding : Finset GTID}

theorem takeGTID_spec (now : Nat) (before : Uncommitted start r)
    (inv : PrimaryInv ⟨r.gtidManager, outstanding⟩) (fresh : r.gotGTID = false) :
    ∃ stamp r', takeGTID now r = (.returned stamp, r') ∧ Uncommitted start r' ∧
      r'.txnOps = r.txnOps ∧ r'.oplog = r.oplog ∧ (r'.initiatingRS ∨ r'.gtid ∈ r'.handedOut) := by
  have none : r.handedOut = [] := before.unheld (by simp [fresh])
  cases initiating : r.initiatingRS with
  | true =>
    refine ⟨(now, 0), { r with gotGTID := true }, by simp [takeGTID, initiating], ?_, rfl, rfl,
      .inl initiating⟩
    exact { before with
      held := by simp [initiating]
      unheld := fun _ => none }
  | false =>
    obtain ⟨⟨⟨gtid, stamp⟩, manager⟩, got⟩ :=
      Option.isSome_iff_exists.mp ((primary_calls_succeed inv).1 now)
    have inv' := primaryInv_step inv (.get now got)
    have done := Option.isSome_iff_exists.mp
      ((primary_calls_succeed inv').2 gtid (Finset.mem_insert_self _ _))
    simp only at got
    refine ⟨stamp, { r with gtid, gtidManager := manager, handedOut := [gtid], gotGTID := true },
      by simp [takeGTID, initiating, got, none], ?_, rfl, rfl, .inr (by simp)⟩
    exact { before with
      held := fun _ => ⟨rfl, done⟩
      unheld := by simp [initiating] }

variable [LinearOrder OID] {gen : OID} {objsize : Op → Nat} {others : List (RefsDoc OID Op)}
  {logged : List Op}

theorem rootCommit_spec (faults : Call → Bool) (timestamp hash : Nat)
    (foreign : ∀ d ∈ others, d.oid ≠ gen) (before : Uncommitted start r)
    (ok : StackOk gen objsize others r.txnOps [logged]) :
    ∃ r', Uncommitted start r' ∧ r'.initiatingRS = r.initiatingRS ∧ r'.gtid = r.gtid ∧
      r'.handedOut = r.handedOut ∧
      if r.toSpill && faults .oplogRefs || faults .oplogEntry then
        ∃ e, rootCommit faults gen objsize timestamp hash r = (.thrown e, r')
      else rootCommit faults gen objsize timestamp hash r = (.returned (), r') ∧
        ∃ entry ∈ r'.oplog, entry.gtid = r.gtid ∧
          entry.payload.opsToApply r'.txnOps.refs = logged := by
  obtain ⟨payload, refs, -, written, -, -, -, applied⟩ := rootCommit_ok foreign ok
  by_cases refused : r.toSpill && faults .oplogRefs
  · refine ⟨r, before, rfl, rfl, rfl, ?_⟩
    rw [Bool.and_eq_true] at refused
    simp [rootCommit, callOut, refused]
  · cases entry : faults .oplogEntry with
    | true =>
      refine ⟨{ r with txnOps := { r.txnOps with refs } }, { before with }, rfl, rfl, rfl, ?_⟩
      cases due : r.toSpill <;> simp_all [rootCommit, callOut]
    | false =>
      refine ⟨{ r with
        txnOps := { r.txnOps with refs }
        oplog := r.oplog ++ [⟨r.gtid, timestamp, hash, payload⟩] },
        { before with }, rfl, rfl, rfl, ?_⟩
      cases due : r.toSpill <;> simp_all [rootCommit, callOut]

theorem logForReplication_spec (faults : Call → Bool) (now : Nat)
    (foreign : ∀ d ∈ others, d.oid ≠ gen) (before : Uncommitted start r)
    (ok : StackOk gen objsize others r.txnOps [logged])
    (inv : PrimaryInv ⟨r.gtidManager, outstanding⟩) (fresh : r.gotGTID = false) :
    ∃ r', Uncommitted start r' ∧
      if r.replicationThrows faults then
        ∃ e, logForReplication faults gen objsize now r = (.thrown e, r')
      else logForReplication faults gen objsize now r = (.returned (), r') ∧
        (logged ≠ [] → ∃ entry ∈ r'.oplog, (r'.initiatingRS ∨ entry.gtid ∈ r'.handedOut) ∧
          entry.payload.opsToApply r'.txnOps.refs = logged) := by
  cases empty : r.txnOps.log.empty with
  | true =>
    refine ⟨r, before, ?_⟩
    simp [replicationThrows, logForReplication, empty, ok.eq_nil_of_empty empty]
  | false =>
    obtain ⟨stamp, r₁, took, before₁, sameOps, -, gtid⟩ := takeGTID_spec now before inv fresh
    obtain ⟨r₂, before₂, initiating, -, handed, result⟩ :=
      rootCommit_spec faults stamp.1 stamp.2 foreign before₁ (sameOps ▸ ok)
    have sameSpill : r₁.toSpill = r.toSpill := by simp [toSpill, sameOps]
    have throws : r.replicationThrows faults =
        (r.toSpill && faults .oplogRefs || faults .oplogEntry) := by
      simp [replicationThrows, empty]
    refine ⟨r₂, before₂, ?_⟩
    rw [throws]
    rw [sameSpill] at result
    split_ifs at result ⊢
    · obtain ⟨e, result⟩ := result
      exact ⟨e, by simp [logForReplication, empty, took, result]⟩
    · obtain ⟨result, entry, mem, ownGtid, applied⟩ := result
      refine ⟨by simp [logForReplication, empty, took, result], ?_⟩
      refine fun _ => ⟨entry, mem, ?_, applied⟩
      rw [initiating, handed, ownGtid]
      exact gtid

/-- What a state of `commitRoot` after the storage commit looks like. -/
structure Committed (start : Root OID Op) (logged : List Op) (r : Root OID Op) : Prop where
  txn : r.txn = .committed
  retired : r.retired = false
  completed : r.completed = []
  capped : r.cappedRollback = start.cappedRollback
  entry : logged ≠ [] → ∃ entry ∈ r.durable.1, (r.initiatingRS ∨ entry.gtid ∈ r.handedOut) ∧
    entry.payload.opsToApply r.durable.2 = logged
  doneOnce : ∀ g ∈ r.handedOut, r.notedDone.count g = 1

/-- The storage transaction commits and the GTID is reported done. -/
theorem noteCommitted_spec (before : Uncommitted start r)
    (entry : logged ≠ [] → ∃ entry ∈ r.oplog, (r.initiatingRS ∨ entry.gtid ∈ r.handedOut) ∧
      entry.payload.opsToApply r.txnOps.refs = logged) :
    ∃ r', Committed start logged r' ∧
      noteCommitted { r with txn := .committed, durable := (r.oplog, r.txnOps.refs) } =
        (.returned (), r') := by
  cases held : r.gotGTID && !r.initiatingRS with
  | false =>
    refine ⟨{ r with txn := .committed, durable := (r.oplog, r.txnOps.refs) }, ?_, ?_⟩
    · have none : r.handedOut = [] := before.unheld (by simp [held])
      exact ⟨rfl, before.retired, before.completed, before.capped, entry, by simp [none]⟩
    · simp only [noteCommitted, bind_apply, get_apply, held]
      simp
  | true =>
    obtain ⟨handed, manager, done⟩ := before.held held
    refine ⟨{ r with
      txn := .committed
      durable := (r.oplog, r.txnOps.refs)
      lastOp := r.gtid
      gtidManager := manager
      notedDone := [r.gtid] }, ?_, ?_⟩
    · refine ⟨rfl, before.retired, before.completed, before.capped, entry, ?_⟩
      simp [handed]
    · simp only [noteCommitted, bind_apply, get_apply, held]
      simp [noteLiveGTIDDone, done, before.notedDone]

theorem commitRootBody_spec (faults : Call → Bool) (now : Nat)
    (foreign : ∀ d ∈ others, d.oid ≠ gen) (before : Uncommitted r r)
    (ok : StackOk gen objsize others r.txnOps [logged])
    (inv : PrimaryInv ⟨r.gtidManager, outstanding⟩) (fresh : r.gotGTID = false) :
    ∃ r', if r.throwsEarly faults then
        Uncommitted r r' ∧ ∃ e, commitRootBody faults gen objsize now r = (.thrown e, r')
      else if faults .storageCommit then
        Uncommitted r r' ∧ commitRootBody faults gen objsize now r = (.aborted, r')
      else Committed r logged r' ∧
        commitRootBody faults gen objsize now r = (.returned (), r') := by
  obtain ⟨r₁, before₁, result⟩ := logForReplication_spec faults now foreign before ok inv fresh
  have sameSharding : r₁.shardingThrows faults = r.shardingThrows faults := by
    simp [shardingThrows, before₁.sharding]
  cases replication : r.replicationThrows faults with
  | true =>
    rw [replication, if_pos rfl] at result
    obtain ⟨e, result⟩ := result
    refine ⟨r₁, ?_⟩
    rw [if_pos (by simp [throwsEarly, replication])]
    exact ⟨before₁, e, by simp [commitRootBody, result]⟩
  | false =>
    rw [replication, if_neg (by simp)] at result
    obtain ⟨result, entry⟩ := result
    cases sharding : r.shardingThrows faults with
    | true =>
      obtain ⟨e, threw⟩ := logForSharding_throws (sameSharding.trans sharding)
      refine ⟨r₁, ?_⟩
      rw [if_pos (by simp [throwsEarly, sharding])]
      exact ⟨before₁, e, by simp [commitRootBody, result, threw]⟩
    | false =>
      have logged : logForSharding faults r₁ = (.returned (), r₁) :=
        logForSharding_returns (by simp [sameSharding, sharding])
      cases cursors : faults .completedCursors with
      | true =>
        refine ⟨r₁, ?_⟩
        rw [if_pos (by simp [throwsEarly, cursors])]
        exact ⟨before₁, .inCall .completedCursors,
          by simp [commitRootBody, result, logged, callOut, cursors]⟩
      | false =>
        have late : r.throwsEarly faults = false := by
          simp [throwsEarly, replication, sharding, cursors]
        cases storage : faults .storageCommit with
        | true =>
          refine ⟨r₁, ?_⟩
          simp [late, before₁, commitRootBody, result, logged, callOut, cursors,
            commitStorage, storage]
        | false =>
          obtain ⟨r₂, committed, noted⟩ := noteCommitted_spec before₁ entry
          refine ⟨r₂, ?_⟩
          simp [late, committed, commitRootBody, result, logged, callOut, cursors,
            commitStorage, storage, noted]

variable {r' : Root OID Op} {now : Nat}

/-- The outer handler swallows an exception: `commitRoot` returns normally. -/
theorem commitRoot_of_thrown {e : TxnError} (before : Uncommitted start r')
    (threw : commitRootBody faults gen objsize now { r with gtid := r.gtid.incPrimary } =
      (.thrown e, r')) :
    ∃ r'', commitRoot faults gen objsize now r = (.returned (), r'') ∧ r''.txn = .live := by
  cases held : r'.gotGTID && !r'.initiatingRS with
  | false =>
    simp only [commitRoot, bind_apply, modify_apply, handle_apply, threw, get_apply, held]
    simp [complete, before.txn]
  | true =>
    obtain ⟨-, manager, done⟩ := before.held held
    simp only [commitRoot, bind_apply, modify_apply, handle_apply, threw, get_apply, held]
    simp [noteLiveGTIDDone, done, complete, before.txn]

theorem commitRoot_of_returned (committed : Committed start logged r')
    (returned : commitRootBody faults gen objsize now { r with gtid := r.gtid.incPrimary } =
      (.returned (), r')) :
    commitRoot faults gen objsize now r =
      (.returned (), { r' with completed := completedAs true start.cappedRollback }) := by
  simp [commitRoot, returned, complete, committed.completed, committed.capped, completedAs]

theorem commitInScope_of_returned (live : r.retired = false)
    (returned : commitRoot faults gen objsize now r = (.returned (), r')) :
    commitInScope faults gen objsize now r = (.returned (), { r' with
      retired := true
      txn := if r'.txn = .live then .aborted else r'.txn }) := by
  simp [commitInScope, commit, live, returned, destroy]

theorem commitInScope_of_aborted (live : r.retired = false)
    (ended : commitRootBody faults gen objsize now { r with gtid := r.gtid.incPrimary } =
      (.aborted, r')) :
    commitInScope faults gen objsize now r = (.aborted, r') := by
  have root : commitRoot faults gen objsize now r = (.aborted, r') := by simp [commitRoot, ended]
  simp [commitInScope, commit, live, root]

end

end Root

/-- `commit` of a root is all or nothing, and reports its GTID done once, exactly
when no call before the storage commit throws. The root has run any body of
operations and nested transactions, against any manager of a primary. -/
theorem commit_allOrNothing_iff [LinearOrder OID] (gen : OID) (objsize : Op → Nat) (now : Nat)
    {others : List (RefsDoc OID Op)} (foreign : ∀ d ∈ others, d.oid ≠ gen) {limit : Nat}
    {body : Body Op} {txnOps : TxnState OID Op}
    (ran : body.exec gen objsize (.start limit others) = some txnOps)
    {manager : GTIDManager} {outstanding : Finset GTID} (inv : PrimaryInv ⟨manager, outstanding⟩)
    (sharding : ShardingOps) (initiatingRS : Bool) (capped : List (String × CappedContext))
    (oplog : List (OplogEntry OID Op)) (lastOp : GTID) (faults : Call → Bool) :
    let r := Root.start txnOps sharding initiatingRS capped oplog others manager lastOp
    let result := Root.commitInScope faults gen objsize now r
    (AllOrNothing capped body.survivors result ∧ GTIDDoneOnce result) ↔ ¬ r.throwsEarly faults := by
  intro r result
  have ok : StackOk gen objsize others txnOps [body.survivors] := by
    obtain ⟨s, ran', ok⟩ := exec_ok foreign body (start_ok limit)
    obtain rfl := Option.some.inj (ran.symm.trans ran')
    exact ok
  let r' := { r with gtid := r.gtid.incPrimary }
  have before : r'.Uncommitted r' :=
    ⟨rfl, rfl, rfl, rfl, rfl, rfl, rfl, fun held => by simp [r', r, Root.start] at held,
      fun _ => rfl⟩
  obtain ⟨r₁, outcome⟩ := Root.commitRootBody_spec faults now foreign before ok inv rfl
  have same : r'.throwsEarly faults = r.throwsEarly faults := rfl
  rw [same] at outcome
  split_ifs at outcome with early storage
  · obtain ⟨before₁, e, threw⟩ := outcome
    obtain ⟨r₂, returned, live⟩ := Root.commitRoot_of_thrown before₁ threw
    have scope := Root.commitInScope_of_returned rfl returned
    refine ⟨fun promised => ?_, fun late => absurd early late⟩
    have promise := promised.1
    simp only [result, scope, AllOrNothing, live] at promise
    exact absurd promise.1 (by simp)
  · obtain ⟨before₁, ended⟩ := outcome
    have scope := Root.commitInScope_of_aborted rfl ended
    simp only [result, scope, early, AllOrNothing, GTIDDoneOnce, before₁.txn, before₁.completed]
    simp
  · obtain ⟨committed, returned⟩ := outcome
    have scope := Root.commitInScope_of_returned rfl
      (Root.commitRoot_of_returned committed returned)
    refine ⟨fun _ => early, fun _ => ?_⟩
    simp only [result, scope, AllOrNothing, GTIDDoneOnce, committed.txn]
    exact ⟨⟨by simp, rfl, committed.entry⟩, committed.doneOnce⟩

/-- A root with one operation and a capped collection to account for. -/
def cappedInsert (manager : GTIDManager) : Root Nat Nat :=
  Root.start ⟨⟨false, 7, 100, [7], none, 2⟩, [], [], []⟩ ⟨true, false⟩ false
    [("db.log", ⟨some 4, 1, 7⟩)] [] [] manager ⟨1, 5⟩

/-- Nothing throws: the promise is kept. -/
theorem commit_allOrNothing_capped_insert :
    let r := cappedInsert { settledManager with incPrimary := true }
    let result := Root.commitInScope (fun _ => false) 1 id 101 r
    r.throwsEarly (fun _ => false) = false ∧
      AllOrNothing [("db.log", ⟨some 4, 1, 7⟩)] [7] result ∧ GTIDDoneOnce result := by
  have ran : (Body.append 7 .done).exec 1 id (.start 100 []) =
      some (cappedInsert { settledManager with incPrimary := true }).txnOps := rfl
  have inv : PrimaryInv ⟨{ settledManager with incPrimary := true }, ∅⟩ :=
    primaryInv_reset (rfl : settledManager.resetManager = some _)
  exact ⟨rfl, (commit_allOrNothing_iff 1 id 101 (by simp) ran inv _ _ _ _ _ _).mpr (by decide)⟩

/-- Writing the oplog entry throws. `commit` returns normally, the capped statistics
are completed as committed, and the storage transaction has been aborted. -/
theorem commit_swallows :
    (Body.append 7 .done).exec 1 id (.start 100 []) =
        some (cappedInsert { settledManager with incPrimary := true }).txnOps ∧
      ∃ r, Root.commitInScope (· == .oplogEntry) 1 id 101
          (cappedInsert { settledManager with incPrimary := true }) = (.returned (), r) ∧
        r.txn = .aborted ∧ r.durable.1.length = 0 ∧
        r.completed = [⟨"db.log", ⟨some 4, 1, 7⟩, true⟩] ∧
        ¬ AllOrNothing [("db.log", ⟨some 4, 1, 7⟩)] [7] (.returned (), r) := by
  refine ⟨rfl, _, rfl, rfl, rfl, rfl, fun promise => ?_⟩
  exact absurd promise.1 (by decide)

end TokuMX.Txn
