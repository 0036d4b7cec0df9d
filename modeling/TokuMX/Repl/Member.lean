import TokuMX.Repl.Applier

/-!
One data-bearing member of a replica set (`db/repl/bgsync.cpp`, `db/repl/rs.cpp`).

Four threads share the GTID manager, the queue and the oplog: the producer, which
replicates entries and rolls back; the applier; the thread that persists the two
minima of the manager; and whoever stops and starts replication, which is also who
makes the member primary. A step is what one thread does under its mutex, so a run
is any interleaving of them.

`Member.Enabled` says when a thread gets to a step, and `Member.act` what the step
does; it has no result when an assertion fails. The process ending by itself, as
when the applier gives up, is no step.

Shutting down, what a rollback does to the collections, and sequence numbers that wrap around
are left out.
-/

namespace TokuMX.Repl

open TokuMX.Lib TokuMX.Oplog

variable {OID Op : Type}

/-- `MemberState`, as far as it decides what may run: recovering and rolling back
count as secondary. -/
inductive Role where
  | secondary
  | primary
  | fatal
deriving DecidableEq

/-- What was last asked for: by `startOpSyncThread`, by a `stopOpSyncThread` that
still waits, or by one that has returned. `_opSyncShouldRun` is true in the first. -/
inductive OpSync where
  | running
  | stopping
  | stopped
deriving DecidableEq

/-- Where `applyOpsFromOplog` is with the front of the queue. -/
inductive ApplierAt where
  | waiting
  | took
  | applying
  | tried
  | noted
deriving DecidableEq

/-- The entry a rollback goes back to. -/
structure RollbackPoint where
  gtid : GTID
  ts : Nat
  hash : Nat
deriving DecidableEq

/-- Where `producerThread` is. `_opSyncRunning` is false when it is parked. -/
inductive ProducerAt (OID Op : Type) where
  | parked
  /-- in `produce`, before it knows whether a rollback is required -/
  | connecting
  | reading
  /-- the entry has been committed to the oplog and not yet been queued -/
  | wrote (entry : QueuedEntry OID Op) (ts lastHash : Nat)
  /-- `runRollback` waits for the applier -/
  | draining (point : RollbackPoint)
  | drained (point : RollbackPoint)
  /-- the manager has been reset -/
  | reset (point : RollbackPoint)
  /-- `forceUpdateReplInfo` holds `_replInfoMutex` -/
  | forcing (point : RollbackPoint) (mins : GTID × GTID)
  | undoing (point : RollbackPoint)

/-- The state of a member. The oplog is in the order of `_id`; `outstanding` are the
GTIDs handed out and not yet done; `replInfoRead` is what the repl-info thread has
read and not yet written, while it holds `_replInfoMutex`. -/
structure Member (OID Op : Type) where
  role : Role
  gtidManager : GTIDManager
  outstanding : Finset GTID
  opSync : OpSync
  producer : ProducerAt OID Op
  deque : List (QueuedEntry OID Op)
  applierInProgress : Bool
  applier : ApplierAt
  oplog : List (QueuedEntry OID Op)
  replInfo : GTID × GTID
  replInfoRead : Option (GTID × GTID)

inductive MemberEvent (OID Op : Type) where
  | applierStarts
  | stopOpSync
  | opSyncStopped
  | startOpSync
  | resume
  | park
  | rollbackNotNeeded
  | replicate (entry : QueuedEntry OID Op) (ts lastHash : Nat)
  | enqueue
  | rollbackTo (point : RollbackPoint)
  | drain
  | resetForRollback
  | forceRead
  | forceWrite
  | undo
  | rolledBack
  | rollbackFails
  | take
  | noteApplying
  | tryEntry (attempts : Nat → Attempt)
  | noteApplied
  | pop
  | readMins
  | writeMins
  | keepMins
  | assumePrimary
  | getGTID (now : Nat)
  | done (gtid : GTID) (committed : Option (Payload OID Op))
  | relinquish

/-- The manager as `_go` leaves it: caught up, in a set of one member, or reset to the
last entry of the oplog once the initial sync is done. -/
inductive Started : GTIDManager → Prop where
  | caughtUp {m : GTIDManager} (last : GTID) (lastTime lastHash id : Nat) :
      (GTIDManager.new last lastTime lastHash id).catchUnappliedToLive = some m → Started m
  | synced {m₀ m : GTIDManager} (last : GTID) (lastTime lastHash : Nat) :
      m₀.resetAfterInitialSync last lastTime lastHash = some m → Started m

/-! ### The oplog -/

/-- `writeEntryToOplog`: a row with the same `_id` is overwritten. -/
def writeEntryToOplog (oplog : List (QueuedEntry OID Op)) (entry : QueuedEntry OID Op) :
    List (QueuedEntry OID Op) :=
  oplog.filter (fun e => e.gtid < entry.gtid) ++
    entry :: oplog.filter (fun e => entry.gtid < e.gtid)

/-- `purgeEntryFromOplog`. -/
def purgeEntryFromOplog (oplog : List (QueuedEntry OID Op)) (gtid : GTID) :
    List (QueuedEntry OID Op) :=
  oplog.filter fun e => e.gtid ≠ gtid

/-- The entries are in the order of their GTIDs, and no two have the same. -/
def OplogSorted (oplog : List (QueuedEntry OID Op)) : Prop :=
  oplog.Pairwise fun a b => a.gtid < b.gtid

section

variable {oplog : List (QueuedEntry OID Op)} {entry e : QueuedEntry OID Op} {gtid : GTID}

theorem mem_writeEntryToOplog :
    e ∈ writeEntryToOplog oplog entry ↔ e = entry ∨ e ∈ oplog ∧ e.gtid ≠ entry.gtid := by
  simp only [writeEntryToOplog, List.mem_append, List.mem_cons, List.mem_filter,
    decide_eq_true_eq, ne_iff_lt_or_gt]
  tauto

theorem OplogSorted.writeEntryToOplog (sorted : OplogSorted oplog) (entry : QueuedEntry OID Op) :
    OplogSorted (writeEntryToOplog oplog entry) := by
  refine List.pairwise_append.mpr
    ⟨sorted.filter _, List.pairwise_cons.mpr ⟨?_, sorted.filter _⟩, ?_⟩
  · intro e above
    simpa using (List.mem_filter.mp above).2
  · intro e below e' mem
    have lt : e.gtid < entry.gtid := by simpa using (List.mem_filter.mp below).2
    rcases List.mem_cons.mp mem with rfl | above
    · exact lt
    · exact lt.trans (by simpa using (List.mem_filter.mp above).2)

theorem mem_purgeEntryFromOplog :
    e ∈ purgeEntryFromOplog oplog gtid ↔ e ∈ oplog ∧ e.gtid ≠ gtid := by
  simp [purgeEntryFromOplog]

theorem OplogSorted.purgeEntryFromOplog (sorted : OplogSorted oplog) (gtid : GTID) :
    OplogSorted (purgeEntryFromOplog oplog gtid) :=
  sorted.filter _

end

/-! ### Steps -/

namespace Member

/-- A member before its threads start. -/
def start (role : Role) (manager : GTIDManager) (oplog : List (QueuedEntry OID Op))
    (replInfo : GTID × GTID) : Member OID Op :=
  ⟨role, manager, ∅, .stopped, .parked, [], false, .waiting, oplog, replInfo, none⟩

/-- `BackgroundSync::verifySettled`. -/
def verifySettled (s : Member OID Op) : Option Unit :=
  if s.applierInProgress then do
    check (s.deque.length = 0)
    check (GTID.cmp s.gtidManager.lastUnappliedGTID s.gtidManager.lastLiveGTID = 0)
    check (GTID.cmp s.gtidManager.minUnappliedGTID s.gtidManager.minLiveGTID = 0)
  else some ()

section

variable [LinearOrder OID] (refs : List (RefsDoc OID Op))

/-- What the applier's loop over the attempts makes of the front of the queue. -/
def tryFront (attempts : Nat → Attempt) (s : Member OID Op) :
    Outcome ApplyError Unit × Secondary OID Op :=
  Secondary.tryLoop refs attempts Secondary.triesBound 0 0
    ⟨s.gtidManager, s.deque, none, [], [], []⟩

/-- When a thread gets to a step: where it is, the mutex it needs, and what it waits
for. An entry the producer reads comes after all it has seen, since its cursor on the
other member's oplog is in the order of `_id` and starts there. -/
def Enabled (s : Member OID Op) : MemberEvent OID Op → Prop
  | .applierStarts => s.applierInProgress = false
  | .stopOpSync => s.opSync ≠ .stopping
  | .opSyncStopped => s.opSync = .stopping ∧ s.producer = .parked ∧ s.deque = []
  | .startOpSync => s.opSync = .stopped ∧ s.role = .secondary
  | .resume => s.producer = .parked ∧ s.opSync = .running ∧ s.role ≠ .fatal
  | .park => s.producer = .connecting ∨ s.producer = .reading ∨ ∃ point, s.producer = .drained point
  | .rollbackNotNeeded => s.producer = .connecting
  | .replicate entry _ _ => s.producer = .reading ∧ entry.applied = false ∧
      s.gtidManager.lastLiveGTID < entry.gtid
  | .enqueue => ∃ entry ts lastHash, s.producer = .wrote entry ts lastHash
  | .rollbackTo point => s.producer = .connecting ∧ ∃ e ∈ s.oplog, e.gtid = point.gtid
  | .drain => (∃ point, s.producer = .draining point) ∧ s.deque = []
  | .resetForRollback => ∃ point, s.producer = .drained point
  | .forceRead => (∃ point, s.producer = .reset point) ∧ s.replInfoRead = none
  | .forceWrite => ∃ point mins, s.producer = .forcing point mins
  | .undo => ∃ point last, s.producer = .undoing point ∧ s.oplog.getLast? = some last ∧
      point.gtid < last.gtid
  | .rolledBack => ∃ point, s.producer = .undoing point ∧
      ∀ last, s.oplog.getLast? = some last → last.gtid ≤ point.gtid
  | .rollbackFails => s.producer = .connecting ∨ (∃ point, s.producer = .reset point) ∨
      (∃ point mins, s.producer = .forcing point mins) ∨ ∃ point, s.producer = .undoing point
  | .take => s.applierInProgress = true ∧ s.applier = .waiting ∧ s.deque ≠ []
  | .noteApplying => s.applier = .took
  | .tryEntry attempts => s.applier = .applying ∧ ∃ t, tryFront refs attempts s = (.returned (), t)
  | .noteApplied => s.applier = .tried
  | .pop => s.applier = .noted
  | .readMins => s.replInfoRead = none ∧ ∀ point mins, s.producer ≠ .forcing point mins
  | .writeMins => s.replInfoRead.isSome
  | .keepMins => s.replInfoRead.isSome
  | .assumePrimary => s.role = .secondary ∧ s.opSync = .stopped
  | .getGTID _ => s.role = .primary
  | .done gtid _ => s.role = .primary ∧ gtid ∈ s.outstanding
  | .relinquish => s.role = .primary ∧ s.outstanding = ∅

/-- What a step does; `none` is a failed assertion. -/
def act (s : Member OID Op) : MemberEvent OID Op → Option (Member OID Op)
  | .applierStarts => some { s with applierInProgress := true }
  | .stopOpSync => some { s with opSync := .stopping }
  | .opSyncStopped => do
    s.verifySettled
    return { s with opSync := .stopped }
  | .startOpSync => do
    s.verifySettled
    return { s with opSync := .running }
  | .resume => some { s with producer := .connecting }
  | .park => some { s with producer := .parked }
  | .rollbackNotNeeded => some { s with producer := .reading }
  | .replicate entry ts lastHash => some { s with
      producer := .wrote entry ts lastHash, oplog := writeEntryToOplog s.oplog entry }
  | .enqueue =>
    match s.producer with
    | .wrote entry ts lastHash => do
      let manager ← s.gtidManager.noteGTIDAdded entry.gtid ts lastHash
      return { s with
        gtidManager := manager, deque := s.deque ++ [entry], producer := .reading }
    | _ => some s
  | .rollbackTo point => some { s with producer := .draining point }
  | .drain =>
    match s.producer with
    | .draining point => do
      s.verifySettled
      return { s with producer := .drained point }
    | _ => some s
  | .resetForRollback =>
    match s.producer with
    | .drained point => do
      let manager ← s.gtidManager.resetAfterInitialSync point.gtid point.ts point.hash
      return { s with gtidManager := manager, producer := .reset point }
    | _ => some s
  | .forceRead =>
    match s.producer with
    | .reset point => some { s with producer := .forcing point s.gtidManager.getMins }
    | _ => some s
  | .forceWrite =>
    match s.producer with
    | .forcing point mins => some { s with replInfo := mins, producer := .undoing point }
    | _ => some s
  | .undo =>
    match s.oplog.getLast? with
    | some last => some { s with oplog := purgeEntryFromOplog s.oplog last.gtid }
    | none => some s
  | .rolledBack => some { s with producer := .parked }
  | .rollbackFails => some { s with producer := .parked, role := .fatal }
  | .take => some { s with applier := .took }
  | .noteApplying =>
    match s.deque with
    | curr :: _ => do
      let manager ← s.gtidManager.noteApplyingGTID curr.gtid
      return { s with gtidManager := manager, applier := .applying }
    | [] => some s
  | .tryEntry attempts =>
    let t := (tryFront refs attempts s).2
    some { s with
      deque := t.deque
      oplog := (t.committed.filterMap ApplyTxn.entry).foldl writeEntryToOplog s.oplog
      applier := .tried }
  | .noteApplied =>
    match s.deque with
    | curr :: _ => do
      let manager ← s.gtidManager.noteGTIDApplied curr.gtid
      return { s with gtidManager := manager, applier := .noted }
    | [] => some s
  | .pop => do
    check (0 < s.deque.length)
    return { s with deque := s.deque.tail, applier := .waiting }
  | .readMins => some { s with replInfoRead := some s.gtidManager.getMins }
  | .writeMins => some { s with
      replInfo := s.replInfoRead.getD s.replInfo, replInfoRead := none }
  | .keepMins => some { s with replInfoRead := none }
  | .assumePrimary => do
    s.gtidManager.verifyReadyToBecomePrimary
    let manager ← s.gtidManager.resetManager
    return { s with gtidManager := manager, role := .primary }
  | .getGTID now => do
    let ((gtid, _, _), manager) ← s.gtidManager.getGTIDForPrimary now
    return { s with gtidManager := manager, outstanding := insert gtid s.outstanding }
  | .done gtid committed => do
    let manager ← s.gtidManager.noteLiveGTIDDone gtid
    return { s with
      gtidManager := manager
      outstanding := s.outstanding.erase gtid
      oplog :=
        match committed with
        | some payload => writeEntryToOplog s.oplog ⟨gtid, true, payload⟩
        | none => s.oplog }
  | .relinquish => some { s with role := .secondary }

variable {curr : QueuedEntry OID Op} {rest : List (QueuedEntry OID Op)}

/-- The front entry keeps its place; its operations are committed, together with the
entry, exactly when the attempts settle. -/
theorem tryFront_spec {s : Member OID Op} {t : Secondary OID Op} {attempts : Nat → Attempt}
    (front : s.deque = curr :: rest) (returned : tryFront refs attempts s = (.returned (), t)) :
    (∃ flag, t.deque = { curr with applied := flag } :: rest) ∧
      (curr.applied = false → Settles attempts → t.committed =
        [⟨curr.payload.opsToApply refs, some { curr with applied := true }⟩]) ∧
      (curr.applied = false → ¬ Settles attempts → t.committed = []) := by
  unfold tryFront at returned
  cases flag : curr.applied with
  | true =>
    have ended := Secondary.tryLoop_of_flagged refs
      (s := ⟨s.gtidManager, s.deque, none, [], [], []⟩) attempts Secondary.triesBound 0 front flag
    rw [Nat.mul_zero, returned] at ended
    cases ended
    exact ⟨⟨true, by rw [front, ← flag]⟩, by simp, by simp⟩
  | false =>
    have loop := Secondary.tryLoop_spec refs
      (s := ⟨s.gtidManager, s.deque, none, [], [], []⟩) attempts Secondary.triesBound 0
      (by decide) front flag rfl
    rw [Nat.mul_zero, returned] at loop
    rcases loop with ⟨settles, ⟨s', aborted⟩ | committed⟩ | ⟨unsettled, flag', ended⟩
    · cases aborted
    · cases committed
      exact ⟨⟨true, rfl⟩, fun _ _ => rfl, fun _ unsettled => absurd settles unsettled⟩
    · cases ended
      exact ⟨⟨flag', rfl⟩, fun _ settles => absurd settles unsettled, fun _ _ => rfl⟩

/-- One step of one thread. -/
def Step (s : Member OID Op) (event : MemberEvent OID Op) (t : Member OID Op) : Prop :=
  s.Enabled refs event ∧ s.act refs event = some t

/-! #### What the asserting steps do when they get through -/

variable {refs} {s t : Member OID Op}

theorem act_assumePrimary (result : s.act refs .assumePrimary = some t) :
    ∃ manager, s.gtidManager.verifyReadyToBecomePrimary = some () ∧
      s.gtidManager.resetManager = some manager ∧
      t = { s with gtidManager := manager, role := .primary } := by
  delta act at result
  simp only [Option.bind_eq_bind, Option.bind_eq_some_iff, Option.pure_def,
    Option.some.injEq] at result
  obtain ⟨⟨⟩, ready, manager, reset, rfl⟩ := result
  exact ⟨manager, ready, reset, rfl⟩

theorem act_getGTID {now : Nat} (result : s.act refs (.getGTID now) = some t) :
    ∃ gtid ts hash manager, s.gtidManager.getGTIDForPrimary now = some ((gtid, ts, hash), manager) ∧
      t = { s with gtidManager := manager, outstanding := insert gtid s.outstanding } := by
  delta act at result
  simp only [Option.bind_eq_bind, Option.bind_eq_some_iff, Option.pure_def,
    Option.some.injEq] at result
  obtain ⟨⟨⟨gtid, ts, hash⟩, manager⟩, got, rfl⟩ := result
  exact ⟨gtid, ts, hash, manager, got, rfl⟩

theorem act_done {gtid : GTID} {committed : Option (Payload OID Op)}
    (result : s.act refs (.done gtid committed) = some t) :
    ∃ manager oplog, s.gtidManager.noteLiveGTIDDone gtid = some manager ∧
      t = { s with gtidManager := manager, outstanding := s.outstanding.erase gtid, oplog } ∧
      (oplog = s.oplog ∨ ∃ payload, oplog = writeEntryToOplog s.oplog ⟨gtid, true, payload⟩) := by
  delta act at result
  simp only [Option.bind_eq_bind, Option.bind_eq_some_iff, Option.pure_def,
    Option.some.injEq] at result
  obtain ⟨manager, noted, rfl⟩ := result
  refine ⟨manager, _, noted, rfl, ?_⟩
  cases committed with
  | none => exact .inl rfl
  | some payload => exact .inr ⟨payload, rfl⟩

end

end Member

end TokuMX.Repl
