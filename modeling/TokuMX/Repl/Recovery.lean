import TokuMX.Repl.Handover

/-!
Crash recovery of a secondary (`_applyMissingOpsDuringInitialSync` in
`db/repl/rs_initialsync.cpp`).

After a crash a member looks for entries with an unset `a` flag only from the
persisted `minUnapplied` on. That value is a copy, written some time after it was read,
of one that an apply moves forwards and a rollback backwards.

* `RecoveryInv` — every unapplied entry of the oplog is in flight, and the persisted
  minimum is at most the manager's, but for the moment between the reset and the forced
  write of a rollback, when nothing is in flight.
* `recovery_complete` — in every run whose entries all settle, every unapplied entry is
  at or above the persisted minimum, and recovery applies each of them once and nothing
  else.
* `recovery_misses` — an entry that the applier gives up on is left behind.

Sequence numbers do not wrap around.
-/

namespace TokuMX.Repl

open TokuMX.Lib TokuMX.Oplog Member

variable {OID Op : Type}

/-! ### The minimum of the unapplied GTIDs -/

section Minimum

variable {m : GTIDManager} {at_ : ApplierAt} {queued : List GTID} {g : GTID}

theorem Following.minUnapplied_le_inc (follows : Following m at_ queued) :
    m.minUnappliedGTID ≤ m.lastUnappliedGTID.inc := by
  rw [follows.minUnapplied]
  split_ifs
  · exact (GTID.lt_inc _).le
  · exact le_rfl

theorem Following.minUnapplied_le_of_pending (follows : Following m at_ queued)
    (mem : g ∈ at_.pending queued) : m.minUnappliedGTID ≤ g :=
  follows.minUnapplied_le_inc.trans (GTID.inc_le_iff.mpr (follows.lt_of_pending mem))

theorem Following.minUnapplied_le_of_above (follows : Following m at_ queued)
    (above : m.lastLiveGTID < g) : m.minUnappliedGTID ≤ g :=
  follows.minUnapplied_le_inc.trans (GTID.inc_le_iff.mpr (follows.lastUnapplied_le.trans_lt above))

end Minimum

/-- The queued entries whose attempts are still to come. -/
def Member.untried (s : Member OID Op) : List (QueuedEntry OID Op) :=
  match s.applier with
  | .waiting | .took | .applying => s.deque
  | .tried | .noted => s.deque.tail

/-- What is still to be tried is not below the minimum. -/
theorem HandoverInv.minUnapplied_le_of_untried {s : Member OID Op} (inv : HandoverInv s)
    {e : QueuedEntry OID Op} (mem : e ∈ s.untried) : s.gtidManager.minUnappliedGTID ≤ e.gtid := by
  have role : s.role ≠ .primary := by
    intro primary
    obtain ⟨-, -, -, -, empty, waiting⟩ := inv.primary primary
    simp [untried, waiting, empty] at mem
  have follows := (inv.follows role).2
  cases at_ : s.applier with
  | waiting | took =>
    refine follows.minUnapplied_le_of_pending ?_
    simpa [at_, ApplierAt.pending, ApplierAt.begun] using
      ⟨e, by simpa [untried, at_] using mem, rfl⟩
  | applying =>
    -- the front is the minimum, and the rest is above it
    obtain ⟨-, curr, rest, front⟩ := inv.present (by simp [at_])
    have least : s.gtidManager.minUnappliedGTID = curr.gtid := by
      have first := follows.front (by simp [at_, ApplierAt.begun])
      rw [front, List.map_cons, List.head?_cons, Option.some.injEq] at first
      rw [follows.minUnapplied, first]
      simp [at_, ApplierAt.busy]
    simp only [untried, at_, front, List.mem_cons] at mem
    rcases mem with rfl | later
    · exact least.le
    · refine follows.minUnapplied_le_of_pending ?_
      simpa [at_, front, ApplierAt.pending, ApplierAt.begun] using ⟨e, later, rfl⟩
  | tried | noted =>
    obtain ⟨-, curr, rest, front⟩ := inv.present (by simp [at_])
    refine follows.minUnapplied_le_of_pending ?_
    simpa [at_, front, ApplierAt.pending, ApplierAt.begun] using
      ⟨e, by simpa [untried, at_, front] using mem, rfl⟩

/-- An entry in the oplog that has not been queued. -/
def ProducerAt.unqueued : ProducerAt OID Op → List (QueuedEntry OID Op)
  | .wrote entry _ _ => [entry]
  | _ => []

/-- The entries on their way from the oplog to the collections. -/
def Member.inFlight (s : Member OID Op) : List (QueuedEntry OID Op) :=
  s.untried ++ s.producer.unqueued

open ProducerAt

theorem HandoverInv.minUnapplied_le_of_inFlight {s : Member OID Op} (inv : HandoverInv s)
    {e : QueuedEntry OID Op} (mem : e ∈ s.inFlight) : s.gtidManager.minUnappliedGTID ≤ e.gtid := by
  rcases List.mem_append.mp mem with untried | unqueued
  · exact inv.minUnapplied_le_of_untried untried
  · cases at_ : s.producer with
    | wrote entry ts lastHash =>
      obtain rfl : e = entry := by simpa [at_, ProducerAt.unqueued] using unqueued
      obtain ⟨role, -⟩ := inv.active (by simp [at_])
      refine (inv.follows role).2.minUnapplied_le_of_above ?_
      simpa [at_, ProducerAt.Ready] using inv.ready
    | parked | connecting | reading | draining _ | drained _ | reset _ | forcing _ _ | undoing _ =>
      simp [at_, ProducerAt.unqueued] at unqueued

/-! ### Entries in flight -/

/-- Every unapplied entry of the oplog is in flight. -/
structure Accounted (oplog flying : List (QueuedEntry OID Op)) : Prop where
  sorted : OplogSorted oplog
  unflagged : ∀ e ∈ flying, e.applied = false
  unapplied : ∀ e ∈ oplog, e.applied = false → ∃ q ∈ flying, q.gtid = e.gtid

namespace Accounted

variable {oplog flying : List (QueuedEntry OID Op)} {entry : QueuedEntry OID Op}

/-- The producer commits an entry. -/
theorem replicated (accounted : Accounted oplog flying) (flag : entry.applied = false) :
    Accounted (writeEntryToOplog oplog entry) (flying ++ [entry]) := by
  refine ⟨accounted.sorted.writeEntryToOplog entry, ?_, ?_⟩
  · intro e mem
    rcases List.mem_append.mp mem with old | new
    · exact accounted.unflagged e old
    · rw [List.mem_singleton.mp new]
      exact flag
  · intro e mem unapplied
    rcases mem_writeEntryToOplog.mp mem with rfl | ⟨old, -⟩
    · exact ⟨e, by simp, rfl⟩
    · obtain ⟨q, flies, same⟩ := accounted.unapplied e old unapplied
      exact ⟨q, List.mem_append_left _ flies, same⟩

/-- An entry is written back as applied. -/
theorem wroteApplied (accounted : Accounted oplog flying) (flag : entry.applied = true) :
    Accounted (writeEntryToOplog oplog entry) flying := by
  refine ⟨accounted.sorted.writeEntryToOplog entry, accounted.unflagged, fun e mem unapplied => ?_⟩
  rcases mem_writeEntryToOplog.mp mem with rfl | ⟨old, -⟩
  · simp [flag] at unapplied
  · exact accounted.unapplied e old unapplied

/-- The applier has committed the entry at the front. -/
theorem landed (accounted : Accounted oplog (entry :: flying)) :
    Accounted (writeEntryToOplog oplog { entry with applied := true }) flying := by
  refine ⟨accounted.sorted.writeEntryToOplog _,
    fun e mem => accounted.unflagged e (List.mem_cons_of_mem _ mem), fun e mem unapplied => ?_⟩
  rcases mem_writeEntryToOplog.mp mem with rfl | ⟨old, other⟩
  · simp at unapplied
  · obtain ⟨q, flies, same⟩ := accounted.unapplied e old unapplied
    rcases List.mem_cons.mp flies with rfl | later
    · exact absurd same.symm other
    · exact ⟨q, later, same⟩

theorem purged (accounted : Accounted oplog flying) (gtid : GTID) :
    Accounted (purgeEntryFromOplog oplog gtid) flying :=
  ⟨accounted.sorted.purgeEntryFromOplog gtid, accounted.unflagged,
    fun e mem => accounted.unapplied e (mem_purgeEntryFromOplog.mp mem).1⟩

end Accounted

/-! ### What is persisted -/

section Persisted

variable {s t : Member OID Op}

/-- A rollback has reset the manager and not yet had the new minima persisted; or it
has failed, and nothing will be replicated again. -/
def Member.Unwound (s : Member OID Op) : Prop :=
  s.deque = [] ∧ (s.role = .fatal ∧ s.producer = .parked ∨
    (∃ point, s.producer = .reset point) ∨ ∃ point mins, s.producer = .forcing point mins)

/-- What is persisted, or read to be persisted, is at most the minimum of the manager. -/
structure Saved (s : Member OID Op) : Prop where
  durable : s.Unwound ∨ s.replInfo.2 ≤ s.gtidManager.minUnappliedGTID ∧
    ∀ mins, s.replInfoRead = some mins → mins.2 ≤ s.gtidManager.minUnappliedGTID
  forced : ∀ point mins, s.producer = .forcing point mins →
    mins.2 ≤ s.gtidManager.minUnappliedGTID ∧ s.replInfoRead = none

/-- A step that persists nothing. -/
theorem Saved.quiet (saved : Saved s)
    (up : s.gtidManager.minUnappliedGTID ≤ t.gtidManager.minUnappliedGTID)
    (info : t.replInfo = s.replInfo) (read : t.replInfoRead = s.replInfoRead)
    (forcing : ∀ point mins, t.producer = .forcing point mins → s.producer = .forcing point mins)
    (unwound : s.Unwound → t.Unwound) : Saved t := by
  constructor
  · rcases saved.durable with unwinding | ⟨below, held⟩
    · exact .inl (unwound unwinding)
    · refine .inr ⟨info ▸ below.trans up, fun mins reads => ?_⟩
      exact (held mins (read ▸ reads)).trans up
  · intro point mins at_
    obtain ⟨below, none⟩ := saved.forced point mins (forcing point mins at_)
    exact ⟨below.trans up, read.trans none⟩

/-- The same, from a state that is not unwinding to one that is not forcing. -/
theorem Saved.moved (saved : Saved s)
    (up : s.gtidManager.minUnappliedGTID ≤ t.gtidManager.minUnappliedGTID)
    (info : t.replInfo = s.replInfo) (read : t.replInfoRead = s.replInfoRead)
    (forcing : ∀ point mins, t.producer ≠ .forcing point mins) (running : ¬ s.Unwound) : Saved t :=
  saved.quiet up info read (fun point mins at_ => absurd at_ (forcing point mins))
    fun unwound => absurd unwound running

theorem not_unwound_of_primary (inv : HandoverInv s) (role : s.role = .primary) : ¬ s.Unwound := by
  rintro ⟨-, ⟨fatal, -⟩ | ⟨point, at_⟩ | ⟨point, mins, at_⟩⟩
  · simp [role] at fatal
  · exact (inv.active (by simp [at_])).1 role
  · exact (inv.active (by simp [at_])).1 role

end Persisted

/-! ### Steps -/

section Steps

variable [LinearOrder OID]

/-- What the steps do to the entries and the minima. -/
inductive Move (refs : List (RefsDoc OID Op)) (s : Member OID Op) :
    MemberEvent OID Op → Member OID Op → Prop where
  | quiet {event opSync applierInProgress} :
      Move refs s event { s with opSync, applierInProgress }
  | produce {event producer} : ¬ s.Unwound → s.producer.unqueued = [] → producer.unqueued = [] →
      (∀ point mins, producer ≠ .forcing point mins) → Move refs s event { s with producer }
  | replicate {event entry ts lastHash} : s.producer = .reading → entry.applied = false →
      Move refs s event { s with
        producer := .wrote entry ts lastHash, oplog := writeEntryToOplog s.oplog entry }
  | enqueue {entry ts lastHash manager} : s.producer = .wrote entry ts lastHash →
      s.gtidManager.noteGTIDAdded entry.gtid ts lastHash = some manager →
      Move refs s .enqueue { s with
        gtidManager := manager, deque := s.deque ++ [entry], producer := .reading }
  | reset {point manager} : s.producer = .drained point → Move refs s .resetForRollback
      { s with gtidManager := manager, producer := .reset point }
  | forceRead {event point} : s.producer = .reset point → s.replInfoRead = none →
      Move refs s event { s with producer := .forcing point s.gtidManager.getMins }
  | forceWrite {event point mins} : s.producer = .forcing point mins →
      Move refs s event { s with replInfo := mins, producer := .undoing point }
  | undo {event gtid} : Move refs s event { s with oplog := purgeEntryFromOplog s.oplog gtid }
  | rollbackFails {event} : s.producer.unqueued = [] →
      Move refs s event { s with producer := .parked, role := .fatal }
  | take {event} : s.applier = .waiting → Move refs s event { s with applier := .took }
  | noteApplying {curr rest manager} : s.applier = .took → s.deque = curr :: rest →
      s.gtidManager.noteApplyingGTID curr.gtid = some manager →
      Move refs s .noteApplying { s with gtidManager := manager, applier := .applying }
  | tryEntry {attempts after} : s.applier = .applying →
      tryFront refs attempts s = (.returned (), after) → Move refs s (.tryEntry attempts) { s with
        deque := after.deque
        oplog := (after.committed.filterMap ApplyTxn.entry).foldl writeEntryToOplog s.oplog
        applier := .tried }
  | noteApplied {curr rest manager} : s.applier = .tried → s.deque = curr :: rest →
      s.gtidManager.noteGTIDApplied curr.gtid = some manager →
      Move refs s .noteApplied { s with gtidManager := manager, applier := .noted }
  | pop {event} : s.applier = .noted → s.deque ≠ [] →
      Move refs s event { s with deque := s.deque.tail, applier := .waiting }
  | readMins {event} : (∀ point mins, s.producer ≠ .forcing point mins) →
      Move refs s event { s with replInfoRead := some s.gtidManager.getMins }
  | writeMins {event mins} : s.replInfoRead = some mins →
      Move refs s event { s with replInfo := mins, replInfoRead := none }
  | keepMins {event} : Move refs s event { s with replInfoRead := none }
  | assumePrimary {manager} : s.role = .secondary → s.opSync = .stopped →
      s.gtidManager.resetManager = some manager →
      Move refs s .assumePrimary { s with gtidManager := manager, role := .primary }
  | primaryCall {event call manager outstanding oplog} : event ≠ .resetForRollback →
      s.role = .primary →
      PrimaryStep ⟨s.gtidManager, s.outstanding⟩ call ⟨manager, outstanding⟩ →
      (oplog = s.oplog ∨ ∃ gtid payload,
        oplog = writeEntryToOplog s.oplog ⟨gtid, true, payload⟩) →
      Move refs s event { s with gtidManager := manager, outstanding, oplog }
  | relinquish : s.role = .primary → Move refs s .relinquish { s with role := .secondary }

variable {refs : List (RefsDoc OID Op)} {s t : Member OID Op} {event : MemberEvent OID Op}

/-- A primary's unapplied minimum follows the live one. -/
def Member.MinsOrdered (s : Member OID Op) : Prop :=
  s.role = .primary → s.gtidManager.minUnappliedGTID ≤ s.gtidManager.minLiveGTID

/-- What the calls of a primary do to the two minima. -/
theorem primary_mins_step {p q : PrimaryState} {call : PrimaryEvent} (inv : PrimaryInv p)
    (step : PrimaryStep p call q) (ordered : p.mgr.minUnappliedGTID ≤ p.mgr.minLiveGTID) :
    p.mgr.minUnappliedGTID ≤ q.mgr.minUnappliedGTID ∧
      q.mgr.minUnappliedGTID ≤ q.mgr.minLiveGTID := by
  have up := ordered.trans (minLive_le_step inv step)
  have follows : q.mgr.minUnappliedGTID = p.mgr.minUnappliedGTID ∨
      q.mgr.minUnappliedGTID = q.mgr.minLiveGTID := by
    cases step with
    | get now got =>
      simp only [GTIDManager.getGTIDForPrimary, Option.bind_eq_bind, check_bind_eq_some,
        Option.pure_def, Option.some.injEq, Prod.mk.injEq] at got
      obtain ⟨-, -, rfl⟩ := got
      exact .inl rfl
    | done gtid held noted =>
      simp only [GTIDManager.noteLiveGTIDDone, Option.bind_eq_bind, check_bind_eq_some,
        Option.pure_def] at noted
      obtain ⟨-, -, noted⟩ := noted
      split_ifs at noted
      · cases noted
        exact .inr rfl
      · cases noted
        exact .inl rfl
    | read => exact .inl rfl
  rcases follows with same | same
  · rw [same]
    exact ⟨le_rfl, up⟩
  · rw [same]
    exact ⟨up, le_rfl⟩

theorem Member.Step.move (inv : HandoverInv s) (step : s.Step refs event t) :
    Move refs s event t := by
  obtain ⟨enabled, result⟩ := step
  cases event with
  | applierStarts | stopOpSync =>
    cases result
    exact .quiet
  | opSyncStopped | startOpSync =>
    obtain ⟨-, -, same⟩ := Option.bind_eq_some_iff.mp result
    cases same
    exact .quiet
  | resume =>
    obtain ⟨parked, -, role⟩ := enabled
    cases result
    exact .produce (by simp [Unwound, parked, role]) (by rw [parked]; rfl) rfl (by simp)
  | park =>
    cases result
    rcases enabled with at_ | at_ | ⟨point, at_⟩ <;>
      exact .produce (by simp [Unwound, at_]) (by rw [at_]; rfl) rfl (by simp)
  | rollbackNotNeeded =>
    have at_ : s.producer = .connecting := enabled
    cases result
    exact .produce (by simp [Unwound, at_]) (by rw [at_]; rfl) rfl (by simp)
  | rollbackTo point =>
    cases result
    exact .produce (by simp [Unwound, enabled.1]) (by rw [enabled.1]; rfl) rfl (by simp)
  | drain =>
    obtain ⟨⟨point, at_⟩, -⟩ := enabled
    simp only [act, at_, Option.bind_eq_bind, Option.bind_eq_some_iff] at result
    obtain ⟨-, -, same⟩ := result
    cases same
    exact .produce (by simp [Unwound, at_]) (by rw [at_]; rfl) rfl (by simp)
  | rolledBack =>
    obtain ⟨point, at_, -⟩ := enabled
    cases result
    exact .produce (by simp [Unwound, at_]) (by rw [at_]; rfl) rfl (by simp)
  | rollbackFails =>
    cases result
    rcases enabled with at_ | ⟨point, at_⟩ | ⟨point, mins, at_⟩ | ⟨point, at_⟩ <;>
      exact .rollbackFails (by rw [at_]; rfl)
  | replicate entry ts lastHash =>
    cases result
    exact .replicate enabled.1 enabled.2.1
  | enqueue =>
    obtain ⟨entry, ts, lastHash, wrote⟩ := enabled
    simp only [act, wrote, Option.bind_eq_bind, Option.bind_eq_some_iff] at result
    obtain ⟨manager, added, same⟩ := result
    cases same
    exact .enqueue wrote added
  | resetForRollback =>
    obtain ⟨point, drained⟩ := enabled
    simp only [act, drained, Option.bind_eq_bind, Option.bind_eq_some_iff] at result
    obtain ⟨manager, -, same⟩ := result
    cases same
    exact .reset drained
  | forceRead =>
    obtain ⟨⟨point, reset⟩, none⟩ := enabled
    simp only [act, reset, Option.some.injEq] at result
    exact result ▸ .forceRead reset none
  | forceWrite =>
    obtain ⟨point, mins, forcing⟩ := enabled
    simp only [act, forcing, Option.some.injEq] at result
    exact result ▸ .forceWrite forcing
  | undo =>
    obtain ⟨point, last, -, found, -⟩ := enabled
    simp only [act, found, Option.some.injEq] at result
    exact result ▸ .undo
  | take =>
    cases result
    exact .take enabled.2.1
  | noteApplying =>
    have took : s.applier = .took := enabled
    obtain ⟨-, curr, rest, front⟩ := inv.present (by simp [took])
    simp only [act, front, Option.bind_eq_bind, Option.bind_eq_some_iff] at result
    obtain ⟨manager, noted, same⟩ := result
    cases same
    have move : Move refs s .noteApplying _ := .noteApplying took front noted
    rwa [front] at move
  | tryEntry attempts =>
    obtain ⟨applying, after, returned⟩ := enabled
    cases result
    rw [returned]
    exact .tryEntry applying returned
  | noteApplied =>
    have tried : s.applier = .tried := enabled
    obtain ⟨-, curr, rest, front⟩ := inv.present (by simp [tried])
    simp only [act, front, Option.bind_eq_bind, Option.bind_eq_some_iff] at result
    obtain ⟨manager, noted, same⟩ := result
    cases same
    have move : Move refs s .noteApplied _ := .noteApplied tried front noted
    rwa [front] at move
  | pop =>
    simp only [act, Option.bind_eq_bind, check_bind_eq_some] at result
    obtain ⟨some, same⟩ := result
    cases same
    exact .pop enabled (List.ne_nil_of_length_pos some)
  | readMins =>
    cases result
    exact .readMins enabled.2
  | writeMins =>
    obtain ⟨mins, reads⟩ := Option.isSome_iff_exists.mp enabled
    cases result
    rw [reads]
    exact .writeMins reads
  | keepMins =>
    cases result
    exact .keepMins
  | assumePrimary =>
    obtain ⟨manager, -, reset, rfl⟩ := act_assumePrimary result
    exact .assumePrimary enabled.1 enabled.2 reset
  | getGTID now =>
    obtain ⟨gtid, ts, hash, manager, got, rfl⟩ := act_getGTID result
    exact .primaryCall (by simp) enabled (.get now got) (.inl rfl)
  | done gtid committed =>
    obtain ⟨manager, oplog, noted, rfl, wrote⟩ := act_done result
    exact .primaryCall (by simp) enabled.1 (.done gtid enabled.2 noted)
      (wrote.imp_right fun wrote => ⟨gtid, wrote⟩)
  | relinquish =>
    cases result
    exact .relinquish enabled.1

/-- Apart from the reset in a rollback, no step lowers the unapplied minimum. -/
theorem minUnapplied_le_step (inv : HandoverInv s) (ordered : s.MinsOrdered)
    (move : Move refs s event t) :
    (event ≠ .resetForRollback →
      s.gtidManager.minUnappliedGTID ≤ t.gtidManager.minUnappliedGTID) ∧ t.MinsOrdered := by
  cases move with
  | quiet | produce | replicate | forceRead | forceWrite | undo | take | tryEntry | pop | readMins
  | writeMins | keepMins => exact ⟨fun _ => le_rfl, ordered⟩
  | rollbackFails | relinquish => exact ⟨fun _ => le_rfl, fun primary => by cases primary⟩
  | reset drained =>
    obtain ⟨role, -⟩ := inv.active (by simp [drained])
    exact ⟨absurd rfl, fun primary => absurd primary role⟩
  | @enqueue entry ts lastHash _ wrote added =>
    have above : s.gtidManager.lastLiveGTID < entry.gtid := by
      simpa [wrote, ProducerAt.Ready] using inv.ready
    obtain ⟨role, -⟩ := inv.active (by simp [wrote])
    obtain ⟨manager', added', -, same, -⟩ := (inv.follows role).2.added above ts lastHash
    cases added.symm.trans added'
    exact ⟨fun _ => same.ge, fun primary => absurd primary role⟩
  | @noteApplying curr _ _ took front noted =>
    obtain ⟨role, -⟩ := inv.present (by simp [took])
    have least := inv.minUnapplied_le_of_untried (e := curr) (by simp [untried, took, front])
    have follows := (inv.follows role).2
    rw [took, front, List.map_cons] at follows
    obtain ⟨manager', noted', -, -, min⟩ := follows.applying
    cases noted.symm.trans noted'
    exact ⟨fun _ => min ▸ least, fun primary => absurd primary role⟩
  | noteApplied tried front noted =>
    obtain ⟨role, -⟩ := inv.present (by simp [tried])
    have follows := (inv.follows role).2
    rw [tried, front, List.map_cons] at follows
    obtain ⟨manager', noted', -, -, up⟩ := follows.noted
    cases noted.symm.trans noted'
    exact ⟨fun _ => up, fun primary => absurd primary role⟩
  | assumePrimary role stopped reset =>
    obtain ⟨none, follows⟩ := inv.follows (by simp [role])
    obtain ⟨-, min, -⟩ := inv.settled (inv.stopped stopped).2 none
    simp only [GTIDManager.resetManager, Option.bind_eq_bind, check_bind_eq_some,
      Option.pure_def, Option.some.injEq] at reset
    obtain ⟨-, rfl⟩ := reset
    exact ⟨fun _ => (min.trans follows.minLive).le, fun _ => le_rfl⟩
  | primaryCall _ role step =>
    obtain ⟨up, ordered'⟩ := primary_mins_step (inv.primary role).1 step (ordered role)
    exact ⟨fun _ => up, fun _ => ordered'⟩

/-- A step accounts for every entry, if the attempts it makes settle. -/
theorem accounted_step (inv : HandoverInv s) (accounted : Accounted s.oplog s.inFlight)
    (move : Move refs s event t)
    (settles : ∀ attempts, event = .tryEntry attempts → Settles attempts) :
    Accounted t.oplog t.inFlight := by
  cases move with
  | quiet | readMins | writeMins | keepMins | assumePrimary | relinquish => exact accounted
  | undo => exact accounted.purged _
  | produce _ before after => simpa [inFlight, untried, before, after] using accounted
  | rollbackFails before =>
    have after : unqueued (.parked : ProducerAt OID Op) = [] := rfl
    simpa [inFlight, untried, before, after] using accounted
  | reset at_ | forceRead at_ | forceWrite at_ =>
    simpa [inFlight, untried, at_, unqueued] using accounted
  | replicate reading flag =>
    simpa [inFlight, untried, reading, unqueued] using accounted.replicated flag
  | @enqueue entry _ _ manager wrote =>
    have same : untried { s with
        gtidManager := manager, deque := s.deque ++ [entry], producer := .reading } =
        s.untried ++ [entry] := by
      cases at_ : s.applier with
      | waiting | took | applying => simp [untried, at_]
      | tried | noted =>
        obtain ⟨-, curr, rest, front⟩ := inv.present (by simp [at_])
        simp [untried, at_, front]
    rw [inFlight, wrote] at accounted
    rw [inFlight, same]
    simpa [unqueued] using accounted
  | take at_ | noteApplying at_ | noteApplied at_ | pop at_ =>
    simpa [inFlight, untried, at_] using accounted
  | @tryEntry attempts _ applying returned =>
    obtain ⟨-, curr, rest, front⟩ := inv.present (by simp [applying])
    have flying : s.inFlight = curr :: (rest ++ s.producer.unqueued) := by
      simp [inFlight, untried, applying, front]
    rw [flying] at accounted
    obtain ⟨⟨flag, kept⟩, committed, -⟩ := tryFront_spec refs front returned
    have committed := committed (accounted.unflagged curr List.mem_cons_self) (settles attempts rfl)
    simpa [inFlight, untried, kept, committed] using accounted.landed
  | primaryCall _ _ _ wrote =>
    rcases wrote with rfl | ⟨gtid, payload, rfl⟩
    · exact accounted
    · exact accounted.wroteApplied rfl

theorem saved_step (inv : HandoverInv s) (ordered : s.MinsOrdered) (saved : Saved s)
    (move : Move refs s event t) : Saved t := by
  obtain ⟨up, -⟩ := minUnapplied_le_step inv ordered move
  cases move with
  | quiet | undo | take => exact ⟨saved.durable, saved.forced⟩
  | produce running _ _ free => exact saved.moved le_rfl rfl rfl free running
  | replicate reading => exact saved.moved le_rfl rfl rfl (by simp) (by simp [Unwound, reading])
  | enqueue wrote => exact saved.moved (up (by simp)) rfl rfl (by simp) (by simp [Unwound, wrote])
  | @reset point _ drained =>
    have empty : s.deque = [] := by simpa [drained, ProducerAt.Ready] using inv.ready
    exact ⟨.inl ⟨empty, .inr (.inl ⟨point, rfl⟩)⟩, by simp⟩
  | @forceRead _ point reset none =>
    have empty : s.deque = [] := by simpa [reset, ProducerAt.Ready] using inv.ready
    refine ⟨.inl ⟨empty, .inr (.inr ⟨point, _, rfl⟩)⟩, ?_⟩
    rintro _ _ ⟨⟩
    exact ⟨le_rfl, none⟩
  | forceWrite forcing =>
    obtain ⟨below, none⟩ := saved.forced _ _ forcing
    exact ⟨.inr ⟨below, by simp [none]⟩, by simp⟩
  | rollbackFails =>
    rcases saved.durable with unwound | durable
    · exact ⟨.inl ⟨unwound.1, .inl ⟨rfl, rfl⟩⟩, by simp⟩
    · exact ⟨.inr durable, by simp⟩
  | readMins free =>
    refine ⟨?_, fun point mins at_ => absurd at_ (free point mins)⟩
    rcases saved.durable with unwound | ⟨below, -⟩
    · exact .inl unwound
    · refine .inr ⟨below, ?_⟩
      rintro _ ⟨⟩
      exact le_rfl
  | writeMins reads =>
    refine ⟨?_, fun point mins' at_ => by simp [(saved.forced point mins' at_).2] at reads⟩
    rcases saved.durable with unwound | ⟨-, held⟩
    · exact .inl unwound
    · exact .inr ⟨held _ reads, by simp⟩
  | keepMins =>
    refine ⟨?_, fun point mins at_ => ⟨(saved.forced point mins at_).1, rfl⟩⟩
    rcases saved.durable with unwound | ⟨below, -⟩
    · exact .inl unwound
    · exact .inr ⟨below, by simp⟩
  | noteApplying | noteApplied =>
    exact saved.quiet (up (by simp)) rfl rfl (fun _ _ at_ => at_) id
  | tryEntry applying =>
    obtain ⟨-, curr, rest, front⟩ := inv.present (by simp [applying])
    exact saved.quiet le_rfl rfl rfl (fun _ _ at_ => at_)
      fun unwound => absurd unwound.1 (by simp [front])
  | pop _ nonempty =>
    exact saved.quiet le_rfl rfl rfl (fun _ _ at_ => at_) fun unwound => absurd unwound.1 nonempty
  | assumePrimary role stopped =>
    obtain ⟨parked, -⟩ := inv.stopped stopped
    exact saved.moved (up (by simp)) rfl rfl (by simp [parked]) (by simp [Unwound, parked, role])
  | primaryCall forwards role =>
    exact saved.quiet (up forwards) rfl rfl (fun _ _ at_ => at_)
      fun unwound => absurd unwound (not_unwound_of_primary inv role)
  | relinquish role =>
    exact saved.quiet le_rfl rfl rfl (fun _ _ at_ => at_)
      fun unwound => absurd unwound (not_unwound_of_primary inv role)

/-! ### Recovery -/

/-- The loop of `_applyMissingOpsDuringInitialSync`, over the entries it has collected;
`attempts k` is what goes wrong with the `k`-th of them. -/
def applyMissing (refs : List (RefsDoc OID Op)) (attempts : Nat → Attempt) :
    Nat → Nat → Exec (Secondary OID Op) ApplyError Unit
  | 0, _ => pure ()
  | rounds + 1, k => do
    let s ← Exec.get
    match s.deque with
    | [] => pure ()
    | _ :: _ => do
      Secondary.applyTransactionFromOplog refs (attempts k)
      Exec.modify fun s => { s with deque := s.deque.tail }
      applyMissing refs attempts rounds (k + 1)

/-- `_applyMissingOpsDuringInitialSync`: a cursor over the oplog from the persisted
minimum on collects what is not applied. -/
def applyMissingOpsDuringInitialSync (refs : List (RefsDoc OID Op)) (attempts : Nat → Attempt)
    (minUnapplied : GTID) (oplog : List (QueuedEntry OID Op)) (manager : GTIDManager) :
    Outcome ApplyError Unit × Secondary OID Op :=
  let unapplied := (oplog.filter fun e => minUnapplied ≤ e.gtid).filter fun e => !e.applied
  applyMissing refs attempts unapplied.length 0 ⟨manager, unapplied, none, [], [], []⟩

/-- Nothing goes wrong in the attempt. -/
def Attempt.undisturbed (attempt : Attempt) : Bool :=
  attempt.clean && !attempt.commit .storageCommit

/-- The transaction that applies an entry and writes it back. -/
def appliedTxn (refs : List (RefsDoc OID Op)) (e : QueuedEntry OID Op) : ApplyTxn OID Op :=
  ⟨e.payload.opsToApply refs, some { e with applied := true }⟩

theorem attempt_of_undisturbed (refs : List (RefsDoc OID Op)) {u : Secondary OID Op}
    {attempt : Attempt} {curr : QueuedEntry OID Op} {rest : List (QueuedEntry OID Op)}
    (front : u.deque = curr :: rest) (flag : curr.applied = false) (idle : u.txn = none)
      (undisturbed : attempt.undisturbed) :
    Secondary.applyTransactionFromOplog refs attempt u = (.returned (), { u with
      deque := { curr with applied := true } :: rest
      committed := u.committed ++ [appliedTxn refs curr] }) := by
  simp only [Attempt.undisturbed, Attempt.clean, Bool.and_eq_true, Option.isNone_iff_eq_none,
    Bool.not_eq_true'] at undisturbed
  obtain ⟨⟨⟨past, write⟩, cursors⟩, storage⟩ := undisturbed
  simp [Secondary.applyTransactionFromOplog, front, flag, past, write,
    Secondary.commitTransaction_spec, cursors, storage, appliedTxn, ← idle]

theorem applyMissing_spec (refs : List (RefsDoc OID Op)) {attempts : Nat → Attempt}
    (undisturbed : ∀ k, (attempts k).undisturbed) {u : Secondary OID Op} (rounds k : Nat)
      (enough : u.deque.length ≤ rounds)
    (unflagged : ∀ e ∈ u.deque, e.applied = false) (idle : u.txn = none) :
    applyMissing refs attempts rounds k u = (.returned (), { u with
      deque := [], committed := u.committed ++ u.deque.map (appliedTxn refs) }) := by
  induction rounds generalizing u k with
  | zero =>
    have empty : u.deque = [] := List.eq_nil_of_length_eq_zero (Nat.le_zero.mp enough)
    obtain ⟨manager, deque, txn, committed, noted, popped⟩ := u
    obtain rfl : deque = [] := empty
    simp [applyMissing]
  | succ rounds ih =>
    cases front : u.deque with
    | nil =>
      obtain ⟨manager, deque, txn, committed, noted, popped⟩ := u
      obtain rfl : deque = [] := front
      simp [applyMissing]
    | cons curr rest =>
      have flag := unflagged curr (by simp [front])
      have attempt := attempt_of_undisturbed refs front flag idle (undisturbed k)
      have shorter : rest.length ≤ rounds := by simpa [front] using enough
      have later : ∀ e ∈ rest, e.applied = false := fun e mem => unflagged e (by simp [front, mem])
      have next := ih (u := { u with
        deque := rest, committed := u.committed ++ [appliedTxn refs curr] }) (k + 1) shorter
        later idle
      simp [applyMissing, front, attempt, next]

end Steps

/-! ### Runs -/

/-- The invariants that hold along a run whose entries settle. -/
structure RecoveryInv (s : Member OID Op) : Prop where
  handover : HandoverInv s
  ordered : s.MinsOrdered
  accounted : Accounted s.oplog s.inFlight
  saved : Saved s

theorem RecoveryInv.minUnapplied_le {s : Member OID Op} (inv : RecoveryInv s)
    {e : QueuedEntry OID Op} (mem : e ∈ s.oplog) (unapplied : e.applied = false) :
    s.replInfo.2 ≤ e.gtid := by
  obtain ⟨q, flies, same⟩ := inv.accounted.unapplied e mem unapplied
  rcases inv.saved.durable with ⟨empty, unwinding⟩ | ⟨below, -⟩
  · -- nothing is in flight while a rollback unwinds
    have untried : s.untried = [] := by
      cases at_ : s.applier <;> simp [untried, at_, empty]
    have unqueued : s.producer.unqueued = [] := by
      rcases unwinding with ⟨-, at_⟩ | ⟨point, at_⟩ | ⟨point, mins, at_⟩ <;>
        simp [at_, unqueued]
    simp [inFlight, untried, unqueued] at flies
  · rw [← same]
    exact below.trans (inv.handover.minUnapplied_le_of_inFlight flies)

theorem recoveryInv_step [LinearOrder OID] {refs : List (RefsDoc OID Op)} {s t : Member OID Op}
    {event : MemberEvent OID Op} (inv : RecoveryInv s) (step : s.Step refs event t)
    (settles : ∀ attempts, event = .tryEntry attempts → Settles attempts) : RecoveryInv t := by
  have move := step.move inv.handover
  exact ⟨handoverInv_step inv.handover step,
    (minUnapplied_le_step inv.handover inv.ordered move).2,
    accounted_step inv.handover inv.accounted move settles,
    saved_step inv.handover inv.ordered inv.saved move⟩

/-- A secondary starts with everything in its oplog applied and with a persisted
minimum of this epoch. In every run whose entries all settle, in every state of it:
every unapplied entry is at or above the persisted minimum. So when recovery runs there,
and nothing goes wrong in it, it applies exactly the unapplied entries, in the order of
their GTIDs, which are all different. -/
theorem recovery_complete [LinearOrder OID] {refs : List (RefsDoc OID Op)} {manager : GTIDManager}
    (started : Started manager) {role : Role} {oplog : List (QueuedEntry OID Op)}
    {replInfo : GTID × GTID} (sorted : OplogSorted oplog) (applied : ∀ e ∈ oplog, e.applied = true)
    (sameEpoch : replInfo.2 ≤ manager.minUnappliedGTID) {events : List (MemberEvent OID Op)}
    {s : Member OID Op} (run : Run (Member.Step refs) (.start role manager oplog replInfo) events s)
    (settles : ∀ attempts, .tryEntry attempts ∈ events → Settles attempts) :
    (∀ e ∈ s.oplog, e.applied = false → s.replInfo.2 ≤ e.gtid) ∧ OplogSorted s.oplog ∧
    ∀ (attempts : Nat → Attempt) (fresh : GTIDManager), (∀ k, (attempts k).undisturbed) →
      ∃ after,
        applyMissingOpsDuringInitialSync refs attempts s.replInfo.2 s.oplog fresh =
          (.returned (), after) ∧
        after.committed = (s.oplog.filter fun e => !e.applied).map (appliedTxn refs) := by
  obtain ⟨-, -, -, minLive, minUnapplied⟩ := started.fields
  have start : RecoveryInv (Member.start role manager oplog replInfo) := by
    refine ⟨handoverInv_start started role oplog replInfo, fun _ => minUnapplied.le,
      ⟨sorted, ?_, ?_⟩, .inr ⟨sameEpoch, by simp [Member.start]⟩, by simp [Member.start]⟩
    · simp [Member.start, Member.inFlight, Member.untried, ProducerAt.unqueued]
    · intro e mem unapplied
      simp [applied e mem] at unapplied
  have inv : RecoveryInv s := by
    refine run.history (P := fun past s =>
      (∀ attempts, .tryEntry attempts ∈ past → Settles attempts) → RecoveryInv s)
      (fun _ => start) ?_ settles
    intro past a event b _ before step settled
    refine recoveryInv_step (before fun attempts mem => ?_) step fun attempts is => ?_
    · exact settled attempts (List.mem_append_left _ mem)
    · exact settled attempts (by simp [is])
  refine ⟨fun e => inv.minUnapplied_le, inv.accounted.sorted, fun attempts fresh undisturbed => ?_⟩
  have collected : (s.oplog.filter fun e => s.replInfo.2 ≤ e.gtid).filter (fun e => !e.applied) =
      s.oplog.filter fun e => !e.applied := by
    rw [List.filter_filter]
    refine List.filter_congr fun e mem => ?_
    cases flag : e.applied with
    | true => rfl
    | false => simpa using inv.minUnapplied_le mem flag
  have spec := applyMissing_spec refs undisturbed
    (u := ⟨fresh, s.oplog.filter fun e => !e.applied, none, [], [], []⟩)
    (s.oplog.filter fun e => !e.applied).length 0 le_rfl (by simp) rfl
  exact ⟨_, by rw [applyMissingOpsDuringInitialSync, collected, spec], by simp⟩

/-- Another entry, after `nextEntry`. -/
def laterEntry : QueuedEntry Nat Nat := ⟨⟨1, 7⟩, false, .ops [30]⟩

/-- A secondary that has applied `nextEntry` and has just replicated `laterEntry`. -/
def crashedMember : Member Nat Nat where
  role := .secondary
  gtidManager := { replicatedMember.gtidManager with
    lastUnappliedGTID := ⟨1, 6⟩, minUnappliedGTID := ⟨1, 7⟩ }
  outstanding := ∅
  opSync := .running
  producer := .wrote laterEntry 9 10
  deque := []
  applierInProgress := true
  applier := .waiting
  oplog := [{ nextEntry with applied := true }, laterEntry]
  replInfo := (⟨1, 6⟩, ⟨1, 6⟩)
  replInfoRead := none

theorem crashedMember_run : Run (Member.Step []) replicatedMember
    [.take, .noteApplying, .tryEntry fun _ => nothingThrows, .noteApplied, .pop,
      .replicate laterEntry 9 10] crashedMember :=
  .cons ⟨⟨rfl, rfl, by simp [replicatedMember]⟩, rfl⟩ <| .cons ⟨rfl, rfl⟩ <|
    .cons ⟨⟨rfl, _, rfl⟩, rfl⟩ <| .cons ⟨rfl, rfl⟩ <| .cons ⟨rfl, rfl⟩ <|
    .cons ⟨⟨rfl, rfl, by decide⟩, rfl⟩ <| .nil _

/-- A crash with one entry applied and one just replicated, both at or above the
persisted minimum: only the second one is applied. -/
theorem recovery_complete_crash :
    Run (Member.Step []) (.start .secondary settledManager [] (⟨1, 6⟩, ⟨1, 6⟩))
        ([.applierStarts, .startOpSync, .resume, .rollbackNotNeeded, .replicate nextEntry 7 8,
            .enqueue] ++
          [.take, .noteApplying, .tryEntry fun _ => nothingThrows, .noteApplied, .pop,
            .replicate laterEntry 9 10]) crashedMember ∧
      ∃ after, applyMissingOpsDuringInitialSync [] (fun _ => nothingThrows) crashedMember.replInfo.2
          crashedMember.oplog settledManager = (.returned (), after) ∧
        after.committed = [appliedTxn [] laterEntry] := by
  have reset : settledManager.resetAfterInitialSync ⟨1, 5⟩ 100 17 = some settledManager := rfl
  have started : Started settledManager := .synced _ _ _ reset
  have run := replicatedMember_run.append crashedMember_run
  have settles : Settles fun _ => nothingThrows :=
    ⟨0, le_rfl, by omega, fun j _ before => absurd before (Nat.not_lt_zero j), rfl⟩
  obtain ⟨-, -, recovers⟩ := recovery_complete started .nil (by simp) le_rfl run
    fun attempts mem => by
      obtain rfl : attempts = fun _ => nothingThrows := by simpa using mem
      exact settles
  exact ⟨run, recovers (fun _ => nothingThrows) settledManager fun _ => rfl⟩

/-- A secondary that has given up on `nextEntry` and has persisted its minimum since. -/
def missedMember : Member Nat Nat where
  role := .secondary
  gtidManager := { replicatedMember.gtidManager with
    lastUnappliedGTID := ⟨1, 6⟩, minUnappliedGTID := ⟨1, 7⟩ }
  outstanding := ∅
  opSync := .running
  producer := .reading
  deque := []
  applierInProgress := true
  applier := .waiting
  oplog := [nextEntry]
  replInfo := (⟨1, 7⟩, ⟨1, 7⟩)
  replInfoRead := none

theorem missedMember_run : Run (Member.Step []) replicatedMember
    [.take, .noteApplying, .tryEntry fun _ => { nothingThrows with opsThrow := some 0 },
      .noteApplied, .pop, .readMins, .writeMins] missedMember :=
  .cons ⟨⟨rfl, rfl, by simp [replicatedMember]⟩, rfl⟩ <| .cons ⟨rfl, rfl⟩ <|
    .cons ⟨⟨rfl, _, rfl⟩, rfl⟩ <| .cons ⟨rfl, rfl⟩ <| .cons ⟨rfl, rfl⟩ <|
    .cons ⟨⟨rfl, by simp [replicatedMember]⟩, rfl⟩ <| .cons ⟨rfl, rfl⟩ <| .nil _

/-- Every attempt at an entry throws. The applier notes it applied all the same, the
minimum moves past it, and once that is persisted recovery does not see the entry. -/
theorem recovery_misses :
    Run (Member.Step []) (.start .secondary settledManager [] (⟨1, 6⟩, ⟨1, 6⟩))
        ([.applierStarts, .startOpSync, .resume, .rollbackNotNeeded, .replicate nextEntry 7 8,
            .enqueue] ++
          [.take, .noteApplying, .tryEntry fun _ => { nothingThrows with opsThrow := some 0 },
            .noteApplied, .pop, .readMins, .writeMins]) missedMember ∧
      nextEntry ∈ missedMember.oplog ∧ nextEntry.applied = false ∧
      ¬ missedMember.replInfo.2 ≤ nextEntry.gtid ∧
      (applyMissingOpsDuringInitialSync [] (fun _ => nothingThrows) missedMember.replInfo.2
        missedMember.oplog settledManager).2.committed = [] :=
  ⟨replicatedMember_run.append missedMember_run, List.mem_singleton_self _, rfl, by decide, rfl⟩

end TokuMX.Repl
