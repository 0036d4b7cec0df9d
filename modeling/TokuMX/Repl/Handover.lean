import TokuMX.Repl.Member

/-!
Handing replication over: the manager of a member is settled whenever nothing is in
flight.

Four fields of the GTID manager are moved by the producer, by the applier and by
changes of role, and both `verifySettled` and `verifyReadyToBecomePrimary` assert how
they stand to each other.

* `handover_settled` — in every run, whenever the queue is empty and no GTID is
  outstanding, both assertions hold; and a step that asserts something succeeds, unless
  it is a stop of a primary with GTIDs outstanding.

Sequence numbers do not wrap around.
-/

namespace TokuMX.Repl

open TokuMX.Lib TokuMX.Oplog Member GTIDManager

variable {OID Op : Type}

namespace ApplierAt

/-- Between `noteApplyingGTID` and `noteGTIDApplied`. -/
def busy : ApplierAt → Bool
  | .applying | .tried => true
  | .waiting | .took | .noted => false

/-- The front of the queue has been given to `noteApplyingGTID`. -/
def begun : ApplierAt → Bool
  | .applying | .tried | .noted => true
  | .waiting | .took => false

/-- The queued GTIDs that the applier has not begun with. -/
def pending (at_ : ApplierAt) (queued : List GTID) : List GTID :=
  if at_.begun then queued.tail else queued

end ApplierAt

/-! ### The manager of a secondary -/

/-- What the fields of a secondary's manager mean. -/
structure Following (m : GTIDManager) (at_ : ApplierAt) (queued : List GTID) : Prop where
  live : m.liveGTIDs = ∅
  minLive : m.minLiveGTID = m.lastLiveGTID.inc
  unapplied : m.unappliedGTIDs = if at_.busy then {m.lastUnappliedGTID} else ∅
  minUnapplied : m.minUnappliedGTID =
    if at_.busy then m.lastUnappliedGTID else m.lastUnappliedGTID.inc
  front : at_.begun → queued.head? = some m.lastUnappliedGTID
  present : at_ ≠ .waiting → queued ≠ []
  increasing : (m.lastUnappliedGTID :: at_.pending queued).Pairwise (· < ·)
  last : (m.lastUnappliedGTID :: at_.pending queued).getLast? = some m.lastLiveGTID

open ApplierAt

namespace Following

variable {m m' : GTIDManager} {at_ : ApplierAt} {queued : List GTID} {g : GTID}

theorem le_lastLive (follows : Following m at_ queued)
    (mem : g ∈ m.lastUnappliedGTID :: at_.pending queued) : g ≤ m.lastLiveGTID := by
  obtain ⟨before, split⟩ := List.getLast?_eq_some_iff.mp follows.last
  have increasing := follows.increasing
  rw [split] at mem increasing
  rcases List.mem_append.mp mem with old | new
  · exact ((List.pairwise_append.mp increasing).2.2 g old _ (List.mem_singleton_self _)).le
  · exact (List.mem_singleton.mp new).le

theorem lastUnapplied_le (follows : Following m at_ queued) :
    m.lastUnappliedGTID ≤ m.lastLiveGTID :=
  follows.le_lastLive List.mem_cons_self

theorem lt_of_pending (follows : Following m at_ queued) (mem : g ∈ at_.pending queued) :
    m.lastUnappliedGTID < g :=
  (List.pairwise_cons.mp follows.increasing).1 g mem

/-- With an empty queue the fields stand as both assertions want them. -/
theorem settled (follows : Following m at_ []) :
    m.lastUnappliedGTID = m.lastLiveGTID ∧ m.minUnappliedGTID = m.minLiveGTID ∧
      m.lastLiveGTID < m.minLiveGTID := by
  have waiting : at_ = .waiting := by
    by_contra ne
    exact follows.present ne rfl
  subst waiting
  have last : m.lastUnappliedGTID = m.lastLiveGTID := by
    simpa [pending, begun] using follows.last
  have minUnapplied : m.minUnappliedGTID = m.lastUnappliedGTID.inc := by
    simpa [busy] using follows.minUnapplied
  refine ⟨last, ?_, ?_⟩
  · rw [minUnapplied, follows.minLive, last]
  · rw [follows.minLive]
    exact GTID.lt_inc _

theorem of_reset (live : m.liveGTIDs = ∅) (unapplied : m.unappliedGTIDs = ∅)
    (last : m.lastUnappliedGTID = m.lastLiveGTID) (minLive : m.minLiveGTID = m.lastLiveGTID.inc)
    (minUnapplied : m.minUnappliedGTID = m.minLiveGTID) : Following m .waiting [] := by
  refine ⟨live, minLive, by simpa [busy] using unapplied, ?_, ?_, ?_, ?_, ?_⟩
  · simp [busy, minUnapplied, minLive, last]
  · simp [begun]
  · simp
  · simp [pending]
  · simp [pending, last]

/-- `noteGTIDAdded` and the push, which the producer does under one mutex. -/
theorem added (follows : Following m at_ queued) (above : m.lastLiveGTID < g) (ts lastHash : Nat) :
    ∃ m', m.noteGTIDAdded g ts lastHash = some m' ∧ Following m' at_ (queued ++ [g]) ∧
      m'.minUnappliedGTID = m.minUnappliedGTID ∧ m'.lastLiveGTID = g := by
  refine ⟨{ m with
    lastLiveGTID := g, minLiveGTID := g.inc, lastTimestamp := ts, lastHash := lastHash }, ?_, ?_,
    rfl, rfl⟩
  · simp [noteGTIDAdded, check, GTID.cmp_lt_zero, follows.minLive, GTID.lt_inc, above]
  · have pending : at_.pending (queued ++ [g]) = at_.pending queued ++ [g] := by
      unfold pending
      split_ifs with begun
      · obtain ⟨h, rest, rfl⟩ := List.exists_cons_of_ne_nil
          (follows.present (by rintro rfl; simp [ApplierAt.begun] at begun))
        rfl
      · rfl
    refine ⟨follows.live, rfl, follows.unapplied, follows.minUnapplied, ?_, by simp, ?_, ?_⟩
    · intro begun
      simp [List.head?_append, follows.front begun]
    · rw [pending, ← List.cons_append, List.pairwise_append]
      refine ⟨follows.increasing, List.pairwise_singleton _ _, fun a mem b single => ?_⟩
      rw [List.mem_singleton.mp single]
      exact (follows.le_lastLive mem).trans_lt above
    · rw [pending, ← List.cons_append]
      exact List.getLast?_concat

theorem taken (follows : Following m .waiting queued) (nonempty : queued ≠ []) :
    Following m .took queued :=
  ⟨follows.live, follows.minLive, follows.unapplied, follows.minUnapplied, by simp [begun],
    fun _ => nonempty, follows.increasing, follows.last⟩

theorem applying {rest : List GTID} (follows : Following m .took (g :: rest)) :
    ∃ m', m.noteApplyingGTID g = some m' ∧ Following m' .applying (g :: rest) ∧
      m'.lastLiveGTID = m.lastLiveGTID ∧ m'.minUnappliedGTID = g := by
  have pending : took.pending (g :: rest) = g :: rest := rfl
  have above : m.lastUnappliedGTID < g := follows.lt_of_pending (by simp [pending])
  have minUnapplied : m.minUnappliedGTID = m.lastUnappliedGTID.inc := follows.minUnapplied
  have unapplied : m.unappliedGTIDs = ∅ := follows.unapplied
  have increasing := follows.increasing
  have last := follows.last
  rw [pending] at increasing last
  refine ⟨{ m with minUnappliedGTID := g, unappliedGTIDs := {g}, lastUnappliedGTID := g }, ?_, ?_,
    rfl, rfl⟩
  · simp [noteApplyingGTID, check, GTID.cmp_nonneg, GTID.cmp_pos, minUnapplied,
      GTID.inc_le_iff, above, unapplied]
  · refine ⟨follows.live, follows.minLive, by simp [busy],
      by simp [busy], fun _ => rfl, by simp, ?_, ?_⟩
    · exact (List.pairwise_cons.mp increasing).2
    · exact List.getLast?_cons_cons.symm.trans last

theorem tried (follows : Following m .applying queued) : Following m .tried queued :=
  ⟨follows.live, follows.minLive, follows.unapplied, follows.minUnapplied, follows.front,
    fun _ => follows.present (by simp), follows.increasing, follows.last⟩

theorem noted {rest : List GTID} (follows : Following m .tried (g :: rest)) :
    ∃ m', m.noteGTIDApplied g = some m' ∧ Following m' .noted (g :: rest) ∧
      m'.lastLiveGTID = m.lastLiveGTID ∧ m.minUnappliedGTID ≤ m'.minUnappliedGTID := by
  have front : g = m.lastUnappliedGTID := Option.some.inj (follows.front rfl)
  have minUnapplied : m.minUnappliedGTID = g := follows.minUnapplied.trans front.symm
  have unapplied : m.unappliedGTIDs = {g} := by
    rw [follows.unapplied, front]
    rfl
  refine ⟨{ m with unappliedGTIDs := ∅, minUnappliedGTID := m.lastUnappliedGTID.inc }, ?_, ?_, rfl,
    ?_⟩
  · simp [noteGTIDApplied, check, GTID.cmp_nonneg, GTID.cmp_eq_zero, minUnapplied, unapplied]
  · exact ⟨follows.live, follows.minLive, rfl, rfl, fun _ => follows.front rfl, by simp,
      follows.increasing, follows.last⟩
  · rw [minUnapplied, front]
    exact (GTID.lt_inc _).le

theorem popped {rest : List GTID} (follows : Following m .noted (g :: rest)) :
    Following m .waiting rest :=
  ⟨follows.live, follows.minLive, follows.unapplied, follows.minUnapplied, by simp [begun],
    by simp, follows.increasing, follows.last⟩

end Following

/-! ### The member -/

/-- What a step of the producer relies on when it gets to the next one. -/
def ProducerAt.Ready (lastLive : GTID) (deque : List (QueuedEntry OID Op)) :
    ProducerAt OID Op → Prop
  | .parked | .connecting | .reading | .draining _ => True
  | .wrote entry _ _ => lastLive < entry.gtid
  | .drained _ | .reset _ | .forcing _ _ | .undoing _ => deque = []

structure HandoverInv (s : Member OID Op) : Prop where
  primary : s.role = .primary → PrimaryInv ⟨s.gtidManager, s.outstanding⟩ ∧
    s.gtidManager.unappliedGTIDs = ∅ ∧ s.producer = .parked ∧ s.opSync ≠ .running ∧
    s.deque = [] ∧ s.applier = .waiting
  follows : s.role ≠ .primary → s.outstanding = ∅ ∧
    Following s.gtidManager s.applier (s.deque.map QueuedEntry.gtid)
  stopped : s.opSync = .stopped → s.producer = .parked ∧ s.deque = []
  ready : s.producer.Ready s.gtidManager.lastLiveGTID s.deque

namespace HandoverInv

variable {s t : Member OID Op}

section

variable (inv : HandoverInv s)
include inv

theorem active (active : s.producer ≠ .parked) : s.role ≠ .primary ∧ s.opSync ≠ .stopped :=
  ⟨fun primary => active (inv.primary primary).2.2.1, fun stopped => active (inv.stopped stopped).1⟩

theorem present (busy : s.applier ≠ .waiting) :
    s.role ≠ .primary ∧ ∃ curr rest, s.deque = curr :: rest := by
  have role : s.role ≠ .primary := fun primary => busy (inv.primary primary).2.2.2.2.2
  refine ⟨role, List.exists_cons_of_ne_nil fun empty => ?_⟩
  exact (inv.follows role).2.present busy (by simp [empty])

/-- The assertions, in every state with an empty queue and nothing outstanding. -/
theorem settled (empty : s.deque = []) (none : s.outstanding = ∅) :
    s.gtidManager.lastUnappliedGTID = s.gtidManager.lastLiveGTID ∧
      s.gtidManager.minUnappliedGTID = s.gtidManager.minLiveGTID ∧
      s.gtidManager.lastLiveGTID < s.gtidManager.minLiveGTID := by
  by_cases role : s.role = .primary
  · have primary := (inv.primary role).1
    obtain ⟨minLive, minUnapplied⟩ := primary.idle none
    refine ⟨primary.last_eq.symm, minUnapplied, ?_⟩
    rw [show s.gtidManager.minLiveGTID = s.gtidManager.lastLiveGTID.inc from minLive]
    exact GTID.lt_inc _
  · have follows := (inv.follows role).2
    rw [empty] at follows
    exact follows.settled

theorem verifySettled (empty : s.deque = []) (none : s.outstanding = ∅) :
    s.verifySettled = some () := by
  obtain ⟨last, min, -⟩ := inv.settled empty none
  unfold Member.verifySettled
  split_ifs
  · simp [check, empty, GTID.cmp_eq_zero, last, min]
  · rfl

theorem verifyReadyToBecomePrimary (empty : s.deque = []) (none : s.outstanding = ∅) :
    s.gtidManager.verifyReadyToBecomePrimary = some () := by
  obtain ⟨last, min, above⟩ := inv.settled empty none
  exact verifyReadyToBecomePrimary_iff.mpr ⟨last.symm, min.symm, above⟩

/-- A step of the producer that leaves the manager and the queue alone. -/
theorem setProducer (active : s.producer ≠ .parked) (producer : ProducerAt OID Op)
    (ready : producer.Ready s.gtidManager.lastLiveGTID s.deque) :
    HandoverInv { s with producer } := by
  obtain ⟨role, opSync⟩ := inv.active active
  exact ⟨fun primary => absurd primary role, inv.follows, fun stopped => absurd stopped opSync,
    ready⟩

/-- A step of the applier that leaves the queue of GTIDs alone. -/
theorem setApplier (role : s.role ≠ .primary) {manager : GTIDManager} {applier : ApplierAt}
    (follows : Following manager applier (s.deque.map QueuedEntry.gtid))
    (last : manager.lastLiveGTID = s.gtidManager.lastLiveGTID) :
    HandoverInv { s with gtidManager := manager, applier } := by
  refine ⟨fun primary => absurd primary role, fun _ => ⟨(inv.follows role).1, follows⟩,
    inv.stopped, ?_⟩
  simpa only [last] using inv.ready

theorem stop : HandoverInv { s with opSync := .stopping } := by
  refine ⟨fun role => ?_, inv.follows, by simp, inv.ready⟩
  obtain ⟨primary, unapplied, parked, -, rest⟩ := inv.primary role
  exact ⟨primary, unapplied, parked, by simp, rest⟩

/-- Whatever the assertion says, a stop that returns keeps the invariant. -/
theorem stopped_of_parked (parked : s.producer = .parked) (empty : s.deque = []) :
    HandoverInv { s with opSync := .stopped } := by
  refine ⟨fun role => ?_, inv.follows, fun _ => ⟨parked, empty⟩, inv.ready⟩
  obtain ⟨primary, unapplied, -, -, rest⟩ := inv.primary role
  exact ⟨primary, unapplied, parked, by simp, rest⟩

/-- A queue whose front changes its flag at most, or loses a front that was there, is
not one that a rollback has drained. -/
theorem setFront (role : s.role ≠ .primary) (nonempty : s.deque ≠ [])
    (deque oplog : List (QueuedEntry OID Op)) {applier : ApplierAt}
    (follows : Following s.gtidManager applier (deque.map QueuedEntry.gtid)) :
    HandoverInv { s with deque, oplog, applier } := by
  refine ⟨fun primary => absurd primary role, fun _ => ⟨(inv.follows role).1, follows⟩,
    fun stopped => absurd (inv.stopped stopped).2 nonempty, ?_⟩
  have ready := inv.ready
  cases producer : s.producer with
  | parked | connecting | reading | draining point => trivial
  | wrote entry ts lastHash => simpa [producer, ProducerAt.Ready] using ready
  | drained point | reset point | forcing point mins | undoing point =>
    exact absurd (by simpa [producer, ProducerAt.Ready] using ready) nonempty

/-- A call of a primary's manager. -/
theorem primaryCall (role : s.role = .primary) {manager : GTIDManager} {outstanding : Finset GTID}
    (oplog : List (QueuedEntry OID Op)) (primary : PrimaryInv ⟨manager, outstanding⟩)
    (same : manager.unappliedGTIDs = s.gtidManager.unappliedGTIDs) :
    HandoverInv { s with gtidManager := manager, outstanding, oplog } := by
  obtain ⟨-, unapplied, parked, rest⟩ := inv.primary role
  exact ⟨fun _ => ⟨primary, same.trans unapplied, parked, rest⟩, fun other => absurd role other,
    inv.stopped, by simp [parked, ProducerAt.Ready]⟩

end

end HandoverInv

section Steps

variable [LinearOrder OID] {refs : List (RefsDoc OID Op)} {s t : Member OID Op}
  {event : MemberEvent OID Op}

/-- The step passes its assertions and keeps the invariant. -/
def Passes (refs : List (RefsDoc OID Op)) (s : Member OID Op) (event : MemberEvent OID Op) : Prop :=
  ∃ t, s.act refs event = some t ∧ HandoverInv t

namespace HandoverInv

/-! #### Stopping and starting -/

section

variable (inv : HandoverInv s)
include inv

theorem opSyncStopped (enabled : s.Enabled refs .opSyncStopped) (none : s.outstanding = ∅) :
    Passes refs s .opSyncStopped := by
  obtain ⟨-, parked, empty⟩ := enabled
  refine ⟨_, ?_, inv.stopped_of_parked parked empty⟩
  simp [act, inv.verifySettled empty none]

theorem startOpSync (enabled : s.Enabled refs .startOpSync) : Passes refs s .startOpSync := by
  obtain ⟨stopped, role⟩ := enabled
  have standby : s.role ≠ .primary := by simp [role]
  obtain ⟨-, empty⟩ := inv.stopped stopped
  refine ⟨{ s with opSync := .running }, ?_, fun primary => absurd primary standby, inv.follows,
    by simp, inv.ready⟩
  simp [act, inv.verifySettled empty (inv.follows standby).1]

/-! #### The producer -/

theorem resume (enabled : s.Enabled refs .resume) :
    HandoverInv { s with producer := .connecting } := by
  obtain ⟨-, running, -⟩ := enabled
  exact ⟨fun primary => absurd running (inv.primary primary).2.2.2.1, inv.follows,
    fun stopped => by simp [running] at stopped, trivial⟩

theorem replicate {entry : QueuedEntry OID Op} {ts lastHash : Nat}
    (enabled : s.Enabled refs (.replicate entry ts lastHash)) :
    Passes refs s (.replicate entry ts lastHash) := by
  obtain ⟨reading, -, above⟩ := enabled
  obtain ⟨primary, follows, stopped, ready⟩ :=
    inv.setProducer (by simp [reading]) (.wrote entry ts lastHash) above
  exact ⟨_, rfl, primary, follows, stopped, ready⟩

theorem enqueue (enabled : s.Enabled refs .enqueue) : Passes refs s .enqueue := by
  obtain ⟨entry, ts, lastHash, wrote⟩ := enabled
  have above : s.gtidManager.lastLiveGTID < entry.gtid := by
    simpa [wrote, ProducerAt.Ready] using inv.ready
  obtain ⟨role, opSync⟩ := inv.active (by simp [wrote])
  obtain ⟨none, follows⟩ := inv.follows role
  obtain ⟨manager, added, follows', -⟩ := follows.added above ts lastHash
  refine ⟨{ s with gtidManager := manager, deque := s.deque ++ [entry], producer := .reading },
    by simp [act, wrote, added], fun primary => absurd primary role,
    fun _ => ⟨none, by simpa using follows'⟩, fun stopped => absurd stopped opSync, trivial⟩

theorem drain (enabled : s.Enabled refs .drain) : Passes refs s .drain := by
  obtain ⟨⟨point, draining⟩, empty⟩ := enabled
  obtain ⟨role, -⟩ := inv.active (by simp [draining])
  refine ⟨_, ?_, inv.setProducer (by simp [draining]) (.drained point) empty⟩
  simp [act, draining, inv.verifySettled empty (inv.follows role).1]

theorem resetForRollback (enabled : s.Enabled refs .resetForRollback) :
    Passes refs s .resetForRollback := by
  obtain ⟨point, drained⟩ := enabled
  have empty : s.deque = [] := by simpa [drained, ProducerAt.Ready] using inv.ready
  obtain ⟨role, opSync⟩ := inv.active (by simp [drained])
  obtain ⟨none, follows⟩ := inv.follows role
  have waiting : s.applier = .waiting := by
    by_contra busy
    exact follows.present busy (by simp [empty])
  have unapplied : s.gtidManager.unappliedGTIDs = ∅ := by
    simpa [waiting, busy] using follows.unapplied
  refine ⟨{ s with
    gtidManager := { s.gtidManager with
      lastLiveGTID := point.gtid
      minLiveGTID := point.gtid.inc
      lastUnappliedGTID := point.gtid
      minUnappliedGTID := point.gtid.inc
      lastTimestamp := point.ts
      lastHash := point.hash }
    producer := .reset point }, ?_, fun primary => absurd primary role, fun _ => ⟨none, ?_⟩,
    fun stopped => absurd stopped opSync, empty⟩
  · simp [act, drained, resetAfterInitialSync, check, follows.live, unapplied]
  · rw [waiting, empty]
    exact Following.of_reset follows.live unapplied rfl rfl rfl

theorem forceRead (enabled : s.Enabled refs .forceRead) : Passes refs s .forceRead := by
  obtain ⟨⟨point, reset⟩, -⟩ := enabled
  have empty : s.deque = [] := by simpa [reset, ProducerAt.Ready] using inv.ready
  refine ⟨_, ?_, inv.setProducer (by simp [reset]) (.forcing point s.gtidManager.getMins) empty⟩
  simp [act, reset]

theorem forceWrite (enabled : s.Enabled refs .forceWrite) : Passes refs s .forceWrite := by
  obtain ⟨point, mins, forcing⟩ := enabled
  have empty : s.deque = [] := by simpa [forcing, ProducerAt.Ready] using inv.ready
  obtain ⟨primary, follows, stopped, ready⟩ :=
    inv.setProducer (by simp [forcing]) (.undoing point) empty
  refine ⟨{ s with replInfo := mins, producer := .undoing point }, ?_, primary, follows, stopped,
    ready⟩
  simp [act, forcing]

theorem undo (enabled : s.Enabled refs .undo) : Passes refs s .undo := by
  obtain ⟨point, last, -, found, -⟩ := enabled
  refine ⟨{ s with oplog := purgeEntryFromOplog s.oplog last.gtid }, ?_, inv.primary, inv.follows,
    inv.stopped, inv.ready⟩
  simp [act, found]

theorem rollbackFails (enabled : s.Enabled refs .rollbackFails) :
    HandoverInv { s with producer := .parked, role := .fatal } := by
  have active : s.producer ≠ .parked := by
    rcases enabled with at_ | ⟨point, at_⟩ | ⟨point, mins, at_⟩ | ⟨point, at_⟩ <;> simp [at_]
  obtain ⟨role, opSync⟩ := inv.active active
  exact ⟨by simp, fun _ => inv.follows role, fun stopped => absurd stopped opSync, trivial⟩

/-! #### The applier -/

theorem take (enabled : s.Enabled refs .take) : HandoverInv { s with applier := .took } := by
  obtain ⟨-, waiting, nonempty⟩ := enabled
  have role : s.role ≠ .primary := fun primary => nonempty (inv.primary primary).2.2.2.2.1
  have follows := (inv.follows role).2
  rw [waiting] at follows
  exact inv.setApplier role (follows.taken (by simpa using nonempty)) rfl

theorem noteApplying (took : s.applier = .took) : Passes refs s .noteApplying := by
  obtain ⟨role, curr, rest, front⟩ := inv.present (by simp [took])
  have follows := (inv.follows role).2
  rw [took, front, List.map_cons] at follows
  obtain ⟨manager, noted, follows', last, -⟩ := follows.applying
  rw [← List.map_cons, ← front] at follows'
  refine ⟨_, ?_, inv.setApplier role follows' last⟩
  simp [act, front, noted]

theorem tryEntry {attempts : Nat → Attempt} (enabled : s.Enabled refs (.tryEntry attempts)) :
    Passes refs s (.tryEntry attempts) := by
  obtain ⟨applying, after, returned⟩ := enabled
  obtain ⟨role, curr, rest, front⟩ := inv.present (by simp [applying])
  obtain ⟨⟨flag, kept⟩, -⟩ := tryFront_spec refs front returned
  have follows := (inv.follows role).2
  rw [applying] at follows
  have same : after.deque.map QueuedEntry.gtid = s.deque.map QueuedEntry.gtid := by
    simp [kept, front]
  refine ⟨_, rfl, inv.setFront role (by simp [front]) _ _ ?_⟩
  rw [returned, same]
  exact follows.tried

theorem noteApplied (tried : s.applier = .tried) : Passes refs s .noteApplied := by
  obtain ⟨role, curr, rest, front⟩ := inv.present (by simp [tried])
  have follows := (inv.follows role).2
  rw [tried, front, List.map_cons] at follows
  obtain ⟨manager, noted, follows', last, -⟩ := follows.noted
  rw [← List.map_cons, ← front] at follows'
  refine ⟨_, ?_, inv.setApplier role follows' last⟩
  simp [act, front, noted]

theorem pop (noted : s.applier = .noted) : Passes refs s .pop := by
  obtain ⟨role, curr, rest, front⟩ := inv.present (by simp [noted])
  have follows := (inv.follows role).2
  rw [noted, front, List.map_cons] at follows
  refine ⟨_, ?_, inv.setFront role (by simp [front]) rest s.oplog follows.popped⟩
  simp [act, check, front]

/-! #### Changes of role -/

theorem assumePrimary (enabled : s.Enabled refs .assumePrimary) : Passes refs s .assumePrimary := by
  obtain ⟨role, stopped⟩ := enabled
  obtain ⟨parked, empty⟩ := inv.stopped stopped
  obtain ⟨none, follows⟩ := inv.follows (by simp [role])
  have waiting : s.applier = .waiting := by
    by_contra busy
    exact follows.present busy (by simp [empty])
  have unapplied : s.gtidManager.unappliedGTIDs = ∅ := by
    simpa [waiting, busy] using follows.unapplied
  obtain ⟨manager, reset, same⟩ : ∃ manager, s.gtidManager.resetManager = some manager ∧
      manager.unappliedGTIDs = s.gtidManager.unappliedGTIDs := by
    simp [resetManager, check, follows.live]
  refine ⟨{ s with gtidManager := manager, role := .primary }, ?_, fun _ => ⟨?_,
    same.trans unapplied, parked, by simp [stopped], empty, waiting⟩, fun other => absurd rfl other,
    fun _ => ⟨parked, empty⟩, by simp [parked, ProducerAt.Ready]⟩
  · simp [act, inv.verifyReadyToBecomePrimary empty none, reset]
  · rw [none]
    exact primaryInv_reset reset

theorem getGTID (role : s.role = .primary) (now : Nat) : Passes refs s (.getGTID now) := by
  have primary := (inv.primary role).1
  obtain ⟨⟨⟨gtid, ts, hash⟩, manager⟩, got⟩ :=
    Option.isSome_iff_exists.mp ((primary_calls_succeed primary).1 now)
  have same : manager.unappliedGTIDs = s.gtidManager.unappliedGTIDs := by
    simp only [getGTIDForPrimary, Option.bind_eq_bind, check_bind_eq_some,
      Option.pure_def, Option.some.injEq, Prod.mk.injEq] at got
    obtain ⟨-, -, rfl⟩ := got
    rfl
  refine ⟨_, ?_, inv.primaryCall role s.oplog (primaryInv_step primary (.get now got)) same⟩
  simp [act, show s.gtidManager.getGTIDForPrimary now = _ from got]

theorem done {gtid : GTID} {committed : Option (Payload OID Op)}
    (enabled : s.Enabled refs (.done gtid committed)) : Passes refs s (.done gtid committed) := by
  obtain ⟨role, held⟩ := enabled
  have primary := (inv.primary role).1
  obtain ⟨manager, noted⟩ :=
    Option.isSome_iff_exists.mp ((primary_calls_succeed primary).2 gtid held)
  have same : manager.unappliedGTIDs = s.gtidManager.unappliedGTIDs := by
    have noted := noted
    simp only [noteLiveGTIDDone, Option.bind_eq_bind, check_bind_eq_some, Option.pure_def] at noted
    obtain ⟨-, -, noted⟩ := noted
    split_ifs at noted <;> (cases noted; rfl)
  exact ⟨_, Option.bind_eq_some_iff.mpr ⟨manager, noted, rfl⟩,
    inv.primaryCall role _ (primaryInv_step primary (.done gtid held noted)) same⟩

theorem relinquish (enabled : s.Enabled refs .relinquish) :
    HandoverInv { s with role := .secondary } := by
  obtain ⟨role, none⟩ := enabled
  obtain ⟨primary, unapplied, -, -, empty, waiting⟩ := inv.primary role
  obtain ⟨minLive, minUnapplied⟩ := primary.idle none
  refine ⟨by simp, fun _ => ⟨none, ?_⟩, inv.stopped, inv.ready⟩
  simpa [empty, waiting] using Following.of_reset (primary.live_eq.trans none) unapplied
    primary.last_eq.symm minLive minUnapplied

end

end HandoverInv

/-- Every assertion passes, but for a stop of a primary with GTIDs outstanding. -/
theorem handover_passes (inv : HandoverInv s) (enabled : s.Enabled refs event)
    (quiet : event = .opSyncStopped → s.outstanding = ∅) : Passes refs s event := by
  cases event with
  | applierStarts | readMins | writeMins | keepMins =>
    exact ⟨_, rfl, inv.primary, inv.follows, inv.stopped, inv.ready⟩
  | stopOpSync => exact ⟨_, rfl, inv.stop⟩
  | opSyncStopped => exact inv.opSyncStopped enabled (quiet rfl)
  | startOpSync => exact inv.startOpSync enabled
  | resume => exact ⟨_, rfl, inv.resume enabled⟩
  | park =>
    have active : s.producer ≠ .parked := by
      rcases enabled with at_ | at_ | ⟨point, at_⟩ <;> simp [at_]
    exact ⟨_, rfl, inv.setProducer active _ trivial⟩
  | rollbackNotNeeded =>
    have connecting : s.producer = .connecting := enabled
    exact ⟨_, rfl, inv.setProducer (by simp [connecting]) _ trivial⟩
  | replicate entry ts lastHash => exact inv.replicate enabled
  | enqueue => exact inv.enqueue enabled
  | rollbackTo point => exact ⟨_, rfl, inv.setProducer (by simp [enabled.1]) _ trivial⟩
  | drain => exact inv.drain enabled
  | resetForRollback => exact inv.resetForRollback enabled
  | forceRead => exact inv.forceRead enabled
  | forceWrite => exact inv.forceWrite enabled
  | undo => exact inv.undo enabled
  | rolledBack =>
    obtain ⟨point, undoing, -⟩ := enabled
    exact ⟨_, rfl, inv.setProducer (by simp [undoing]) _ trivial⟩
  | rollbackFails => exact ⟨_, rfl, inv.rollbackFails enabled⟩
  | take => exact ⟨_, rfl, inv.take enabled⟩
  | noteApplying => exact inv.noteApplying enabled
  | tryEntry attempts => exact inv.tryEntry enabled
  | noteApplied => exact inv.noteApplied enabled
  | pop => exact inv.pop enabled
  | assumePrimary => exact inv.assumePrimary enabled
  | getGTID now => exact inv.getGTID enabled now
  | done gtid committed => exact inv.done enabled
  | relinquish => exact ⟨_, rfl, inv.relinquish enabled⟩

theorem handoverInv_step (inv : HandoverInv s) (step : s.Step refs event t) : HandoverInv t := by
  obtain ⟨enabled, result⟩ := step
  by_cases stop : event = .opSyncStopped
  · subst stop
    simp only [act, Option.bind_eq_bind, Option.bind_eq_some_iff, Option.pure_def,
      Option.some.injEq] at result
    obtain ⟨-, -, rfl⟩ := result
    exact inv.stopped_of_parked enabled.2.1 enabled.2.2
  · obtain ⟨t', result', inv'⟩ := handover_passes inv enabled fun is => absurd is stop
    cases result.symm.trans result'
    exact inv'

end Steps

theorem Started.fields {m : GTIDManager} (started : Started m) :
    m.liveGTIDs = ∅ ∧ m.unappliedGTIDs = ∅ ∧ m.lastUnappliedGTID = m.lastLiveGTID ∧
      m.minLiveGTID = m.lastLiveGTID.inc ∧ m.minUnappliedGTID = m.minLiveGTID := by
  cases started with
  | caughtUp last lastTime lastHash id caughtUp =>
    cases caughtUp
    exact ⟨rfl, rfl, rfl, rfl, rfl⟩
  | synced last lastTime lastHash synced =>
    simp only [resetAfterInitialSync, Option.bind_eq_bind, check_bind_eq_some,
      Finset.card_eq_zero, Option.pure_def, Option.some.injEq] at synced
    obtain ⟨live, unapplied, rfl⟩ := synced
    exact ⟨live, unapplied, rfl, rfl, rfl⟩

theorem handoverInv_start {m : GTIDManager} (started : Started m) (role : Role)
    (oplog : List (QueuedEntry OID Op)) (replInfo : GTID × GTID) :
    HandoverInv (.start role m oplog replInfo) := by
  obtain ⟨live, unapplied, last, minLive, minUnapplied⟩ := started.fields
  refine ⟨fun _ => ⟨?_, unapplied, rfl, by simp [start], rfl, rfl⟩,
    fun _ => ⟨rfl, .of_reset live unapplied last minLive minUnapplied⟩, fun _ => ⟨rfl, rfl⟩,
    trivial⟩
  exact ⟨live, last.symm, by simp [start], fun _ => ⟨minLive, minUnapplied⟩,
    by simp [start]⟩

/-- In every interleaving of a member's threads, with any failures while applying or
rolling back and any changes of role: whenever the queue is empty and no GTID is
outstanding, `verifySettled` and `verifyReadyToBecomePrimary` hold. A step that asserts
anything gets through, but for a stop of a primary with GTIDs outstanding. -/
theorem handover_settled [LinearOrder OID] {refs : List (RefsDoc OID Op)} {manager : GTIDManager}
    (started : Started manager) {role : Role} {oplog : List (QueuedEntry OID Op)}
    {replInfo : GTID × GTID} {events : List (MemberEvent OID Op)} {s : Member OID Op}
    (run : Run (Member.Step refs) (.start role manager oplog replInfo) events s) :
    (s.deque = [] → s.outstanding = ∅ →
      s.gtidManager.lastUnappliedGTID = s.gtidManager.lastLiveGTID ∧
      s.gtidManager.minUnappliedGTID = s.gtidManager.minLiveGTID ∧
      s.gtidManager.lastLiveGTID < s.gtidManager.minLiveGTID ∧
      s.verifySettled = some () ∧ s.gtidManager.verifyReadyToBecomePrimary = some ()) ∧
    ∀ event, s.Enabled refs event → (event = .opSyncStopped → s.outstanding = ∅) →
      (s.act refs event).isSome := by
  have inv : HandoverInv s :=
    run.invariant (fun _ _ _ => handoverInv_step) (handoverInv_start started role oplog replInfo)
  constructor
  · intro empty none
    obtain ⟨last, min, above⟩ := inv.settled empty none
    exact ⟨last, min, above, inv.verifySettled empty none,
      inv.verifyReadyToBecomePrimary empty none⟩
  · intro event enabled quiet
    obtain ⟨t, result, -⟩ := handover_passes inv enabled quiet
    exact Option.isSome_of_eq_some result

/-- A secondary that has replicated one entry and not yet begun to apply it. -/
def replicatedMember : Member Nat Nat where
  role := .secondary
  gtidManager := { settledManager with
    lastLiveGTID := ⟨1, 6⟩, minLiveGTID := ⟨1, 7⟩, lastTimestamp := 7, lastHash := 8 }
  outstanding := ∅
  opSync := .running
  producer := .reading
  deque := [nextEntry]
  applierInProgress := true
  applier := .waiting
  oplog := [nextEntry]
  replInfo := (⟨1, 6⟩, ⟨1, 6⟩)
  replInfoRead := none

/-- The same secondary, once it has applied the entry and has been stopped. -/
def stoppedMember : Member Nat Nat where
  role := .secondary
  gtidManager := { settledManager with
    lastLiveGTID := ⟨1, 6⟩, minLiveGTID := ⟨1, 7⟩, lastTimestamp := 7, lastHash := 8,
    lastUnappliedGTID := ⟨1, 6⟩, minUnappliedGTID := ⟨1, 7⟩ }
  outstanding := ∅
  opSync := .stopped
  producer := .parked
  deque := []
  applierInProgress := true
  applier := .waiting
  oplog := [{ nextEntry with applied := true }]
  replInfo := (⟨1, 6⟩, ⟨1, 6⟩)
  replInfoRead := none

theorem replicatedMember_run : Run (Member.Step [])
    (.start .secondary settledManager [] (⟨1, 6⟩, ⟨1, 6⟩))
    [.applierStarts, .startOpSync, .resume, .rollbackNotNeeded, .replicate nextEntry 7 8, .enqueue]
    replicatedMember :=
  .cons ⟨rfl, rfl⟩ <| .cons ⟨⟨rfl, rfl⟩, rfl⟩ <| .cons ⟨⟨rfl, rfl, by decide⟩, rfl⟩ <|
    .cons ⟨rfl, rfl⟩ <| .cons ⟨⟨rfl, rfl, by decide⟩, rfl⟩ <| .cons ⟨⟨_, _, _, rfl⟩, rfl⟩ <| .nil _

theorem stoppedMember_run : Run (Member.Step []) replicatedMember
    [.stopOpSync, .take, .noteApplying, .tryEntry fun _ => nothingThrows, .noteApplied, .pop, .park,
      .opSyncStopped] stoppedMember :=
  .cons ⟨by simp [Member.Enabled, replicatedMember], rfl⟩ <|
    .cons ⟨⟨rfl, rfl, by simp [replicatedMember]⟩, rfl⟩ <| .cons ⟨rfl, rfl⟩ <|
    .cons ⟨⟨rfl, _, rfl⟩, rfl⟩ <| .cons ⟨rfl, rfl⟩ <| .cons ⟨rfl, rfl⟩ <|
    .cons ⟨.inr (.inl rfl), rfl⟩ <| .cons ⟨⟨rfl, rfl, rfl⟩, rfl⟩ <| .nil _

/-- An entry is replicated and, while replication is being stopped, applied. -/
theorem handover_settled_stopped :
    Run (Member.Step []) (.start .secondary settledManager [] (⟨1, 6⟩, ⟨1, 6⟩))
      ([.applierStarts, .startOpSync, .resume, .rollbackNotNeeded, .replicate nextEntry 7 8,
          .enqueue] ++
        [.stopOpSync, .take, .noteApplying, .tryEntry fun _ => nothingThrows, .noteApplied, .pop,
          .park, .opSyncStopped]) stoppedMember ∧
      stoppedMember.verifySettled = some () ∧
      stoppedMember.gtidManager.verifyReadyToBecomePrimary = some () := by
  have reset : settledManager.resetAfterInitialSync ⟨1, 5⟩ 100 17 = some settledManager := rfl
  have started : Started settledManager := .synced _ _ _ reset
  have run := replicatedMember_run.append stoppedMember_run
  obtain ⟨settled, -⟩ := handover_settled started run
  obtain ⟨-, -, -, verified, ready⟩ := settled rfl rfl
  exact ⟨run, verified, ready⟩

/-- The first GTID of a primary is out: the live minimum is that GTID, with the new primary
number, while the minimum of the unapplied GTIDs waits for it to be done. -/
structure FirstOut (gtid : GTID) (s : Member OID Op) : Prop where
  inv : HandoverInv s
  applier : s.applierInProgress = true
  role : s.role = .primary
  held : gtid ∈ s.outstanding
  minLive : s.gtidManager.minLiveGTID = gtid
  behind : s.gtidManager.minUnappliedGTID ≠ gtid

namespace FirstOut

variable [LinearOrder OID] {refs : List (RefsDoc OID Op)} {s t r : Member OID Op} {gtid : GTID}
  {event : MemberEvent OID Op}

theorem of_getGTID {now : Nat} (inv : HandoverInv s) (applier : s.applierInProgress = true)
    (assumed : s.Step refs .assumePrimary t) (handed : t.Step refs (.getGTID now) r) :
    FirstOut t.gtidManager.nextGTID r := by
  have after := handoverInv_step (handoverInv_step inv assumed) handed
  obtain ⟨⟨role, -⟩, assumed⟩ := assumed
  have live : s.gtidManager.liveGTIDs = ∅ := (inv.follows (by simp [role])).2.live
  obtain ⟨manager, -, reset, rfl⟩ := act_assumePrimary assumed
  obtain ⟨gtid, ts, hash, manager', got, rfl⟩ := act_getGTID handed.2
  simp only [resetManager, Option.bind_eq_bind, check_bind_eq_some, Option.pure_def,
    Option.some.injEq] at reset
  obtain ⟨-, rfl⟩ := reset
  simp only [getGTIDForPrimary, Option.bind_eq_bind, check_bind_eq_some, Option.pure_def,
    Option.some.injEq, Prod.mk.injEq] at got
  obtain ⟨-, ⟨rfl, -, -⟩, rfl⟩ := got
  refine ⟨after, applier, rfl, Finset.mem_insert_self _ _, by simp [live], ?_⟩
  simp [nextGTID, GTID.inc, GTID.incPrimary]

/-- Stopping gets to the checks, and they fail. -/
theorem stop_fails (out : FirstOut gtid s) :
    (s.opSync = .stopping → s.Enabled refs .opSyncStopped) ∧ s.act refs .opSyncStopped = none := by
  obtain ⟨-, -, parked, -, empty, -⟩ := out.inv.primary out.role
  refine ⟨fun stopping => ⟨stopping, parked, empty⟩, ?_⟩
  simp [act, verifySettled, out.applier, check, GTID.cmp_eq_zero, out.minLive, out.behind]

/-- It stays out until it is done. -/
theorem step (out : FirstOut gtid s) (step : s.Step refs event t)
    (other : ∀ committed, event ≠ .done gtid committed) : FirstOut gtid t := by
  have after := handoverInv_step out.inv step
  obtain ⟨primary, -, parked, quiet, empty, waiting⟩ := out.inv.primary out.role
  obtain ⟨enabled, result⟩ := step
  cases event with
  | applierStarts | stopOpSync | readMins | writeMins | keepMins =>
    cases result
    exact ⟨after, by simp [out.applier], out.role, out.held, out.minLive, out.behind⟩
  | opSyncStopped => cases out.stop_fails.2.symm.trans result
  | startOpSync | assumePrimary => simp [Enabled, out.role] at enabled
  | resume => exact absurd enabled.2.1 quiet
  | park | rollbackNotNeeded | enqueue | drain | resetForRollback | forceRead | forceWrite | undo
  | rolledBack | rollbackFails => simp [Enabled, parked] at enabled
  | replicate | rollbackTo => simp [Enabled, parked] at enabled
  | take | noteApplying | noteApplied | pop => simp [Enabled, empty, waiting] at enabled
  | tryEntry => simp [Enabled, waiting] at enabled
  | getGTID now =>
    obtain ⟨gtid', ts, hash, manager, got, rfl⟩ := act_getGTID result
    simp only [getGTIDForPrimary, Option.bind_eq_bind, check_bind_eq_some, Option.pure_def,
      Option.some.injEq, Prod.mk.injEq] at got
    obtain ⟨-, -, rfl⟩ := got
    have some : s.gtidManager.liveGTIDs.card ≠ 0 := by
      rw [show s.gtidManager.liveGTIDs = s.outstanding from primary.live_eq]
      exact Finset.card_ne_zero_of_mem out.held
    exact ⟨after, out.applier, out.role, Finset.mem_insert_of_mem out.held,
      by simp [some, out.minLive], out.behind⟩
  | done gtid' committed =>
    have apart : gtid ≠ gtid' := by
      rintro rfl
      exact other committed rfl
    obtain ⟨manager, oplog, noted, rfl, -⟩ := act_done result
    simp only [noteLiveGTIDDone, Option.bind_eq_bind, check_bind_eq_some, Option.pure_def,
      out.minLive, GTID.cmp_eq_zero, if_neg apart, Option.some.injEq] at noted
    obtain ⟨-, -, rfl⟩ := noted
    exact ⟨after, out.applier, out.role, Finset.mem_erase.mpr ⟨apart, out.held⟩, rfl, out.behind⟩
  | relinquish => simpa [enabled.2] using out.held

end FirstOut

/-- A primary must not be stopped while the first GTID it has handed out is not done, whatever
else it does: a stop gets to its checks, and they fail. A new configuration arriving in that
window makes the member fatal. -/
theorem stop_fails_at_first_gtid [LinearOrder OID] {refs : List (RefsDoc OID Op)}
    {s t r u : Member OID Op} {now : Nat} {events : List (MemberEvent OID Op)} (inv : HandoverInv s)
    (applier : s.applierInProgress = true) (assumed : s.Step refs .assumePrimary t)
    (handed : t.Step refs (.getGTID now) r) (run : Run (Member.Step refs) r events u)
    (out : ∀ committed, .done t.gtidManager.nextGTID committed ∉ events) :
    (u.opSync = .stopping → u.Enabled refs .opSyncStopped) ∧ u.act refs .opSyncStopped = none := by
  refine (run.history (P := fun past u =>
    (∀ committed, .done t.gtidManager.nextGTID committed ∉ past) →
      FirstOut t.gtidManager.nextGTID u) (fun _ => .of_getGTID inv applier assumed handed) ?_
    out).stop_fails
  intro past a e b _ before step apart
  refine (before fun committed mem => apart committed (List.mem_append_left _ mem)).step step ?_
  rintro committed rfl
  exact apart committed (by simp)

/-- With another GTID handed out and done in between. -/
theorem stop_fails_at_first_gtid_stopped : ∃ t r u, stoppedMember.Step [] .assumePrimary t ∧
    t.Step [] (.getGTID 200) r ∧
    Run (Member.Step []) r [.getGTID 300, .done ⟨2, 1⟩ none, .stopOpSync] u ∧
    u.Enabled [] .opSyncStopped ∧ u.act [] .opSyncStopped = none := by
  have reset : settledManager.resetAfterInitialSync ⟨1, 5⟩ 100 17 = some settledManager := rfl
  have inv := (replicatedMember_run.append stoppedMember_run).invariant
    (fun _ _ _ => handoverInv_step) (handoverInv_start (.synced _ _ _ reset) _ _ _)
  obtain ⟨t, r, u, assumed, handed, run, first, stopping⟩ : ∃ t r u,
      stoppedMember.Step [] .assumePrimary t ∧ t.Step [] (.getGTID 200) r ∧
      Run (Member.Step []) r [.getGTID 300, .done ⟨2, 1⟩ none, .stopOpSync] u ∧
      t.gtidManager.nextGTID = ⟨2, 0⟩ ∧ u.opSync = .stopping :=
    ⟨_, _, _, ⟨⟨rfl, rfl⟩, rfl⟩, ⟨rfl, rfl⟩, .cons ⟨rfl, rfl⟩ <| .cons ⟨⟨rfl, by decide⟩, rfl⟩ <|
      .cons ⟨nofun, rfl⟩ <| .nil _, rfl, rfl⟩
  obtain ⟨enabled, fails⟩ := stop_fails_at_first_gtid inv rfl assumed handed run (by simp [first])
  exact ⟨t, r, u, assumed, handed, run, enabled stopping, fails⟩

end TokuMX.Repl
