import TokuMX.Lib.OrderedMap
import TokuMX.Lib.Runs

/-!
The migrate log (`MigrateFromStatus` and `MigrateStatus` in `s/d_migrate.cpp`).

While a chunk moves, every root transaction of the donor that touches it writes one entry
into the migrate log. The id of the entry comes from a counter, before the storage
transaction commits. The recipient reads the log in the order of the ids and remembers the
highest id it has applied; the next read starts there.

A transaction may commit after one with a higher id has been read. The recipient never looks
below its highest id again, so that entry is lost.

* `applied_iff` — after a last read every entry has been applied exactly once if and only if
  no transaction was overtaken.
-/

namespace TokuMX.Sharding

open TokuMX.Lib OrderedMap

variable {Op : Type}

/-! ### The donor -/

/-- The log and the root transactions that have an id. -/
structure MigrateFromStatus (Op : Type) where
  nextMigrateLogId : Nat
  /-- open transactions, with the entry each has written -/
  pending : OrderedMap Nat (Option Op)
  /-- the entries of committed transactions -/
  migratelog : OrderedMap Nat Op

namespace MigrateFromStatus

/-- `startObjForMigrateLog`: a transaction is given the next id. -/
def startObjForMigrateLog (d : MigrateFromStatus Op) : MigrateFromStatus Op :=
  { d with
    nextMigrateLogId := d.nextMigrateLogId + 1
    pending := d.pending.put d.nextMigrateLogId (some none) }

/-- `writeObjToMigrateLog`, in the transaction with this id. -/
def writeObjToMigrateLog (d : MigrateFromStatus Op) (id : Nat) (op : Op) : MigrateFromStatus Op :=
  { d with pending := d.pending.put id (some (some op)) }

/-- The storage engine commits the transaction. -/
def commit (d : MigrateFromStatus Op) (id : Nat) (op : Op) : MigrateFromStatus Op :=
  { d with
    pending := d.pending.put id none
    migratelog := d.migratelog.put id (some op) }

def abort (d : MigrateFromStatus Op) (id : Nat) : MigrateFromStatus Op :=
  { d with pending := d.pending.put id none }

end MigrateFromStatus

/-! ### The recipient -/

/-- The highest id applied, `-1` at first, and what has been applied, in order. -/
structure MigrateStatus (Op : Type) where
  lastAppliedMigrateLogID : Int
  applied : List (Nat × Op)

variable {op : Nat × Op}

namespace MigrateStatus

def applyOp (r : MigrateStatus Op) (op : Nat × Op) : MigrateStatus Op :=
  ⟨op.1, r.applied ++ [op]⟩

/-- The query of `transferMods`: the committed entries from the highest id on. -/
def query (r : MigrateStatus Op) (migratelog : OrderedMap Nat Op) : List (Nat × Op) :=
  migratelog.entries.filter fun op => r.lastAppliedMigrateLogID ≤ op.1

/-- `transferMods`; `none` if there is no first entry or it is not the last one applied, which
is a failed `verify`. -/
def transferMods (r : MigrateStatus Op) (migratelog : OrderedMap Nat Op) :
    Option (MigrateStatus Op) :=
  if 0 ≤ r.lastAppliedMigrateLogID then
    match r.query migratelog with
    | [] => none
    | op :: rest =>
      if op.1 = r.lastAppliedMigrateLogID then some (rest.foldl applyOp r) else none
  else some ((r.query migratelog).foldl applyOp r)

/-- The entries above the highest id applied. -/
def fresh (r : MigrateStatus Op) (migratelog : OrderedMap Nat Op) : List (Nat × Op) :=
  migratelog.entries.filter fun op => r.lastAppliedMigrateLogID < op.1

variable {r : MigrateStatus Op} {migratelog : OrderedMap Nat Op}

@[simp] theorem mem_fresh :
    op ∈ r.fresh migratelog ↔ op ∈ migratelog.entries ∧ r.lastAppliedMigrateLogID < op.1 := by
  simp [fresh]

theorem applied_foldl (r : MigrateStatus Op) (ops : List (Nat × Op)) :
    (ops.foldl applyOp r).applied = r.applied ++ ops := by
  induction ops generalizing r with
  | nil => simp
  | cons op rest ih => rw [List.foldl_cons, ih, applyOp, List.append_assoc, List.singleton_append]

theorem lastApplied_foldl (r : MigrateStatus Op) (ops : List (Nat × Op)) :
    (ops.foldl applyOp r).lastAppliedMigrateLogID =
      ops.getLast?.elim r.lastAppliedMigrateLogID fun op => op.1 := by
  cases ops using List.reverseRecOn with
  | nil => rfl
  | append_singleton front op => simp [applyOp]

/-- The recipient starts at the beginning or at an entry of the log. -/
def StartsAtEntry (r : MigrateStatus Op) (migratelog : OrderedMap Nat Op) : Prop :=
  r.lastAppliedMigrateLogID = -1 ∨
    ∃ op ∈ migratelog.entries, r.lastAppliedMigrateLogID = op.1

theorem query_of_entry (mem : op ∈ migratelog.entries) (last : r.lastAppliedMigrateLogID = op.1) :
    r.query migratelog = op :: r.fresh migratelog := by
  obtain ⟨front, rest, entries⟩ := List.append_of_mem mem
  have sorted := entries ▸ migratelog.sorted
  obtain ⟨-, tail, across⟩ := List.pairwise_append.mp sorted
  have front_out : front.filter (fun a => decide (op.1 ≤ a.1)) = [] := by
    rw [List.filter_eq_nil_iff]
    intro a ha
    simpa using across a ha op List.mem_cons_self
  have rest_in : rest.filter (fun a => decide (op.1 ≤ a.1)) = rest := by
    rw [List.filter_eq_self]
    intro a ha
    simpa using ((List.pairwise_cons.mp tail).1 a ha).le
  have above : r.fresh migratelog = rest := by
    rw [← above_of_entries entries]
    simp [fresh, above, last]
  rw [above, query, entries, last]
  simp [front_out, rest_in]

/-- The `verify` holds and a read applies what is above the highest id. -/
theorem transferMods_eq (entry : r.StartsAtEntry migratelog) :
    r.transferMods migratelog = some ((r.fresh migratelog).foldl applyOp r) := by
  rcases entry with first | ⟨op, mem, last⟩
  · have all : r.query migratelog = r.fresh migratelog := by
      refine List.filter_congr fun op _ => ?_
      rw [first]
      exact decide_eq_decide.mpr (by omega)
    rw [transferMods, if_neg (by omega), all]
  · rw [transferMods, if_pos (by omega), query_of_entry mem last]
    exact if_pos last.symm

end MigrateStatus

/-! ### The two together -/

structure Migration (Op : Type) where
  donor : MigrateFromStatus Op
  recipient : MigrateStatus Op

/-- The start of a migration. -/
def Migration.start : Migration Op := ⟨⟨0, .empty, .empty⟩, ⟨-1, []⟩⟩

namespace MigrateLog

inductive Event (Op : Type) where
  | startObjForMigrateLog
  | writeObjToMigrateLog (id : Nat) (op : Op)
  /-- with whether the recipient has applied a higher id -/
  | commit (id : Nat) (overtaken : Bool)
  | abort (id : Nat)
  | transferMods

inductive Step : Migration Op → Event Op → Migration Op → Prop where
  | startObjForMigrateLog {s : Migration Op} :
      Step s .startObjForMigrateLog { s with donor := s.donor.startObjForMigrateLog }
  | writeObjToMigrateLog {s : Migration Op} (id : Nat) (op : Op)
      (started : s.donor.pending.find? id = some none) :
      Step s (.writeObjToMigrateLog id op) { s with donor := s.donor.writeObjToMigrateLog id op }
  | commit {s : Migration Op} (id : Nat) (op : Op)
      (written : s.donor.pending.find? id = some (some op)) :
      Step s (.commit id (id < s.recipient.lastAppliedMigrateLogID))
        { s with donor := s.donor.commit id op }
  | abort {s : Migration Op} {id : Nat} {written : Option Op}
      (pending : s.donor.pending.find? id = some written) :
      Step s (.abort id) { s with donor := s.donor.abort id }
  | transferMods {s : Migration Op} {r : MigrateStatus Op}
      (done : s.recipient.transferMods s.donor.migratelog = some r) :
      Step s .transferMods { s with recipient := r }

/-- The id of a transaction that commits behind the recipient. -/
def Event.overtaken : Event Op → Option Nat
  | .commit id true => some id
  | _ => none

/-- The ids of the transactions that were overtaken. -/
def lost (events : List (Event Op)) : List Nat := events.filterMap Event.overtaken

@[simp] theorem lost_snoc (events : List (Event Op)) (e : Event Op) :
    lost (events ++ [e]) = lost events ++ e.overtaken.toList := by
  rw [lost, List.filterMap_append, List.filterMap_cons, List.filterMap_nil]
  cases e.overtaken <;> rfl

theorem lost_eq_nil (events : List (Event Op)) :
    lost events = [] ↔ ∀ id overtaken, Event.commit id overtaken ∈ events → overtaken = false := by
  rw [lost, List.filterMap_eq_nil_iff]
  constructor
  · intro none id overtaken mem
    cases overtaken with
    | false => rfl
    | true => cases none _ mem
  · intro inTime e mem
    cases e with
    | commit id overtaken =>
      obtain rfl := inTime id overtaken mem
      rfl
    | _ => rfl

/-- What holds after any interleaving. -/
structure Sound (events : List (Event Op)) (s : Migration Op) : Prop where
  pending_lt : ∀ id, (s.donor.pending.find? id).isSome → id < s.donor.nextMigrateLogId
  log_lt : ∀ op ∈ s.donor.migratelog.entries, op.1 < s.donor.nextMigrateLogId
  /-- an open transaction has nothing in the log -/
  unlogged : ∀ op ∈ s.donor.migratelog.entries, s.donor.pending.find? op.1 = none
  entry : s.recipient.StartsAtEntry s.donor.migratelog
  /-- nothing is applied twice -/
  ascending : s.recipient.applied.Pairwise fun a b => a.1 < b.1
  logged : ∀ op ∈ s.recipient.applied,
    op ∈ s.donor.migratelog.entries ∧ op.1 ≤ s.recipient.lastAppliedMigrateLogID
  accounted : ∀ op ∈ s.donor.migratelog.entries,
    op ∈ s.recipient.applied ∨ s.recipient.lastAppliedMigrateLogID < op.1 ∨ op.1 ∈ lost events
  /-- an entry that was overtaken stays below the highest id -/
  skipped : ∀ id ∈ lost events,
    (id < s.recipient.lastAppliedMigrateLogID ∧ ∀ op ∈ s.recipient.applied, op.1 ≠ id) ∧
      ∃ op ∈ s.donor.migratelog.entries, op.1 = id

variable {events : List (Event Op)} {s : Migration Op}

theorem sound_start : Sound [] (Migration.start : Migration Op) where
  pending_lt id started := by simp [Migration.start] at started
  log_lt := List.forall_mem_nil _
  unlogged := List.forall_mem_nil _
  entry := .inl rfl
  ascending := .nil
  logged := List.forall_mem_nil _
  accounted := List.forall_mem_nil _
  skipped := List.forall_mem_nil _

namespace Sound

/-- A move of the donor that leaves the log alone and opens no transaction but a new one. -/
theorem donor_move (h : Sound events s) {e : Event Op} {d : MigrateFromStatus Op}
    (quiet : e.overtaken = none) (same : d.migratelog = s.donor.migratelog)
    (next : s.donor.nextMigrateLogId ≤ d.nextMigrateLogId)
    (pending : ∀ id, (d.pending.find? id).isSome → id < d.nextMigrateLogId ∧
      (id < s.donor.nextMigrateLogId → (s.donor.pending.find? id).isSome)) :
    Sound (events ++ [e]) { s with donor := d } where
  pending_lt id started := (pending id started).1
  log_lt op mem := (h.log_lt op (same ▸ mem)).trans_le next
  unlogged op mem := by
    have old : op ∈ s.donor.migratelog.entries := same ▸ mem
    rw [← Option.not_isSome_iff_eq_none]
    intro started
    have := (pending op.1 started).2 (h.log_lt op old)
    simp [h.unlogged op old] at this
  entry := by
    dsimp only
    exact same ▸ h.entry
  ascending := h.ascending
  logged op mem := by
    dsimp only
    exact same ▸ h.logged op mem
  accounted op mem := by
    simpa [quiet] using h.accounted op (same ▸ mem)
  skipped id mem := by
    dsimp only
    exact same ▸ h.skipped id (by simpa [quiet] using mem)

open MigrateFromStatus

theorem commit (h : Sound events s) {id : Nat} {op : Op}
    (written : s.donor.pending.find? id = some (some op)) :
    Sound (events ++ [.commit id (id < s.recipient.lastAppliedMigrateLogID)])
      { s with donor := s.donor.commit id op } := by
  have new : ∀ e ∈ s.donor.migratelog.entries, e.1 ≠ id := by
    rintro e mem rfl
    simp [h.unlogged e mem] at written
  have log : ∀ e, e ∈ (s.donor.commit id op).migratelog.entries ↔
      e = (id, op) ∨ e ∈ s.donor.migratelog.entries := by
    intro e
    exact mem_set.trans (or_congr_right (and_iff_left_of_imp (new e)))
  have lost_iff : ∀ i, i ∈ lost (events ++ [.commit id
      (decide ((id : Int) < s.recipient.lastAppliedMigrateLogID))]) ↔
      i ∈ lost events ∨ i = id ∧ (id : Int) < s.recipient.lastAppliedMigrateLogID := by
    intro i
    rw [lost_snoc, List.mem_append]
    by_cases behind : (id : Int) < s.recipient.lastAppliedMigrateLogID
    · simp [Event.overtaken, behind]
    · simp [Event.overtaken, behind]
  constructor
  case pending_lt =>
    intro i started
    rw [MigrateFromStatus.commit, find?_put] at started
    split_ifs at started with same
    · simp at started
    · exact h.pending_lt i started
  case log_lt =>
    intro e mem
    rcases (log e).mp mem with rfl | old
    · exact h.pending_lt id (by simp [written])
    · exact h.log_lt e old
  case unlogged =>
    intro e mem
    rw [MigrateFromStatus.commit, find?_put]
    split_ifs with same
    · rfl
    · rcases (log e).mp mem with rfl | old
      · exact absurd rfl same
      · exact h.unlogged e old
  case entry =>
    exact h.entry.imp_right fun ⟨e, mem, last⟩ => ⟨e, (log e).mpr (.inr mem), last⟩
  case ascending => exact h.ascending
  case logged =>
    intro e mem
    exact ⟨(log e).mpr (.inr (h.logged e mem).1), (h.logged e mem).2⟩
  case accounted =>
    intro e mem
    rw [lost_iff]
    rcases (log e).mp mem with rfl | old
    · -- The entry the recipient starts from is a different one.
      have other : s.recipient.lastAppliedMigrateLogID ≠ id := by
        intro last
        rcases h.entry with first | ⟨e, logged, at_e⟩
        · omega
        · exact new e logged (by omega)
      rcases lt_or_gt_of_ne other with above | behind
      · exact .inr (.inl above)
      · exact .inr (.inr (.inr ⟨rfl, behind⟩))
    · rcases h.accounted e old with applied | above | gone
      · exact .inl applied
      · exact .inr (.inl above)
      · exact .inr (.inr (.inl gone))
  case skipped =>
    intro i gone
    rcases (lost_iff i).mp gone with old | ⟨rfl, behind⟩
    · obtain ⟨unapplied, e, mem, rfl⟩ := h.skipped i old
      exact ⟨unapplied, e, (log e).mpr (.inr mem), rfl⟩
    · exact ⟨⟨behind, fun e mem => new e (h.logged e mem).1⟩, (i, op), (log _).mpr (.inl rfl), rfl⟩

open MigrateStatus

/-- The highest id after a read is above every entry of the log. -/
theorem le_lastApplied (h : Sound events s)
    (mem : op ∈ s.recipient.applied ++ s.recipient.fresh s.donor.migratelog) :
    (op.1 : Int) ≤ ((s.recipient.fresh s.donor.migratelog).foldl .applyOp
      s.recipient).lastAppliedMigrateLogID := by
  rw [lastApplied_foldl]
  have sorted : (s.recipient.fresh s.donor.migratelog).Pairwise fun a b => a.1 < b.1 :=
    s.donor.migratelog.sorted.filter _
  cases last : (s.recipient.fresh s.donor.migratelog).getLast? with
  | none =>
    rw [List.getLast?_eq_none_iff.mp last, List.append_nil] at mem
    exact (h.logged op mem).2
  | some top =>
    obtain ⟨top_mem, le_top⟩ := rel_getLast sorted last
    dsimp only [Option.elim]
    rcases List.mem_append.mp mem with old | new
    · have := (h.logged op old).2
      have := (mem_fresh.mp top_mem).2
      omega
    · rcases le_top op new with rfl | lt
      · exact le_rfl
      · exact_mod_cast lt.le

theorem lastApplied_le (r : MigrateStatus Op) (migratelog : OrderedMap Nat Op) :
    r.lastAppliedMigrateLogID ≤
      ((r.fresh migratelog).foldl .applyOp r).lastAppliedMigrateLogID := by
  rw [lastApplied_foldl]
  cases last : (r.fresh migratelog).getLast? with
  | none => exact le_rfl
  | some top => exact (mem_fresh.mp (List.mem_of_getLast? last)).2.le

theorem transferMods (h : Sound events s) :
    Sound (events ++ [.transferMods]) { s with
      recipient := (s.recipient.fresh s.donor.migratelog).foldl .applyOp s.recipient } := by
  have lost_eq : lost (events ++ [.transferMods]) = lost events := by simp [Event.overtaken]
  have le := lastApplied_le s.recipient s.donor.migratelog
  constructor
  case pending_lt => exact h.pending_lt
  case log_lt => exact h.log_lt
  case unlogged => exact h.unlogged
  case entry =>
    rw [MigrateStatus.StartsAtEntry, lastApplied_foldl]
    cases last : (s.recipient.fresh s.donor.migratelog).getLast? with
    | none => exact h.entry
    | some top =>
      exact .inr ⟨top, (mem_fresh.mp (List.mem_of_getLast? last)).1, rfl⟩
  case ascending =>
    rw [applied_foldl]
    refine List.pairwise_append.mpr ⟨h.ascending, s.donor.migratelog.sorted.filter _, ?_⟩
    intro a old b new
    have := (h.logged a old).2
    have := (mem_fresh.mp new).2
    omega
  case logged =>
    intro op mem
    rw [applied_foldl] at mem
    refine ⟨?_, h.le_lastApplied mem⟩
    rcases List.mem_append.mp mem with old | new
    · exact (h.logged op old).1
    · exact (mem_fresh.mp new).1
  case accounted =>
    intro op mem
    rw [lost_eq, applied_foldl, List.mem_append]
    rcases h.accounted op mem with old | above | gone
    · exact .inl (.inl old)
    · exact .inl (.inr (mem_fresh.mpr ⟨mem, above⟩))
    · exact .inr (.inr gone)
  case skipped =>
    intro id gone
    obtain ⟨⟨below, unapplied⟩, logged⟩ := h.skipped id (lost_eq ▸ gone)
    refine ⟨⟨below.trans_le le, ?_⟩, logged⟩
    intro op mem
    rw [applied_foldl] at mem
    rcases List.mem_append.mp mem with old | new
    · exact unapplied op old
    · rintro rfl
      exact absurd (mem_fresh.mp new).2 below.asymm

theorem step {t : Migration Op} {e : Event Op} (h : Sound events s) (step : Step s e t) :
    Sound (events ++ [e]) t := by
  cases step with
  | startObjForMigrateLog =>
    refine h.donor_move rfl rfl (Nat.le_succ _) fun id started => ?_
    rw [startObjForMigrateLog, find?_put] at started
    dsimp only [startObjForMigrateLog]
    split_ifs at started with same
    · exact ⟨by omega, fun lt => absurd lt (by omega)⟩
    · exact ⟨(h.pending_lt id started).trans_le (Nat.le_succ _), fun _ => started⟩
  | writeObjToMigrateLog _ _ began =>
    refine h.donor_move rfl rfl le_rfl fun id started => ?_
    rw [writeObjToMigrateLog, find?_put] at started
    have before : (s.donor.pending.find? id).isSome := by
      split_ifs at started with same
      · simp [same, began]
      · exact started
    exact ⟨h.pending_lt id before, fun _ => before⟩
  | commit _ _ written => exact h.commit written
  | abort pending =>
    refine h.donor_move rfl rfl le_rfl fun id started => ?_
    rw [abort, find?_put] at started
    split_ifs at started with same
    · simp at started
    · exact ⟨h.pending_lt id started, fun _ => started⟩
  | transferMods done =>
    rw [transferMods_eq h.entry] at done
    obtain rfl := Option.some.inj done
    exact h.transferMods

theorem run {t : Migration Op} (run : Run Step Migration.start events t) : Sound events t :=
  run.history sound_start fun _ _ _ _ _ before step => before.step step

end Sound

/-- For every interleaving the reads' `verify`s hold, and after a last read the recipient has
applied every entry of the log exactly once if and only if no transaction committed after the
recipient had applied a higher id. -/
theorem applied_iff (run : Run Step Migration.start events s) :
    ∃ r, s.recipient.transferMods s.donor.migratelog = some r ∧
      (r.applied.Perm s.donor.migratelog.entries ↔
        ∀ id overtaken, Event.commit id overtaken ∈ events → overtaken = false) := by
  have before := Sound.run run
  have after := before.transferMods
  refine ⟨_, MigrateStatus.transferMods_eq before.entry, ?_⟩
  have once : ((s.recipient.fresh s.donor.migratelog).foldl .applyOp s.recipient).applied.Nodup :=
    after.ascending.imp fun lt same => absurd (same ▸ lt) (lt_irrefl _)
  rw [← lost_eq_nil, List.perm_ext_iff_of_nodup once s.donor.migratelog.nodup_entries,
    List.eq_nil_iff_forall_not_mem]
  constructor
  · intro all id gone
    obtain ⟨⟨-, unapplied⟩, op, logged, rfl⟩ := after.skipped id (by simpa using .inl gone)
    exact unapplied op ((all op).mpr logged) rfl
  · intro none op
    refine ⟨fun mem => (after.logged op mem).1, fun logged => ?_⟩
    rw [MigrateStatus.applied_foldl, List.mem_append]
    rcases before.accounted op logged with old | above | gone
    · exact .inl old
    · exact .inr (MigrateStatus.mem_fresh.mpr ⟨logged, above⟩)
    · exact absurd gone (none op.1)

/-- Two transactions that commit in the order of their ids, with reads in between: both entries
have been applied. -/
theorem applied_iff_in_order :
    ∃ (events : List (Event Nat)) (s : Migration Nat) (r : MigrateStatus Nat),
      Run Step Migration.start events s ∧ s.donor.migratelog.entries = [(0, 10), (1, 11)] ∧
      s.recipient.transferMods s.donor.migratelog = some r ∧
      r.applied.Perm [(0, 10), (1, 11)] := by
  have run : Run Step Migration.start [.startObjForMigrateLog, .startObjForMigrateLog,
      .writeObjToMigrateLog 0 10, .commit 0 false, .transferMods, .writeObjToMigrateLog 1 11,
      .commit 1 false] (_ : Migration Nat) :=
    .cons .startObjForMigrateLog <| .cons .startObjForMigrateLog <|
    .cons (.writeObjToMigrateLog 0 10 rfl) <| .cons (.commit 0 10 rfl) <|
    .cons (.transferMods rfl) <| .cons (.writeObjToMigrateLog 1 11 rfl) <|
    .cons (.commit 1 11 rfl) <| .nil _
  obtain ⟨r, read, iff⟩ := applied_iff run
  exact ⟨_, _, r, run, rfl, read, iff.mpr (by simp)⟩

/-- The first transaction commits after the entry of the second has been read. Its entry stays
in the log, and a last read with nothing open does not apply it. -/
theorem overtaken_entry_lost :
    ∃ (events : List (Event Nat)) (s : Migration Nat) (r : MigrateStatus Nat),
      Run Step Migration.start events s ∧ s.donor.pending.entries = [] ∧
      s.donor.migratelog.entries = [(0, 10), (1, 11)] ∧
      s.recipient.transferMods s.donor.migratelog = some r ∧ r.applied = [(1, 11)] := by
  have run := Run.cons (s := Migration.start) Step.startObjForMigrateLog <|
    .cons .startObjForMigrateLog <|
    .cons (.writeObjToMigrateLog 0 10 rfl) <|
    .cons (.writeObjToMigrateLog 1 11 rfl) <|
    .cons (.commit 1 11 rfl) <|
    .cons (.transferMods rfl) <|
    .cons (.commit 0 10 rfl) <|
    .nil (_ : Migration Nat)
  exact ⟨_, _, _, run, rfl, rfl, rfl, rfl⟩

end MigrateLog

end TokuMX.Sharding
