import TokuMX.Collection.CappedJournals

/-!
The statistics of a capped collection.

`_currentObjects` and `_currentSize` run ahead of the committed documents by what the open
transactions have counted. `gap` is what is left when both are taken off. Two events move
it: a root commits in which an insert or a delete threw, since it was counted before it threw
and a commit takes nothing back; and a transaction aborts in which an update shrank a
document, since the update was counted but not noted for the abort.

* `stats_exact_iff` — once no transaction is open, the statistics are exact if and only if
  all this adds up to nothing.
-/

namespace TokuMX.Collection.Capped

open TokuMX.Lib TokuMX.Txn OrderedMap

variable {C Key : Type} [LinearOrder C]

/-! ### What has been counted -/

def CappedCollection.stats (coll : CappedCollection) : ℤ × ℤ :=
  (coll.currentObjects, coll.currentSize)

/-- What an abort takes back. -/
def Rollback.delta (r : Rollback) : ℤ × ℤ := (r.context.nDelta, r.context.sizeDelta)

/-- What a transaction has changed the statistics by: what it noted, and its updates. -/
def CappedTxn.counted (txn : CappedTxn Key) : ℤ × ℤ := txn.rollback.delta + (0, txn.resized)

/-- What the innermost transaction of a client, aborted already, still has to take back. -/
def Client.owed : Client Key → ℤ × ℤ
  | .completing _ (.aborted r) => r.delta
  | _ => 0

def Client.counted (cl : Client Key) : ℤ × ℤ :=
  (cl.stack.map CappedTxn.counted).sum + cl.owed

/-- The statistics, less the committed documents and what the open transactions counted. -/
def System.gap (s : System C Key) : ℤ × ℤ :=
  s.coll.stats - s.docs.total Doc.weight - s.clients.total Client.counted

/-- What an event adds to the gap. -/
def Event.loss : Event C Key → ℤ × ℤ
  | .storageCommit _ threw => threw
  | .storageAbort _ shrunk => (0, shrunk)
  | _ => 0

/-- What a transaction has counted is what its writes and its failed inserts and deletes come to. -/
def CappedTxn.Balanced (txn : CappedTxn Key) : Prop :=
  txn.counted = (txn.changes.map (Change.net Doc.weight)).sum + txn.threw

def System.Balanced (s : System C Key) : Prop :=
  ∀ c cl, s.clients.find? c = some cl → ∀ txn ∈ cl.stack, txn.Balanced

@[simp] theorem stats_noteUncommittedPK (coll : CappedCollection) (r : Rollback) (pk : Nat) :
    (coll.noteUncommittedPK r pk).stats = coll.stats := by
  unfold CappedCollection.noteUncommittedPK
  split_ifs <;> rfl

theorem stats_noteComplete {coll coll' : CappedCollection} {minPK : Option Nat}
    (done : coll.noteComplete minPK = some coll') : coll'.stats = coll.stats := by
  rw [(CappedCollection.noteComplete_spec done).2]
  rfl

@[simp] theorem delta_noteInsert (r : Rollback) (pk size : Nat) :
    (r.noteInsert pk size).delta = r.delta + (1, (size : ℤ)) := rfl

@[simp] theorem delta_noteDelete (r : Rollback) (size : Nat) :
    (r.noteDelete size).delta = r.delta - (1, (size : ℤ)) := rfl

theorem delta_transfer (child parent : Rollback) :
    (Rollback.transfer child parent).delta = parent.delta + child.delta := by
  cases child with
  | none => simp [Rollback.transfer, Rollback.delta, Rollback.context]
  | some c => rfl

/-! ### Transactions -/

open CappedTxn

namespace CappedTxn

variable {txn : CappedTxn Key}

theorem balanced_fresh : (fresh : CappedTxn Key).Balanced := rfl

theorem counted_append (changes : List (Change Nat (Doc Key))) (r : Rollback) (threw : ℤ × ℤ) :
    (⟨txn.changes ++ changes, r, threw⟩ : CappedTxn Key).counted =
      txn.counted + (r.delta - txn.rollback.delta) + (0, (changes.map resize).sum) := by
  have both : ((0 : ℤ), ((txn.changes ++ changes).map resize).sum) =
      (0, txn.resized) + (0, (changes.map resize).sum) := by
    simp [resized]
  simp only [counted, resized, both]
  abel

/-- A write that is noted as what it is. -/
theorem Balanced.write {change : Change Nat (Doc Key)} {r : Rollback} (balanced : txn.Balanced)
    (noted : r.delta - txn.rollback.delta + (0, resize change) = change.net Doc.weight) :
    ({ txn with changes := txn.changes ++ [change], rollback := r } : CappedTxn Key).Balanced := by
  rw [Balanced, counted_append, balanced, List.map_singleton, List.sum_singleton, List.map_append,
    List.sum_append, List.map_singleton, List.sum_singleton, ← noted]
  abel

/-- An insert or a delete that is noted and throws. -/
theorem Balanced.throwing {r : Rollback} {weight : ℤ × ℤ} (balanced : txn.Balanced)
    (noted : r.delta = txn.rollback.delta + weight) :
    ({ txn with rollback := r, threw := txn.threw + weight } : CappedTxn Key).Balanced := by
  have before : txn.rollback.delta + (0, txn.resized) = _ := balanced
  rw [Balanced, counted, noted, ← add_assoc, ← before]
  simp only [resized]
  abel

theorem Balanced.transfer {child parent : CappedTxn Key} (left : child.Balanced)
    (right : parent.Balanced) :
    (⟨parent.changes ++ child.changes, Rollback.transfer child.rollback parent.rollback,
      parent.threw + child.threw⟩ : CappedTxn Key).Balanced := by
  have childCounted : child.rollback.delta + (0, child.resized) = _ := left
  have same : parent.rollback.delta + child.rollback.delta - parent.rollback.delta =
      child.rollback.delta := by
    abel
  rw [Balanced, counted_append, right, delta_transfer, List.map_append, List.sum_append, same,
    add_assoc _ child.rollback.delta, ← resized, childCounted]
  exact add_add_add_comm _ _ _ _

end CappedTxn

/-! ### Clients -/

namespace Client

variable {a : Active Key}

theorem counted_active (a : Active Key) :
    (active a).counted = a.top.counted + (a.parents.map CappedTxn.counted).sum := by
  simp [counted, stack, Active.stack, owed]

theorem counted_write (change : Change Nat (Doc Key)) (r : Rollback) (phase : Phase Key) :
    (active (a.write change r phase)).counted =
      (active a).counted + (r.delta - a.top.rollback.delta) + (0, resize change) := by
  simp only [counted_active, Active.write, CappedTxn.counted_append, List.map_singleton,
    List.sum_singleton]
  abel

/-- A write that replaces no document. -/
theorem counted_write_of_resize {change : Change Nat (Doc Key)} (r : Rollback) (phase : Phase Key)
    (none : resize change = 0) : (active (a.write change r phase)).counted =
      (active a).counted + (r.delta - a.top.rollback.delta) := by
  rw [counted_write, none, Prod.mk_zero_zero, add_zero]

theorem counted_throwing (r : Rollback) (weight : ℤ × ℤ) :
    (active (a.throwing r weight)).counted =
      (active a).counted + (r.delta - a.top.rollback.delta) := by
  simp only [counted_active, Active.throwing, CappedTxn.counted, CappedTxn.resized]
  abel

@[simp] theorem counted_fresh : (fresh : CappedTxn Key).counted = 0 := rfl

@[simp] theorem counted_begin : (active a.begin).counted = (active a).counted := by
  simp [counted_active, Active.begin, Active.stack]

section

variable (parents : List (CappedTxn Key))
include parents

theorem counted_committed (r : Rollback) :
    (completing parents (.committed r)).counted = (parents.map CappedTxn.counted).sum :=
  add_zero _

theorem counted_aborted (r : Rollback) :
    (completing parents (.aborted r)).counted = (parents.map CappedTxn.counted).sum + r.delta :=
  rfl

theorem counted_noted : (completing parents .noted).counted = (parents.map CappedTxn.counted).sum :=
  add_zero _

theorem counted_pop : (pop parents).elim 0 counted = (parents.map CappedTxn.counted).sum := by
  cases parents with
  | nil => rfl
  | cons parent parents => simp [pop, counted_active]

end

end Client

namespace System

variable {s t : System C Key} {c : C} {cl : Client Key} {a : Active Key}

open Client

section

variable (present : s.clients.find? c = some cl)
include present

/-- A step that changes one client and no committed row. -/
theorem gap_put (after : Option (Client Key)) (docs : t.docs = s.docs)
    (clients : t.clients = s.clients.put c after) :
    t.gap = s.gap + (t.coll.stats - s.coll.stats - (after.elim 0 counted - cl.counted)) := by
  rw [gap, gap, docs, clients, total_put, present, Option.elim_some]
  abel

/-- It moves nothing if it counts what the client counts. -/
theorem gap_keep (after : Option (Client Key)) (d : ℤ × ℤ) (docs : t.docs = s.docs)
    (clients : t.clients = s.clients.put c after) (stats : t.coll.stats = s.coll.stats + d)
    (counted : after.elim 0 counted = cl.counted + d) : t.gap = s.gap + 0 := by
  rw [gap_put present after docs clients, stats, counted, add_sub_cancel_left,
    add_sub_cancel_left, sub_self]

theorem gap_setClient (after : Option (Client Key)) :
    (s.setClient c after).gap = s.gap + (cl.counted - after.elim 0 counted) := by
  have moved := gap_put (t := s.setClient c after) present after rfl rfl
  rw [moved]
  simp only [setClient]
  abel

end

variable {phase : Phase Key}

/-- A step into another phase. -/
theorem gap_phase (present : s.clients.find? c = some (.active a)) (docs : t.docs = s.docs)
    (clients : t.clients = s.clients.put c (some (.active { a with phase })))
    (stats : t.coll.stats = s.coll.stats) : t.gap = s.gap + 0 :=
  gap_keep present _ 0 docs clients (stats.trans (add_zero _).symm) (add_zero _).symm

theorem Balanced.put (balanced : s.Balanced) (c : C) (after : Option (Client Key))
    (clients : t.clients = s.clients.put c after)
    (client : ∀ next, after = some next → ∀ txn ∈ next.stack, txn.Balanced) : t.Balanced := by
  intro d cl found
  rw [clients, find?_put] at found
  split_ifs at found with same
  · exact client cl found
  · exact balanced d cl found

/-- A step that leaves the outer transactions alone. -/
theorem Balanced.putTop (balanced : s.Balanced) (present : s.clients.find? c = some (.active a))
    {top : CappedTxn Key}
    (clients : t.clients = s.clients.put c (some (.active ⟨top, a.parents, phase⟩)))
    (inner : top.Balanced) : t.Balanced := by
  refine balanced.put c _ clients ?_
  rintro - ⟨⟩ txn mem
  rcases List.mem_cons.mp mem with rfl | mem
  · exact inner
  · exact balanced c _ present txn (List.mem_cons_of_mem _ mem)

theorem Balanced.top (balanced : s.Balanced) (present : s.clients.find? c = some (.active a)) :
    a.top.Balanced :=
  balanced c _ present a.top List.mem_cons_self

theorem Balanced.pop (balanced : s.Balanced) {parents : List (CappedTxn Key)}
    {completion : Completion} (present : s.clients.find? c = some (.completing parents completion))
    (clients : t.clients = s.clients.put c (pop parents)) : t.Balanced := by
  refine balanced.put c _ clients ?_
  intro next popped txn mem
  cases parents with
  | nil => cases popped
  | cons parent parents =>
    cases popped
    exact balanced c _ present txn mem

variable {pk : Nat} {doc : Doc Key}

theorem Balanced.delete (balanced : s.Balanced) (present : s.clients.find? c = some (.active a))
    (clients : t.clients = (s.deleteObject c a pk doc phase).clients) : t.Balanced := by
  refine balanced.putTop present clients ((balanced.top present).write ?_)
  rw [delta_noteDelete]
  simp [Change.net, Doc.weight, resize]

/-- Nothing is under a key that is about to be inserted. -/
theorem Sound.view_allocated (sound : s.Sound) (present : s.clients.find? c = some (.active a))
    (allocated : (active a).allocated = some pk) : (s.view a).find? pk = none := by
  obtain ⟨-, none, own⟩ := (sound.client c _ present).reserved pk allocated
  rw [view, find?_apply_of_ne own]
  exact none

theorem gap_delete (present : s.clients.find? c = some (.active a)) (docs : t.docs = s.docs)
    (clients : t.clients = (s.deleteObject c a pk doc phase).clients)
    (stats : t.coll.stats = s.coll.stats + (-1, -(doc.size : ℤ))) : t.gap = s.gap + 0 := by
  refine gap_keep present (some (.active _)) _ docs clients stats ?_
  rw [Option.elim_some, counted_write_of_resize _ _ rfl, delta_noteDelete]
  congr 1
  simp

theorem Opened.balanced (opened : s.Opened) : s.Balanced := by
  intro c cl found
  simp [opened.clients] at found

theorem exact_iff_gap (closed : t.clients = .empty) :
    (t.coll.currentObjects = t.docs.entries.length ∧
      t.coll.currentSize = (t.docs.entries.map fun e => e.2.size).sum) ↔ t.gap = 0 := by
  have weight : t.docs.total Doc.weight =
      ((t.docs.entries.length : ℤ), (((t.docs.entries.map fun e => e.2.size).sum : ℕ) : ℤ)) := by
    unfold total
    induction t.docs.entries with
    | nil => rfl
    | cons e entries ih =>
      rw [List.map_cons, List.sum_cons, ih]
      simp [Doc.weight, add_comm]
  rw [gap, closed, weight, total_empty, sub_zero, sub_eq_zero, Prod.ext_iff]
  simp [CappedCollection.stats]

section Steps

variable [DecidableEq Key] {limits : Limits} {e : Event C Key}

theorem Balanced.insert (balanced : s.Balanced) (present : s.clients.find? c = some (.active a))
    {checkPk fails : Bool} (coll : CappedCollection)
    (new : s.duplicate a pk doc checkPk = false → (s.view a).find? pk = none) :
    ({ s with coll }.checkUniqueAndInsert c a pk doc checkPk fails phase).Balanced := by
  unfold checkUniqueAndInsert
  dsimp only
  split_ifs with refused
  · exact balanced.putTop present rfl ((balanced.top present).throwing rfl)
  · simp only [Bool.or_eq_true, not_or, Bool.not_eq_true] at refused
    have none : (System.view { s with coll } a).find? pk = none := new refused.1
    rw [none]
    refine balanced.putTop present rfl ((balanced.top present).write ?_)
    rw [delta_noteInsert]
    simp [Change.net, Doc.weight, resize]

theorem view_of_not_duplicate (new : s.duplicate a pk doc true = false) :
    (s.view a).find? pk = none := by
  unfold duplicate at new
  simp only [Bool.true_and, Bool.or_eq_false_iff] at new
  exact Option.isNone_iff_eq_none.mp (by simpa using new.1)

theorem Balanced.step (sound : s.Sound) (balanced : s.Balanced) (step : Step limits s e t) :
    t.Balanced := by
  cases step.move with
  | beginRoot absent =>
    refine balanced.put _ (some _) rfl ?_
    rintro - ⟨⟩ txn mem
    obtain rfl := List.mem_singleton.mp mem
    exact balanced_fresh
  | beginChild present idle =>
    refine balanced.put _ (some _) rfl ?_
    rintro - ⟨⟩ txn mem
    rcases List.mem_cons.mp mem with rfl | mem
    · exact balanced_fresh
    · exact balanced _ _ present txn mem
  | getNextPK present idle fits => exact balanced.putTop present rfl (balanced.top present)
  | checkUniqueAndInsert present phase =>
    exact balanced.insert present s.coll fun _ =>
      sound.view_allocated present (allocated_of_phase phase)
  | insertObjectWithPK present idle free =>
    exact balanced.insert present _ fun new => view_of_not_duplicate new
  | phase _ present => exact balanced.putTop present rfl (balanced.top present)
  | trimNext present => exact balanced.delete present rfl
  | updateObject present idle free found noGrow =>
    refine balanced.putTop present rfl ((balanced.top present).write ?_)
    simp [Change.net, Doc.weight, resize]
  | deleteObjectWithPK present idle free found => exact balanced.delete present rfl
  | deleteThrows present found =>
    exact balanced.putTop present rfl
      ((balanced.top present).throwing ((delta_noteDelete _ _).trans (sub_eq_add_neg _ _)))
  | commitChild present idle nested =>
    have stack := balanced _ _ present
    simp only [Client.stack, Active.stack, nested, List.forall_mem_cons] at stack
    obtain ⟨inner, outer, others⟩ := stack
    refine balanced.put _ (some _) rfl ?_
    rintro - ⟨⟩ txn mem
    rcases List.mem_cons.mp mem with rfl | mem
    · exact inner.transfer outer
    · exact others txn mem
  | storageCommit present idle root =>
    refine balanced.put _ (some _) rfl ?_
    rintro - ⟨⟩ txn ⟨⟩
  | noteCommit present done => exact balanced.pop present rfl
  | storageAbort present idle =>
    refine balanced.put _ (some _) rfl ?_
    rintro - ⟨⟩ txn mem
    exact balanced _ _ present txn (List.mem_cons_of_mem _ mem)
  | @noteAbort c parents r coll present done =>
    cases r with
    | none => exact balanced.pop present rfl
    | some _ =>
      refine balanced.put _ (some _) rfl ?_
      rintro - ⟨⟩ txn mem
      exact balanced _ _ present txn mem
  | forgetLastDeleted present mutex => exact balanced.pop present rfl
  | minUnsafeKey => exact balanced

/-! ### The gap -/

theorem gap_insert (present : s.clients.find? c = some (.active a)) {checkPk fails : Bool}
    (coll : CappedCollection) (stats : coll.stats = s.coll.stats)
    (new : s.duplicate a pk doc checkPk = false → (s.view a).find? pk = none) :
    ({ s with coll }.checkUniqueAndInsert c a pk doc checkPk fails phase).gap = s.gap + 0 := by
  have noted : (a.top.rollback.noteInsert pk doc.size).delta - a.top.rollback.delta =
      (1, (doc.size : ℤ)) := by
    rw [delta_noteInsert]
    abel
  refine gap_keep present (some (.active _)) (1, doc.size) rfl rfl ?_ ?_
  · rw [← stats]
    rfl
  rw [Option.elim_some]
  split_ifs with refused
  · rw [counted_throwing, noted]
  · simp only [Bool.or_eq_true, not_or, Bool.not_eq_true] at refused
    have none : (System.view { s with coll } a).find? pk = none := new refused.1
    rw [counted_write_of_resize _ _ (by rw [none]; rfl), noted]

/-- What an event does to the gap. -/
theorem gap_step (sound : s.Sound) (balanced : s.Balanced) (step : Step limits s e t) :
    t.gap = s.gap + e.loss := by
  cases step.move with
  | beginRoot absent =>
    simp [gap, setClient, total_put, absent, counted_active, Event.loss]
  | beginChild present idle =>
    exact gap_keep present (some (.active _)) 0 rfl rfl (add_zero _).symm (by simp)
  | getNextPK present idle fits =>
    exact gap_phase present rfl rfl (stats_noteUncommittedPK _ _ _)
  | checkUniqueAndInsert present phase =>
    exact gap_insert present s.coll rfl fun _ =>
      sound.view_allocated present (allocated_of_phase phase)
  | insertObjectWithPK present idle free =>
    refine gap_insert present _ ?_ view_of_not_duplicate
    rw [stats_noteUncommittedPK]
    split_ifs <;> rfl
  | phase trims present =>
    have none : e.loss = 0 := by cases e <;> first | rfl | cases trims
    rw [none]
    exact gap_phase present rfl rfl rfl
  | trimNext present => exact gap_delete present rfl rfl rfl
  | @updateObject c a pk oldObj newObj present idle free found noGrow =>
    refine gap_keep present (some (.active _)) (0, newObj.size - oldObj.size) rfl rfl ?_ ?_
    · simp only [System.updateObject]
      split_ifs with shrinks
      · rfl
      · have same : (newObj.size : ℤ) - oldObj.size = 0 := by omega
        rw [same, Prod.mk_zero_zero, add_zero]
    · rw [Option.elim_some, counted_write, sub_self, add_zero]
      rfl
  | deleteObjectWithPK present idle free found => exact gap_delete present rfl rfl rfl
  | @deleteThrows c a pk obj present found =>
    refine gap_keep present (some (.active _)) (-1, -(obj.size : ℤ)) rfl rfl rfl ?_
    rw [Option.elim_some, counted_throwing, delta_noteDelete]
    congr 1
    simp
  | commitChild present idle nested =>
    refine gap_keep present (some (.active _)) 0 rfl rfl (add_zero _).symm ?_
    rw [Option.elim_some, counted_active, counted_active, CappedTxn.counted_append,
      delta_transfer, nested, List.map_cons, List.sum_cons]
    simp only [CappedTxn.counted, CappedTxn.resized]
    abel
  | @storageCommit c a present idle root =>
    have changes : (active a).changes = a.top.changes := by
      simp [changes_active, root]
    have fits := (sound.client c _ present).fits
    rw [changes] at fits
    have counted : a.top.counted = _ := balanced.top present
    simp only [gap, System.storageCommit, setClient, total_put, present,
      total_apply _ fits, Option.elim_some, counted_active,
      counted_committed, root, counted, Event.loss, List.map_nil, List.sum_nil]
    abel
  | noteCommit present done =>
    refine gap_keep present _ 0 rfl rfl ?_ ?_
    · exact (stats_noteComplete done).trans (add_zero _).symm
    · rw [counted_pop, counted_committed, add_zero]
  | storageAbort present idle =>
    rw [System.storageAbort, gap_setClient present, Option.elim_some, counted_aborted,
      counted_active, CappedTxn.counted]
    simp only [Event.loss]
    abel
  | @noteAbort c parents r coll present done =>
    refine gap_keep present _ (-r.delta) rfl rfl ?_ ?_
    · exact congrArg (· + -r.delta) (stats_noteComplete done)
    · rw [counted_aborted, add_neg_cancel_right]
      split_ifs
      · exact counted_noted parents
      · exact counted_pop parents
  | forgetLastDeleted present mutex =>
    refine gap_keep present _ 0 rfl rfl (add_zero _).symm ?_
    rw [counted_pop, counted_noted, add_zero]
  | minUnsafeKey => exact (add_zero _).symm

/-! ### Runs -/

/-- Along a run the gap is what the events add up to. -/
theorem gap_run {events : List (Event C Key)} (opened : s.Opened)
    (run : Run (Step limits) s events t) : t.gap = (events.map Event.loss).sum := by
  have every : t.Sound ∧ t.Balanced ∧ t.gap = (events.map Event.loss).sum := by
    refine run.history (P := fun events t => t.Sound ∧ t.Balanced ∧
      t.gap = (events.map Event.loss).sum) ?_ ?_
    · exact ⟨opened.sound, opened.balanced, (exact_iff_gap opened.clients).mp opened.exact⟩
    · rintro past m e t - ⟨sound, balanced, gap⟩ step
      refine ⟨sound.step step, balanced.step sound step, ?_⟩
      rw [gap_step sound balanced step, gap]
      simp
  exact every.2.2

/-- **Capped statistics.** Once no transaction is open, the statistics are exact if and only if
the documents whose insert threw in a root that committed, less those whose delete threw there,
and the bytes by which the updates of aborted transactions shrank documents add up to nothing. -/
theorem stats_exact_iff {events : List (Event C Key)} (opened : s.Opened)
    (run : Run (Step limits) s events t) (closed : t.clients = .empty) :
    (t.coll.currentObjects = t.docs.entries.length ∧
      t.coll.currentSize = (t.docs.entries.map fun e => e.2.size).sum) ↔
      (events.map Event.loss).sum = 0 := by
  rw [exact_iff_gap closed, gap_run opened run]

end Steps

/-! ### Runs that drift -/

/-- What is counted, and the sizes of what is there. -/
def tally (t : System ℕ ℕ) : ℤ × ℤ × List ℕ :=
  (t.coll.currentObjects, t.coll.currentSize, t.docs.entries.map fun e => e.2.size)

/-- Two documents are inserted and one of them is made smaller. -/
def quiet : List (Event ℕ ℕ) :=
  .begin 0 :: inserting 0 ⟨20, [1]⟩ ++ inserting 0 ⟨20, [2]⟩ ++ .updateObject 0 0 ⟨10, [1]⟩ ::
    committing 0 0

theorem stats_exact_iff_quiet :
    ∃ t, created.Opened ∧ Run (Step ⟨1000, 0⟩) created quiet t ∧ t.clients = .empty ∧
      (t.docs.entries.map fun e => e.2.size) = [10, 20] ∧
      t.coll.currentObjects = t.docs.entries.length ∧
      t.coll.currentSize = (t.docs.entries.map fun e => e.2.size).sum := by
  have seen : (closing quiet).map tally = some (2, 30, [10, 20]) := by decide +kernel
  obtain ⟨t, run, closed, same⟩ := run_of_closing seen
  refine ⟨t, opened_created, run, closed, congrArg (·.2.2) same,
    (stats_exact_iff opened_created run closed).mpr ?_⟩
  simp [quiet, inserting, committing, Event.loss]

/-- A bulk insert that keeps going: the second document has a key of the first. -/
def keepsGoing : List (Event ℕ ℕ) :=
  .begin 0 :: inserting 0 ⟨20, [1]⟩ ++
    [.getNextPK 0 ⟨20, [1]⟩ 20, .checkUniqueAndInsert 0 false] ++ inserting 0 ⟨20, [2]⟩ ++
    committing 0 (1, 20)

/-- A document is made smaller, and the update is aborted. -/
def undoesUpdate : List (Event ℕ ℕ) :=
  .begin 0 :: inserting 0 ⟨20, [1]⟩ ++ committing 0 0 ++
    [.begin 0, .updateObject 0 0 ⟨10, [1]⟩, .storageAbort 0 (-10), .noteAbort 0]

/-- Three documents of 60 bytes are counted where there are two of 40, and 10 bytes where
there are 20. -/
theorem stats_drift :
    (∃ t, Run (Step ⟨1000, 0⟩) created keepsGoing t ∧ t.clients = .empty ∧
      tally t = (3, 60, [20, 20])) ∧
    ∃ t, Run (Step ⟨1000, 0⟩) created undoesUpdate t ∧ t.clients = .empty ∧
      tally t = (1, 10, [20]) :=
  ⟨run_of_closing (by decide +kernel), run_of_closing (by decide +kernel)⟩

end System

end TokuMX.Collection.Capped
