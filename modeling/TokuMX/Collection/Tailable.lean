import TokuMX.Collection.CappedJournals

/-!
Tailable reads of a capped collection.

A tailing cursor reads up to `minUnsafeKey`. A transaction gives its first key to
`_uncommittedMinPKs` and takes it out when it is over, so on a primary, where keys come from
`getNextPK`, what a later commit makes visible is above every key that was ever read up to.
A child that commits hands its first key to its parent. A parent that has one already keeps
its own, and the child's stays in the set for good: readers never get past it.

* `Tracked` — the set holds the first keys of the open transactions and those that were
  dropped, each once, and a transaction has inserted nothing below its first key.
* `tailable_iff` — no commit shows a document behind a reader, and with nothing open
  `minUnsafeKey` is `_nextPK` if and only if no key was dropped.

Primary keys do not wrap around.
-/

namespace TokuMX.Collection.Capped

open TokuMX.Lib TokuMX.Txn

variable {C Key : Type} [LinearOrder C]

/-! ### First keys -/

def CappedTxn.firstKey (txn : CappedTxn Key) : Option Nat := txn.rollback.context.minPK

/-- The key in the set that the transaction has not noted yet. -/
def Active.pending (a : Active Key) : List Nat :=
  match a.phase with
  | .allocated pk _ _ => if a.top.rollback.hasNotedInsert then [] else [pk]
  | _ => []

def Completion.firstKey : Completion → Option Nat
  | .committed r | .aborted r => r.context.minPK
  | .noted => none

/-- The keys a client has in the set, the latest first. -/
def Client.firstKeys : Client Key → List Nat
  | .active a => a.pending ++ a.stack.filterMap CappedTxn.firstKey
  | .completing parents completion =>
    completion.firstKey.toList ++ parents.filterMap CappedTxn.firstKey

/-- The key that a child's commit gives to nobody. -/
def Event.dropped : Event C Key → Option Nat
  | .commitChild _ dropped => dropped
  | _ => none

/-- What happens on a primary: keys are allocated, not given. -/
def Event.Primary : Event C Key → Prop
  | .insertObjectWithPK .. => False
  | _ => True

/-- The transaction has inserted nothing below its first key. -/
def CappedTxn.Covered (txn : CappedTxn Key) : Prop :=
  ∀ change ∈ txn.changes, change.old = none → ∃ p, txn.firstKey = some p ∧ p ≤ change.key

/-- Inner transactions have later first keys, and none of them has inserted anything below
its own. -/
structure Client.Tracked (cl : Client Key) : Prop where
  ordered : cl.firstKeys.Pairwise (· > ·)
  covered : ∀ txn ∈ cl.stack, txn.Covered
  above : ∀ pk, cl.allocated = some pk → ∀ p ∈ cl.firstKeys, p ≤ pk

/-- How often a key is in the set. -/
def CappedCollection.tracks (coll : CappedCollection) (p : Nat) : Nat :=
  if p ∈ coll.uncommittedMinPKs then 1 else 0

/-- The set holds the first keys of the clients and the keys that were lost, each once. -/
structure System.Tracked (lost : List Nat) (s : System C Key) : Prop where
  client : ∀ c cl, s.clients.find? c = some cl → cl.Tracked
  counted : ∀ p, (s.coll.tracks p : ℤ) =
    s.clients.total (fun cl => (cl.firstKeys.count p : ℤ)) + lost.count p
  below : ∀ p ∈ s.coll.uncommittedMinPKs, p < s.coll.nextPK

theorem minPK_transfer (child parent : Rollback) :
    (Rollback.transfer child parent).context.minPK =
      parent.context.minPK.or child.context.minPK := by
  cases child with
  | none => simp [Rollback.transfer, Rollback.context]
  | some c => rfl

namespace CappedTxn

variable {txn : CappedTxn Key}

theorem covered_fresh : (fresh : CappedTxn Key).Covered := nofun

/-- A write that creates nothing, or nothing below the first key. -/
theorem Covered.write {change : Change Nat (Doc Key)} {r : Rollback} {threw : Int × Int}
    (covered : txn.Covered) (kept : ∀ p, txn.firstKey = some p → r.context.minPK = some p)
    (new : change.old = none → ∃ p, r.context.minPK = some p ∧ p ≤ change.key) :
    (⟨txn.changes ++ [change], r, threw⟩ : CappedTxn Key).Covered := by
  intro later mem created
  rcases List.mem_append.mp mem with mem | mem
  · obtain ⟨p, first, le⟩ := covered later mem created
    exact ⟨p, kept p first, le⟩
  · obtain rfl := List.mem_singleton.mp mem
    exact new created

theorem Covered.transfer {child parent : CappedTxn Key} {threw : Int × Int}
    (left : child.Covered) (right : parent.Covered)
    (ordered : ∀ p q, child.firstKey = some p → parent.firstKey = some q → q ≤ p) :
    (⟨parent.changes ++ child.changes, Rollback.transfer child.rollback parent.rollback, threw⟩ :
      CappedTxn Key).Covered := by
  intro change mem created
  rw [firstKey, minPK_transfer]
  rcases List.mem_append.mp mem with mem | mem
  · obtain ⟨q, first, le⟩ := right change mem created
    exact ⟨q, by rw [← firstKey, first]; rfl, le⟩
  · obtain ⟨p, first, le⟩ := left change mem created
    cases own : parent.firstKey with
    | none => exact ⟨p, by rw [← firstKey, own]; exact first, le⟩
    | some q => exact ⟨q, by rw [← firstKey, own]; rfl, (ordered p q first own).trans le⟩

end CappedTxn

/-! ### Clients -/

open CappedTxn

namespace Client

variable {a : Active Key} {cl : Client Key}

theorem firstKeys_active (a : Active Key) :
    (active a).firstKeys =
      a.pending ++ (a.top.firstKey.toList ++ a.parents.filterMap firstKey) := by
  rw [firstKeys, Active.stack, List.filterMap_cons]
  cases a.top.firstKey <;> rfl

theorem allocated_eq_none (phase : ∀ pk doc objsize, a.phase ≠ .allocated pk doc objsize) :
    (active a).allocated = none := by
  obtain ⟨top, parents, _ | ⟨pk, doc, objsize⟩ | _ | _ | _⟩ := a
  case allocated => exact absurd rfl (phase pk doc objsize)
  all_goals rfl

theorem pending_eq_nil (idle : (active a).allocated = none) : a.pending = [] := by
  obtain ⟨top, parents, _ | ⟨pk, doc, objsize⟩ | _ | _ | _⟩ := a
  case allocated => cases idle
  all_goals rfl

theorem firstKeys_idle (idle : a.phase = .idle) :
    (active a).firstKeys = a.top.firstKey.toList ++ a.parents.filterMap firstKey := by
  rw [firstKeys_active, pending_eq_nil (allocated_eq_none (by simp [idle])), List.nil_append]

theorem pending_of_phase {pk objsize : Nat} {doc : Doc Key}
    (phase : a.phase = .allocated pk doc objsize) :
    a.pending = if a.top.firstKey.isSome then [] else [pk] := by
  rw [Active.pending, phase]
  rfl

/-- The keys of a client, if it is there. -/
def keysOf (cl : Option (Client Key)) : List Nat := cl.elim [] firstKeys

theorem keysOf_pop (parents : List (CappedTxn Key)) :
    keysOf (pop parents) = parents.filterMap firstKey := by
  cases parents with
  | nil => rfl
  | cons parent rest =>
    rw [pop, keysOf, Option.elim_some, firstKeys_active, List.filterMap_cons]
    cases parent.firstKey <;> rfl

theorem stack_pop {parents : List (CappedTxn Key)} (popped : pop parents = some cl) :
    cl.stack = parents ∧ cl.allocated = none := by
  cases parents with
  | nil => cases popped
  | cons parent rest =>
    cases popped
    exact ⟨rfl, rfl⟩

/-- A client that has allocated nothing, whose keys are in the set already. -/
theorem Tracked.of_sublist {after : Client Key} (tracked : cl.Tracked)
    (keys : after.firstKeys.Sublist cl.firstKeys) (idle : after.allocated = none)
    (covered : ∀ txn ∈ after.stack, txn.Covered) : after.Tracked where
  ordered := tracked.ordered.sublist keys
  covered := covered
  above pk taken := by
    rw [idle] at taken
    cases taken

end Client

/-! ### Steps of a primary -/

/-- Nothing in the set, nor the next key, is below `minUnsafeKey`. -/
theorem CappedCollection.le_minUnsafeKey {coll : CappedCollection} {k : Nat}
    (below : ∀ p ∈ coll.uncommittedMinPKs, p < coll.nextPK) :
    k ≤ coll.minUnsafeKey ↔ k ≤ coll.nextPK ∧ ∀ p ∈ coll.uncommittedMinPKs, k ≤ p := by
  unfold minUnsafeKey
  split_ifs with some'
  · rw [Finset.le_min'_iff]
    refine (and_iff_right_of_imp fun all => ?_).symm
    obtain ⟨p, mem⟩ := some'
    exact (all p mem).trans (below p mem).le
  · rw [Finset.not_nonempty_iff_eq_empty] at some'
    simp [some']

open CappedCollection

theorem keys_noteComplete {coll coll' : CappedCollection} {minPK : Option Nat}
    (done : coll.noteComplete minPK = some coll') :
    coll.nextPK ≤ coll'.nextPK ∧
      ∀ p ∈ coll'.uncommittedMinPKs, p ∈ coll.uncommittedMinPKs ∨ coll.nextPK ≤ p := by
  obtain ⟨-, rfl⟩ := noteComplete_spec done
  refine ⟨le_rfl, fun p mem => .inl ?_⟩
  cases minPK with
  | none => exact mem
  | some q => exact Finset.mem_of_mem_erase mem

namespace System

variable {s t : System C Key} {c : C} {cl : Client Key} {a : Active Key} {lost lost' : List Nat}

open Client

section

variable (tracked : s.Tracked lost)
include tracked

/-- A key a client has is in the set. -/
theorem Tracked.mem (present : s.clients.find? c = some cl) {p : Nat} (mem : p ∈ cl.firstKeys) :
    p ∈ s.coll.uncommittedMinPKs := by
  have share := OrderedMap.le_total (f := fun cl : Client Key => cl.firstKeys.count p) present
  have positive := List.count_pos_iff.mpr mem
  have counted := tracked.counted p
  by_contra absent
  rw [tracks, if_neg absent] at counted
  omega

/-- A step that changes one client. -/
theorem Tracked.put (c : C) (after : Option (Client Key))
    (clients : t.clients = s.clients.put c after) (client : ∀ cl ∈ after, cl.Tracked)
    (below : ∀ p ∈ t.coll.uncommittedMinPKs, p < t.coll.nextPK)
    (counted : ∀ p, t.coll.tracks p + (keysOf (s.clients.find? c)).count p + lost.count p =
      s.coll.tracks p + (keysOf after).count p + lost'.count p) :
    t.Tracked lost' where
  client d cl found := by
    rw [clients, OrderedMap.find?_put] at found
    split_ifs at found with same
    · exact client cl found
    · exact tracked.client d cl found
  counted p := by
    have keys : ∀ o : Option (Client Key),
        o.elim 0 (fun cl => (cl.firstKeys.count p : ℤ)) = ((keysOf o).count p : ℤ) := by
      rintro (_ | cl) <;> rfl
    rw [clients, OrderedMap.total_put, keys, keys]
    have before := tracked.counted p
    have here := counted p
    omega
  below := below

/-- A step that leaves the keys of one client and the set as they are. -/
theorem Tracked.keep (present : s.clients.find? c = some cl) {after : Client Key}
    (clients : t.clients = s.clients.put c (some after))
    (set : t.coll.uncommittedMinPKs = s.coll.uncommittedMinPKs)
    (next : t.coll.nextPK = s.coll.nextPK) (keys : after.firstKeys = cl.firstKeys)
    (idle : after.allocated = none) (covered : ∀ txn ∈ after.stack, txn.Covered) :
    t.Tracked lost := by
  have old := tracked.client c cl present
  refine tracked.put c (some after) clients ?_ ?_ fun p => ?_
  · intro next same
    obtain rfl := Option.some.inj same
    exact old.of_sublist (keys ▸ List.Sublist.refl _) idle covered
  · rw [set, next]
    exact tracked.below
  · rw [tracks, set, present, tracks, keysOf, keysOf, Option.elim_some, Option.elim_some, keys]

section

variable (present : s.clients.find? c = some (.active a))
include present

/-- A step of the innermost transaction after which its first key is noted. -/
theorem Tracked.keepTop {top : CappedTxn Key} {phase : Phase Key}
    (clients : t.clients = s.clients.put c (some (.active ⟨top, a.parents, phase⟩)))
    (set : t.coll.uncommittedMinPKs = s.coll.uncommittedMinPKs)
    (next : t.coll.nextPK = s.coll.nextPK)
    (idle : (active ⟨top, a.parents, phase⟩).allocated = none)
    (first : top.firstKey.toList = a.pending ++ a.top.firstKey.toList) (covered : top.Covered) :
    t.Tracked lost := by
  refine tracked.keep present clients set next ?_ idle ?_
  · rw [firstKeys_active, firstKeys_active, pending_eq_nil idle, first,
      List.nil_append, List.append_assoc]
  · refine List.forall_mem_cons.mpr ⟨covered, fun txn mem => ?_⟩
    exact (tracked.client c _ present).covered txn (List.mem_cons_of_mem _ mem)

/-- Only the phase is another. -/
theorem Tracked.phase {phase : Phase Key}
    (clients : t.clients = s.clients.put c (some (.active { a with phase })))
    (set : t.coll.uncommittedMinPKs = s.coll.uncommittedMinPKs)
    (next : t.coll.nextPK = s.coll.nextPK)
    (before : ∀ pk doc objsize, a.phase ≠ .allocated pk doc objsize)
    (idle : (active { a with phase }).allocated = none) : t.Tracked lost := by
  refine tracked.keepTop present clients set next idle ?_
    ((tracked.client c _ present).covered a.top List.mem_cons_self)
  rw [pending_eq_nil (allocated_eq_none before), List.nil_append]

/-- A write of a row that is there. -/
theorem Tracked.rewrite {pk : Nat} {old : Doc Key} {new : Option (Doc Key)} {r : Rollback}
    {phase : Phase Key}
    (clients : t.clients = s.clients.put c (some (.active (a.write ⟨pk, some old, new⟩ r phase))))
    (set : t.coll.uncommittedMinPKs = s.coll.uncommittedMinPKs)
    (next : t.coll.nextPK = s.coll.nextPK)
    (before : ∀ pk doc objsize, a.phase ≠ .allocated pk doc objsize)
    (idle : (active (a.write ⟨pk, some old, new⟩ r phase)).allocated = none)
    (first : r.context.minPK = a.top.firstKey) : t.Tracked lost := by
  refine tracked.keepTop present clients set next idle ?_ ?_
  · rw [pending_eq_nil (allocated_eq_none before), List.nil_append, ← first]
    rfl
  · exact ((tracked.client c _ present).covered a.top List.mem_cons_self).write
      (fun p own => first.trans own) nofun

end

/-- A transaction is over: its first key leaves the set. -/
theorem Tracked.complete {parents : List (CappedTxn Key)} {completion : Completion}
    (present : s.clients.find? c = some (.completing parents completion))
    {after : Option (Client Key)} (clients : t.clients = s.clients.put c after)
    (set : t.coll.uncommittedMinPKs =
      completion.firstKey.elim s.coll.uncommittedMinPKs s.coll.uncommittedMinPKs.erase)
    (next : t.coll.nextPK = s.coll.nextPK)
    (keys : keysOf after = parents.filterMap firstKey)
    (rest : ∀ cl ∈ after, cl.stack = parents ∧ cl.allocated = none) : t.Tracked lost := by
  have old := tracked.client c _ present
  have less : t.coll.uncommittedMinPKs ⊆ s.coll.uncommittedMinPKs := by
    rw [set]
    cases completion.firstKey with
    | none => exact subset_rfl
    | some p => exact Finset.erase_subset _ _
  refine tracked.put c after clients ?_ ?_ fun p => ?_
  · intro cl mem
    obtain ⟨stack, idle⟩ := rest cl mem
    refine old.of_sublist ?_ idle (stack ▸ old.covered)
    have own : cl.firstKeys = parents.filterMap firstKey := by
      rw [← keys, mem, keysOf, Option.elim_some]
    rw [own]
    exact List.sublist_append_right _ _
  · rw [next]
    exact fun p mem => tracked.below p (less mem)
  · rw [present, keys, keysOf, Option.elim_some, firstKeys, List.count_append]
    cases first : completion.firstKey with
    | none =>
      rw [first, Option.elim_none] at set
      simp [tracks, set]
    | some q =>
      have mem : q ∈ s.coll.uncommittedMinPKs := tracked.mem present (by simp [firstKeys, first])
      rw [first, Option.elim_some] at set
      by_cases same : p = q
      · subst same
        simp [tracks, set, mem, add_comm]
      · simp [tracks, set, same, Ne.symm same]

theorem Tracked.getNextPK (present : s.clients.find? c = some (.active a))
    (idle : a.phase = .idle) (doc : Doc Key) (objsize : Nat) :
    (s.getNextPK c a doc objsize).Tracked lost := by
  have old := tracked.client c _ present
  have earlier : ∀ p ∈ (active a).firstKeys, p < s.coll.nextPK :=
    fun p mem => tracked.below p (tracked.mem present mem)
  have next : (s.getNextPK c a doc objsize).coll.nextPK = s.coll.nextPK + 1 := by
    simp [System.getNextPK]
  by_cases noted : a.top.rollback.hasNotedInsert
  · have set : (s.getNextPK c a doc objsize).coll.uncommittedMinPKs = s.coll.uncommittedMinPKs := by
      simp [System.getNextPK, noteUncommittedPK, noted]
    have keys : (active { a with phase := .allocated s.coll.nextPK doc objsize }).firstKeys =
        (active a).firstKeys := by
      simp [firstKeys_active, Active.pending, noted, idle]
    refine tracked.put c (some _) rfl ?_ ?_ fun p => ?_
    · rintro - ⟨⟩
      refine ⟨keys ▸ old.ordered, old.covered, ?_⟩
      rintro - ⟨⟩ p mem
      rw [keys] at mem
      exact (earlier p mem).le
    · rw [set, next]
      exact fun p mem => (tracked.below p mem).trans (Nat.lt_succ_self _)
    · rw [tracks, set, present, keysOf, keysOf, Option.elim_some, Option.elim_some, keys, tracks]
  · have set : (s.getNextPK c a doc objsize).coll.uncommittedMinPKs =
        insert s.coll.nextPK s.coll.uncommittedMinPKs := by
      simp [System.getNextPK, noteUncommittedPK, noted]
    have keys : (active { a with phase := .allocated s.coll.nextPK doc objsize }).firstKeys =
        s.coll.nextPK :: (active a).firstKeys := by
      simp [firstKeys_active, Active.pending, noted, idle]
    refine tracked.put c (some _) rfl ?_ ?_ fun p => ?_
    · rintro - ⟨⟩
      refine ⟨?_, old.covered, ?_⟩
      · rw [keys]
        exact List.pairwise_cons.mpr ⟨earlier, old.ordered⟩
      · rintro - ⟨⟩ p mem
        rw [keys] at mem
        rcases List.mem_cons.mp mem with rfl | mem
        · exact le_rfl
        · exact (earlier p mem).le
    · rw [set, next]
      intro p mem
      rcases Finset.mem_insert.mp mem with rfl | mem
      · exact Nat.lt_succ_self _
      · exact (tracked.below p mem).trans (Nat.lt_succ_self _)
    · have new : s.coll.nextPK ∉ s.coll.uncommittedMinPKs :=
        fun mem => absurd (tracked.below _ mem) (lt_irrefl _)
      rw [present, keysOf, keysOf, Option.elim_some, Option.elim_some, keys]
      by_cases same : p = s.coll.nextPK
      · subst same
        simp [tracks, set, new]
        omega
      · simp [tracks, set, same, Ne.symm same]

/-- The child's first key goes to the parent or is lost. -/
theorem Tracked.commitChild (present : s.clients.find? c = some (.active a))
    (idle : a.phase = .idle) {parent : CappedTxn Key} {rest : List (CappedTxn Key)}
    (nested : a.parents = parent :: rest) :
    (s.commitChild c a.top parent rest).Tracked
      (lost ++ (Rollback.dropped a.top.rollback parent.rollback).toList) := by
  have old := tracked.client c _ present
  have before : (active a).firstKeys = a.top.firstKey.toList ++
      (parent.firstKey.toList ++ rest.filterMap firstKey) := by
    rw [firstKeys_idle idle, nested, List.filterMap_cons]
    cases parent.firstKey <;> rfl
  have dropped : Rollback.dropped a.top.rollback parent.rollback =
      if parent.firstKey.isSome then a.top.firstKey else none := rfl
  set top : CappedTxn Key := ⟨parent.changes ++ a.top.changes,
    Rollback.transfer a.top.rollback parent.rollback, parent.threw + a.top.threw⟩
  have first : top.firstKey = parent.firstKey.or a.top.firstKey := minPK_transfer _ _
  have after : (active ⟨top, rest, .idle⟩).firstKeys =
      (parent.firstKey.or a.top.firstKey).toList ++ rest.filterMap firstKey := by
    rw [firstKeys_active, ← first]
    rfl
  have covered : ∀ txn ∈ a.parents, txn.Covered :=
    fun txn mem => old.covered txn (List.mem_cons_of_mem _ mem)
  rw [nested, List.forall_mem_cons] at covered
  have ordered := old.ordered
  rw [before] at ordered
  refine tracked.put c (some (.active ⟨top, rest, .idle⟩)) rfl ?_ tracked.below fun p => ?_
  · rintro - ⟨⟩
    refine old.of_sublist ?_ rfl (List.forall_mem_cons.mpr ⟨?_, covered.2⟩)
    · rw [before, after]
      cases parent.firstKey with
      | none => exact List.Sublist.refl _
      | some q => exact List.sublist_append_right _ _
    · refine CappedTxn.Covered.transfer (old.covered a.top List.mem_cons_self) covered.1 ?_
      intro p q child own
      rw [child, own] at ordered
      exact (List.rel_of_pairwise_cons ordered List.mem_cons_self).le
  · rw [present, keysOf, keysOf, Option.elim_some, Option.elim_some, before, after, dropped]
    cases parent.firstKey with
    | none => simp [System.commitChild, setClient]
    | some q => simp [System.commitChild, setClient, add_comm, add_left_comm, add_assoc]

end

theorem Opened.tracked (opened : s.Opened) : s.Tracked [] where
  client c cl found := by simp [opened.clients] at found
  counted p := by simp [opened.clients, opened.firstKeys, tracks]
  below p mem := by simp [opened.firstKeys] at mem

/-- With nothing open, the set holds the keys that were lost. -/
theorem Tracked.minUnsafeKey_iff (tracked : s.Tracked lost) (closed : s.clients = .empty) :
    s.coll.minUnsafeKey = s.coll.nextPK ↔ lost = [] := by
  have mem : ∀ p, p ∈ s.coll.uncommittedMinPKs ↔ p ∈ lost := by
    intro p
    have counted := tracked.counted p
    rw [closed, OrderedMap.total_empty, zero_add, Int.ofNat_inj] at counted
    rw [← List.count_pos_iff, ← counted, tracks]
    split_ifs with mem
    · simp [mem]
    · simp [mem]
  constructor
  · intro equal
    rw [List.eq_nil_iff_forall_not_mem]
    intro p lost
    have here := ((le_minUnsafeKey tracked.below).mp le_rfl).2 p ((mem p).mpr lost)
    exact absurd (tracked.below p ((mem p).mpr lost)) (not_lt.mpr (equal ▸ here))
  · rintro rfl
    have empty : s.coll.uncommittedMinPKs = ∅ :=
      Finset.eq_empty_of_forall_notMem fun p here => List.not_mem_nil ((mem p).mp here)
    simp [minUnsafeKey, empty]

section Steps

variable [DecidableEq Key] {limits : Limits} {e : Event C Key}

theorem Tracked.insert (tracked : s.Tracked lost)
    (present : s.clients.find? c = some (.active a)) {pk : Nat} {doc : Doc Key} {objsize : Nat}
    (phase : a.phase = .allocated pk doc objsize) (fails : Bool) :
    (s.checkUniqueAndInsert c a pk doc false fails (.inserted objsize)).Tracked lost := by
  have old := tracked.client c _ present
  have top := old.covered a.top List.mem_cons_self
  have taken := allocated_of_phase phase
  have keys : (a.top.firstKey.or (some pk)).toList = a.pending ++ a.top.firstKey.toList := by
    rw [pending_of_phase phase]
    cases a.top.firstKey <;> rfl
  have kept : ∀ p, a.top.firstKey = some p → a.top.firstKey.or (some pk) = some p := by
    intro p own
    rw [own]
    rfl
  have own : ∃ p, a.top.firstKey.or (some pk) = some p ∧ p ≤ pk := by
    cases firstKey : a.top.firstKey with
    | none => exact ⟨pk, rfl, le_rfl⟩
    | some p =>
      refine ⟨p, rfl, old.above pk taken p ?_⟩
      simp [firstKeys_active, firstKey]
  unfold checkUniqueAndInsert
  dsimp only
  split_ifs
  · refine tracked.keepTop present rfl rfl rfl rfl keys fun change mem created => ?_
    obtain ⟨p, firstKey, le⟩ := top change mem created
    exact ⟨p, kept p firstKey, le⟩
  · exact tracked.keepTop present rfl rfl rfl rfl keys (top.write kept fun _ => own)

theorem Tracked.step (tracked : s.Tracked lost) (step : Step limits s e t) (primary : e.Primary) :
    t.Tracked (lost ++ e.dropped.toList) := by
  have unchanged : e.dropped = none → lost ++ e.dropped.toList = lost := by
    intro none
    simp [none]
  cases step.move
  case commitChild present idle nested => exact tracked.commitChild present idle nested
  case insertObjectWithPK => exact primary.elim
  case phase present before after trims =>
    have none : e.dropped = none := by cases e <;> first | rfl | cases trims
    rw [unchanged none]
    exact tracked.phase present rfl rfl rfl before after
  all_goals rw [unchanged rfl]
  case beginRoot absent =>
    refine tracked.put _ (some _) rfl ?_ tracked.below fun p => ?_
    · rintro - ⟨⟩
      refine ⟨.nil, List.forall_mem_singleton.mpr covered_fresh, fun pk taken => ?_⟩
      cases taken
    · rw [absent]
      rfl
  case beginChild c a present idle =>
    refine tracked.keep present rfl rfl rfl ?_ rfl ?_
    · rw [firstKeys_idle idle, firstKeys_idle rfl, Active.begin, Active.stack, List.filterMap_cons]
      cases a.top.firstKey <;> rfl
    · exact List.forall_mem_cons.mpr ⟨covered_fresh, (tracked.client _ _ present).covered⟩
  case getNextPK present idle fits => exact tracked.getNextPK present idle _ _
  case checkUniqueAndInsert present phase => exact tracked.insert present phase _
  case trimNext present before free found after =>
    exact tracked.rewrite present rfl rfl rfl before after rfl
  case updateObject present idle free found noGrow =>
    refine tracked.rewrite present rfl ?_ ?_ (by simp [idle]) rfl rfl
    · simp only [System.updateObject]
      split_ifs <;> rfl
    · simp only [System.updateObject]
      split_ifs <;> rfl
  case deleteObjectWithPK present idle free found =>
    exact tracked.rewrite present rfl rfl rfl (by simp [idle]) rfl rfl
  case deleteThrows c a pk obj present found =>
    refine tracked.keepTop present rfl rfl rfl rfl ?_
      ((tracked.client c _ present).covered a.top List.mem_cons_self)
    rw [pending_eq_nil (allocated_eq_none fun pk doc objsize taken => ?_), List.nil_append]
    · rfl
    · simp [deleting?, taken] at found
  case storageCommit present idle root =>
    refine tracked.keep present rfl rfl rfl ?_ rfl (List.forall_mem_nil _)
    rw [firstKeys_idle idle, root]
    rfl
  case noteCommit present done =>
    obtain ⟨-, rfl⟩ := noteComplete_spec done
    exact tracked.complete present rfl rfl rfl (keysOf_pop _) fun _ => stack_pop
  case storageAbort present idle =>
    refine tracked.keep present rfl rfl rfl ?_ rfl fun txn mem => ?_
    · rw [firstKeys_idle idle]
      rfl
    · exact (tracked.client _ _ present).covered txn (List.mem_cons_of_mem _ mem)
  case noteAbort present done =>
    obtain ⟨-, rfl⟩ := noteComplete_spec done
    refine tracked.complete present rfl rfl rfl ?_ ?_
    · split_ifs
      · rfl
      · exact keysOf_pop _
    · split_ifs
      · rintro - ⟨⟩
        exact ⟨rfl, rfl⟩
      · exact fun _ => stack_pop
  case forgetLastDeleted present mutex =>
    exact tracked.complete present rfl rfl rfl (keysOf_pop _) fun _ => stack_pop
  case minUnsafeKey => exact tracked

/-- A key in the set was there before or is new. -/
theorem keys_step (step : Step limits s e t) (primary : e.Primary) :
    s.coll.nextPK ≤ t.coll.nextPK ∧
      ∀ p ∈ t.coll.uncommittedMinPKs, p ∈ s.coll.uncommittedMinPKs ∨ s.coll.nextPK ≤ p := by
  cases step.move with
  | @getNextPK c a doc objsize present idle fits =>
    refine ⟨by simp [System.getNextPK], fun p mem => ?_⟩
    simp only [System.getNextPK, noteUncommittedPK] at mem
    split_ifs at mem
    · exact .inl mem
    · rcases Finset.mem_insert.mp mem with rfl | mem
      · exact .inr le_rfl
      · exact .inl mem
  | insertObjectWithPK present idle free => exact primary.elim
  | updateObject present idle free found noGrow =>
    simp only [System.updateObject]
    split_ifs
    · exact ⟨le_rfl, fun p => .inl⟩
    · exact ⟨le_rfl, fun p => .inl⟩
  | noteCommit present done => exact keys_noteComplete done
  | noteAbort present done =>
    obtain ⟨next, keys⟩ := keys_noteComplete done
    exact ⟨next, keys⟩
  | _ => exact ⟨le_rfl, fun p => .inl⟩

/-- What has been read up to stays below every first key. -/
theorem minUnsafeKey_step (tracked : s.Tracked lost) (step : Step limits s e t)
    (primary : e.Primary) : s.coll.minUnsafeKey ≤ t.coll.minUnsafeKey := by
  obtain ⟨next, keys⟩ := keys_step step primary
  have here := (le_minUnsafeKey tracked.below).mp le_rfl
  refine (le_minUnsafeKey (tracked.step step primary).below).mpr
    ⟨here.1.trans next, fun p mem => ?_⟩
  rcases keys p mem with old | new
  · exact here.2 p old
  · exact here.1.trans new

/-- A root's commit shows nothing below the first key of the root. -/
theorem visible_storageCommit (sound : s.Sound) (tracked : s.Tracked lost) {threw : Int × Int}
    (commit : Step limits s (.storageCommit c threw) t) {pk : Nat} {doc : Doc Key}
    (visible : t.docs.find? pk = some doc) (new : s.docs.find? pk = none) :
    s.coll.minUnsafeKey ≤ pk := by
  cases commit.move with
  | phase trims => cases trims
  | @storageCommit c a present idle root =>
    have changes : (active a).changes = a.top.changes := by
      simp [changes_active, root]
    have fits := changes ▸ (sound.client c _ present).fits
    have shown : (s.docs.apply a.top.changes).find? pk ≠ none := by
      intro absent
      cases visible.symm.trans absent
    obtain ⟨change, mem, rfl, created⟩ := fits.creates new shown
    have top := (tracked.client c _ present).covered a.top List.mem_cons_self
    obtain ⟨p, first, le⟩ := top change mem created
    have tracks : p ∈ s.coll.uncommittedMinPKs :=
      tracked.mem present (by simp [firstKeys_idle idle, first])
    exact ((le_minUnsafeKey tracked.below).mp le_rfl).2 p tracks |>.trans le

/-! ### Runs of a primary -/

theorem Tracked.run {events : List (Event C Key)} (sound : s.Sound) (tracked : s.Tracked lost)
    (run : Run (Step limits) s events t) (primary : ∀ e ∈ events, e.Primary) :
    t.Sound ∧ t.Tracked (lost ++ events.filterMap Event.dropped) ∧
      s.coll.minUnsafeKey ≤ t.coll.minUnsafeKey := by
  induction run generalizing lost with
  | nil => exact ⟨sound, by simpa using tracked, le_rfl⟩
  | @cons s m t e events step _ ih =>
    rw [List.forall_mem_cons] at primary
    obtain ⟨soundAfter, trackedAfter, up⟩ :=
      ih (sound.step step) (tracked.step step primary.1) primary.2
    refine ⟨soundAfter, ?_, (minUnsafeKey_step tracked step primary.1).trans up⟩
    rw [List.append_assoc] at trackedAfter
    rw [List.filterMap_cons]
    cases dropped : e.dropped with
    | none => simpa [dropped] using trackedAfter
    | some p => simpa [dropped] using trackedAfter

/-- **Tailable reads on a primary.** At any point of any run, no later commit makes a document
visible below `minUnsafeKey`. With nothing open, `minUnsafeKey` is `_nextPK` if and only if no
child has committed whose first key its parent did not take. -/
theorem tailable_iff {events : List (Event C Key)} (opened : s.Opened)
    (run : Run (Step limits) s events t) (primary : ∀ e ∈ events, e.Primary) :
    (∀ later m c threw m', (∀ e ∈ later, Event.Primary e) → Run (Step limits) t later m →
      Step limits m (.storageCommit c threw) m' → ∀ pk doc, m'.docs.find? pk = some doc →
      pk < t.coll.minUnsafeKey → ∃ old, m.docs.find? pk = some old) ∧
    (t.clients = .empty →
      (t.coll.minUnsafeKey = t.coll.nextPK ↔ ∀ e ∈ events, e.dropped = none)) := by
  obtain ⟨sound, tracked, -⟩ := opened.tracked.run opened.sound run primary
  constructor
  · intro later m c threw m' primary after commit pk doc visible behind
    obtain ⟨sound, tracked, grown⟩ := tracked.run sound after primary
    rw [← Option.ne_none_iff_exists']
    intro new
    have above := visible_storageCommit sound tracked commit visible new
    omega
  · intro closed
    rw [tracked.minUnsafeKey_iff closed, List.nil_append, List.filterMap_eq_nil_iff]

end Steps

/-- The two ends of what is allocated. -/
def unsafeKeys (t : System ℕ ℕ) : ℕ × ℕ := (t.coll.minUnsafeKey, t.coll.nextPK)

/-- The client that has the first key commits last. -/
def overlapping : List (Event ℕ ℕ) :=
  [.begin 0, .begin 1, .getNextPK 0 ⟨20, [1]⟩ 20] ++ inserting 1 ⟨20, [2]⟩ ++ committing 1 0 ++
    [.minUnsafeKey 0, .checkUniqueAndInsert 0 false, .checkGorged 0] ++ committing 0 0

theorem tailable_iff_overlapping :
    ∃ t, created.Opened ∧ Run (Step ⟨1000, 0⟩) created overlapping t ∧
      (∀ e ∈ overlapping, e.Primary) ∧ t.clients = .empty ∧
      t.coll.minUnsafeKey = t.coll.nextPK ∧ t.coll.nextPK = 2 := by
  have seen : (closing overlapping).map unsafeKeys = some (2, 2) := by decide +kernel
  obtain ⟨t, run, closed, same⟩ := run_of_closing seen
  have primary : ∀ e ∈ overlapping, e.Primary := by
    simp [overlapping, inserting, committing, Event.Primary]
  refine ⟨t, opened_created, run, primary, closed, ?_, congrArg Prod.snd same⟩
  refine ((tailable_iff opened_created run primary).2 closed).mpr ?_
  simp [overlapping, inserting, committing, Event.dropped]

/-- Two upserts in one multi-statement transaction. -/
def upserts : List (Event ℕ ℕ) :=
  [.begin 0, .begin 0] ++ inserting 0 ⟨20, [1]⟩ ++ [.commitChild 0 none, .begin 0] ++
    inserting 0 ⟨20, [2]⟩ ++ .commitChild 0 (some 1) :: committing 0 0

/-- Both documents are there and nothing is open, but a reader never gets to the second. -/
theorem tailable_stalls :
    ∃ t, Run (Step ⟨1000, 0⟩) created upserts t ∧ t.clients = .empty ∧
      (t.coll.minUnsafeKey, t.coll.nextPK, t.docs.entries.map Prod.fst) = (1, 2, [0, 1]) :=
  run_of_closing (by decide +kernel)

end System

end TokuMX.Collection.Capped
