import Mathlib.Data.Finset.Option
import TokuMX.Collection.CappedJournals

/-!
Tailable reads of a capped collection on a secondary.

The applier inserts under the keys the primary allocated (`runCappedInsertFromOplog` in
`db/oplog_helpers.cpp`). It runs one transaction after the other, in the order in which they
committed there, and of each it tracks the first key. A transaction that allocated early and
committed late comes with keys below what has been read up to.

* `Watermark` — what a reader can see of the applier: the first key of its transaction and
  the next key. `Shows.step` says the collection moves with it.
* `ahead_applied` — no insert is behind the watermark if and only if the transactions come
  in the order of their keys.
* `appliedAhead_iff` — the same of the collection.

Primary keys do not wrap around.
-/

namespace TokuMX.Collection.Capped

open TokuMX.Lib TokuMX.Txn

variable {C Key : Type}

/-! ### The applier -/

/-- An operation of the oplog on the collection. An insert that fails is tried again. -/
inductive Applied (Key : Type) where
  | insert (pk : Nat) (doc : Doc Key) (fails : Bool)
  | delete (pk : Nat)

namespace Applied

def event (c : C) : Applied Key → Event C Key
  | insert pk doc fails => .insertObjectWithPK c pk doc fails
  | delete pk => .deleteObjectWithPK c pk

def key : Applied Key → Option Nat
  | insert pk _ _ => some pk
  | delete _ => none

/-- The document whose insert throws. -/
def threw : Applied Key → Int × Int
  | insert _ doc true => doc.weight
  | _ => 0

end Applied

/-- The keys a transaction inserts. -/
def keys (ops : List (Applied Key)) : List Nat := ops.filterMap Applied.key

/-- A transaction of the oplog is applied. -/
def applying (c : C) (ops : List (Applied Key)) : List (Event C Key) :=
  .begin c :: ops.map (Applied.event c) ++
    [.storageCommit c (ops.map Applied.threw).sum, .noteCommit c]

def applied (c : C) (txns : List (List (Applied Key))) : List (Event C Key) :=
  txns.flatMap (applying c)

def Event.inserted : Event C Key → Option Nat
  | .insertObjectWithPK _ pk _ _ => some pk
  | _ => none

/-- The keys that are still to be inserted. -/
def inserted (events : List (Event C Key)) : List Nat := events.filterMap Event.inserted

/-- The transactions come in the order of their keys, none of which had been given out, and
each has its least key first. -/
def InOrder (next : Nat) (txns : List (List (Applied Key))) : Prop :=
  (txns.Pairwise fun before after => ∀ p ∈ keys before, ∀ q ∈ keys after, p < q) ∧
    ∀ ops ∈ txns, ∀ p ∈ keys ops, next ≤ p ∧ ∀ first ∈ (keys ops).head?, first ≤ p

instance (next : Nat) (txns : List (List (Applied Key))) : Decidable (InOrder next txns) :=
  inferInstanceAs (Decidable (_ ∧ _))

/-- The next key after inserts under `ks`. -/
def bump (next : Nat) (ks : List Nat) : Nat := ks.foldl (fun next k => max next (k + 1)) next

theorem bump_le {next p : Nat} {ks : List Nat} : bump next ks ≤ p ↔ next ≤ p ∧ ∀ k ∈ ks, k < p := by
  induction ks generalizing next with
  | nil => simp [bump]
  | cons k ks ih =>
    rw [bump, List.foldl_cons, ← bump, ih, max_le_iff, List.forall_mem_cons, and_assoc]
    rfl

open Applied

theorem inserted_ops (c : C) (ops : List (Applied Key)) (events : List (Event C Key)) :
    inserted (ops.map (event c) ++ events) = keys ops ++ inserted events := by
  induction ops with
  | nil => rfl
  | cons op ops ih =>
    cases op with
    | insert pk doc fails => exact congrArg (pk :: ·) ih
    | delete pk => exact ih

theorem inserted_applying (c : C) (ops : List (Applied Key)) (events : List (Event C Key)) :
    inserted (applying c ops ++ events) = keys ops ++ inserted events := by
  rw [applying, List.append_assoc, List.cons_append]
  exact inserted_ops c ops _

theorem inserted_applied (c : C) (txns : List (List (Applied Key))) :
    inserted (applied c txns) = txns.flatMap keys := by
  induction txns with
  | nil => rfl
  | cons ops txns ih => rw [applied, List.flatMap_cons, inserted_applying, ← applied, ih]; rfl

/-! ### The watermark -/

/-- What is seen of the applier. -/
structure Watermark where
  first : Option Nat
  nextPK : Nat
  busy : Bool

variable [LinearOrder C]

namespace Watermark

def minUnsafeKey (w : Watermark) : Nat := w.first.getD w.nextPK

def step (c : C) (w : Watermark) : Event C Key → Option Watermark
  | .begin d => if d = c ∧ !w.busy then some { w with busy := true } else none
  | .insertObjectWithPK d pk _ _ =>
    if d = c ∧ w.busy then some ⟨w.first.or (some pk), max w.nextPK (pk + 1), true⟩ else none
  | .deleteObjectWithPK d _ | .storageCommit d _ => if d = c ∧ w.busy then some w else none
  | .noteCommit d => if d = c ∧ w.busy then some ⟨none, w.nextPK, false⟩ else none
  | _ => none

/-- No insert to come is behind the watermark, here and later. -/
def Ahead (c : C) : Watermark → List (Event C Key) → Prop
  | _, [] => True
  | w, e :: rest =>
    (∀ pk ∈ inserted (e :: rest), w.minUnsafeKey ≤ pk) ∧
      ∀ w', w.step c e = some w' → Ahead c w' rest

end Watermark

namespace Watermark

variable {c : C} {w : Watermark} {events : List (Event C Key)}

theorem Ahead.le (ahead : w.Ahead c events) : ∀ pk ∈ inserted events, w.minUnsafeKey ≤ pk := by
  cases events with
  | nil => nofun
  | cons e rest => exact ahead.1

theorem ahead_cons {w' : Watermark} {e : Event C Key} (done : w.step c e = some w') :
    w.Ahead c (e :: events) ↔
      (∀ pk ∈ inserted (e :: events), w.minUnsafeKey ≤ pk) ∧ w'.Ahead c events := by
  refine and_congr_right fun _ => ⟨fun all => all w' done, fun ahead w'' same => ?_⟩
  rw [done, Option.some.injEq] at same
  exact same ▸ ahead

/-- The rest of a transaction that has its first key. -/
theorem ahead_ops (f n : Nat) (ops : List (Applied Key)) :
    (⟨some f, n, true⟩ : Watermark).Ahead c (ops.map (event c) ++ events) ↔
      (∀ pk ∈ keys ops ++ inserted events, f ≤ pk) ∧
        (⟨some f, bump n (keys ops), true⟩ : Watermark).Ahead c events := by
  induction ops generalizing n with
  | nil => exact (and_iff_right_of_imp Ahead.le).symm
  | cons op ops ih =>
    have all : inserted (op.event c :: (ops.map (event c) ++ events)) =
        keys (op :: ops) ++ inserted events := inserted_ops c (op :: ops) events
    rw [List.map_cons, List.cons_append]
    cases op with
    | insert pk doc fails =>
      have done : (⟨some f, n, true⟩ : Watermark).step c ((insert pk doc fails).event c) =
          some ⟨some f, max n (pk + 1), true⟩ := if_pos ⟨rfl, rfl⟩
      rw [ahead_cons done, all, ih, ← and_assoc]
      refine and_congr_left' (and_iff_left_of_imp fun whole p mem => whole p ?_)
      exact List.mem_cons_of_mem _ mem
    | delete pk =>
      have done : (⟨some f, n, true⟩ : Watermark).step c
          ((delete pk : Applied Key).event c) = some ⟨some f, n, true⟩ :=
        if_pos ⟨rfl, rfl⟩
      rw [ahead_cons done, all, ih, ← and_assoc]
      exact and_congr_left' (and_iff_left_of_imp id)

/-- A transaction that has no key yet. -/
theorem ahead_txn (n : Nat) (ops : List (Applied Key)) :
    (⟨none, n, true⟩ : Watermark).Ahead c (ops.map (event c) ++ events) ↔
      (∀ pk ∈ keys ops ++ inserted events, n ≤ pk ∧ ∀ f ∈ (keys ops).head?, f ≤ pk) ∧
        (⟨(keys ops).head?, bump n (keys ops), true⟩ : Watermark).Ahead c events := by
  induction ops with
  | nil =>
    refine (and_iff_right_of_imp fun ahead pk mem => ⟨ahead.le pk mem, nofun⟩).symm
  | cons op ops ih =>
    have all : inserted (op.event c :: (ops.map (event c) ++ events)) =
        keys (op :: ops) ++ inserted events := inserted_ops c (op :: ops) events
    rw [List.map_cons, List.cons_append]
    cases op with
    | insert pk doc fails =>
      have done : (⟨none, n, true⟩ : Watermark).step c ((insert pk doc fails).event c) =
          some ⟨some pk, max n (pk + 1), true⟩ := if_pos ⟨rfl, rfl⟩
      rw [ahead_cons done, all, ahead_ops, ← and_assoc]
      apply and_congr_left'
      constructor
      · rintro ⟨low, first⟩ p mem
        refine ⟨low p mem, fun f head => ?_⟩
        obtain rfl := Option.some.inj head
        rcases List.mem_cons.mp mem with rfl | mem
        · exact le_rfl
        · exact first p mem
      · intro whole
        exact ⟨fun p mem => (whole p mem).1,
          fun p mem => (whole p (List.mem_cons_of_mem _ mem)).2 pk rfl⟩
    | delete pk =>
      have done : (⟨none, n, true⟩ : Watermark).step c
          ((delete pk : Applied Key).event c) = some ⟨none, n, true⟩ :=
        if_pos ⟨rfl, rfl⟩
      rw [ahead_cons done, all, ih, ← and_assoc]
      exact and_congr_left' (and_iff_right_of_imp fun whole p mem => (whole p mem).1)

/-- The end of a transaction. -/
theorem ahead_commit (first : Option Nat) (n : Nat) (threw : Int × Int) :
    (⟨first, n, true⟩ : Watermark).Ahead c (.storageCommit c threw :: .noteCommit c :: events) ↔
      (∀ pk ∈ inserted events, first.getD n ≤ pk) ∧
        (⟨none, n, false⟩ : Watermark).Ahead c events := by
  have commit : (⟨first, n, true⟩ : Watermark).step c (.storageCommit c threw : Event C Key) =
      some ⟨first, n, true⟩ := if_pos ⟨rfl, rfl⟩
  have note : (⟨first, n, true⟩ : Watermark).step c (.noteCommit c : Event C Key) =
      some ⟨none, n, false⟩ := if_pos ⟨rfl, rfl⟩
  rw [ahead_cons commit, ahead_cons note, ← and_assoc]
  exact and_congr_left' (and_self_iff (a := ∀ pk ∈ inserted events, first.getD n ≤ pk))

/-- The watermark takes every operation of a transaction. -/
theorem foldlM_ops (first : Option Nat) (n : Nat) (ops : List (Applied Key)) :
    (ops.map (event c)).foldlM (step c) ⟨first, n, true⟩ =
      some ⟨first.or (keys ops).head?, bump n (keys ops), true⟩ := by
  induction ops generalizing first n with
  | nil => simp [keys, bump]
  | cons op ops ih =>
    cases op with
    | insert pk doc fails =>
      rw [List.map_cons, List.foldlM_cons]
      simp only [event, step, and_self, if_true, Option.bind_eq_bind, Option.bind_some]
      rw [ih]
      cases first <;> rfl
    | delete pk =>
      rw [List.map_cons, List.foldlM_cons]
      simp only [event, step, and_self, if_true, Option.bind_eq_bind, Option.bind_some]
      rw [ih]
      rfl

theorem foldlM_applied (n : Nat) (txns : List (List (Applied Key))) :
    (applied c txns).foldlM (step c) ⟨none, n, false⟩ =
      some ⟨none, txns.foldl (fun n ops => bump n (keys ops)) n, false⟩ := by
  induction txns generalizing n with
  | nil => rfl
  | cons ops txns ih =>
    have whole : (applying c ops).foldlM (step c) ⟨none, n, false⟩ =
        some ⟨none, bump n (keys ops), false⟩ := by
      rw [applying, List.cons_append, List.foldlM_cons]
      simp [step, foldlM_ops]
    rw [applied, List.flatMap_cons, List.foldlM_append, whole]
    exact ih _

theorem ahead_applying (n : Nat) (ops : List (Applied Key)) :
    (⟨none, n, false⟩ : Watermark).Ahead c (applying c ops ++ events) ↔
      (∀ pk ∈ keys ops ++ inserted events, n ≤ pk ∧ ∀ f ∈ (keys ops).head?, f ≤ pk) ∧
        (⟨none, bump n (keys ops), false⟩ : Watermark).Ahead c events := by
  have begin : (⟨none, n, false⟩ : Watermark).step c (.begin c : Event C Key) =
      some ⟨none, n, true⟩ := if_pos ⟨rfl, rfl⟩
  have all : inserted (.begin c :: (ops.map (event c) ++
      (.storageCommit c (ops.map threw).sum :: .noteCommit c :: events))) =
      keys ops ++ inserted events := inserted_ops c ops _
  have rest : inserted (.storageCommit c (ops.map threw).sum :: .noteCommit c :: events) =
    inserted events := rfl
  rw [applying, List.append_assoc, List.cons_append, List.cons_append, List.cons_append,
    List.nil_append, ahead_cons begin, all, ahead_txn, ahead_commit, rest]
  constructor
  · rintro ⟨-, whole, -, ahead⟩
    exact ⟨whole, ahead⟩
  · rintro ⟨whole, ahead⟩
    refine ⟨fun p mem => (whole p mem).1, whole, fun p mem => ?_, ahead⟩
    have here := whole p (List.mem_append_right _ mem)
    cases ks : keys ops with
    | nil => exact here.1
    | cons f rest => exact here.2 f (by rw [ks]; rfl)

/-- The watermark of a whole list of transactions. -/
theorem ahead_applied (n : Nat) (txns : List (List (Applied Key))) :
    (⟨none, n, false⟩ : Watermark).Ahead c (applied c txns) ↔ InOrder n txns := by
  induction txns generalizing n with
  | nil => exact ⟨fun _ => ⟨.nil, nofun⟩, fun _ => trivial⟩
  | cons ops txns ih =>
    rw [applied, List.flatMap_cons, ahead_applying, ← applied, ih, inserted_applied]
    simp only [InOrder, bump_le, List.pairwise_cons, List.forall_mem_cons, List.mem_append,
      List.mem_flatMap]
    constructor
    · rintro ⟨here, order, later⟩
      refine ⟨⟨?_, order⟩, fun p mem => here p (.inl mem), ?_⟩
      · exact fun after mem p before q own => (later after mem q own).1.2 p before
      · exact fun after mem q own => ⟨(later after mem q own).1.1, (later after mem q own).2⟩
    · rintro ⟨⟨across, order⟩, own, later⟩
      refine ⟨?_, order, ?_⟩
      · rintro p (mem | ⟨after, mem, own'⟩)
        · exact own p mem
        · refine ⟨(later after mem p own').1, fun first head => ?_⟩
          exact (across after mem first (List.mem_of_mem_head? head) p own').le
      · exact fun after mem q own' => ⟨⟨(later after mem q own').1, fun k before =>
          across after mem k before q own'⟩, (later after mem q own').2⟩

end Watermark

/-! ### The collection -/

/-- The client is in a root transaction with the first key `first`, and in no call. -/
inductive Client.Root (first : Option Nat) : Client Key → Prop where
  | active {top : CappedTxn Key} (own : top.rollback.context.minPK = first) :
      Root first (.active ⟨top, [], .idle⟩)
  | committed {r : Rollback} (own : r.context.minPK = first) :
      Root first (.completing [] (.committed r))

/-- The watermark is that of the collection, whose only writer is `c`. -/
structure System.Shows (c : C) (w : Watermark) (s : System C Key) : Prop where
  set : s.coll.uncommittedMinPKs = w.first.toFinset
  next : s.coll.nextPK = w.nextPK
  client : if w.busy then ∃ cl, s.clients.find? c = some cl ∧ cl.Root w.first
    else s.clients.find? c = none ∧ w.first = none

namespace System

variable {s t : System C Key} {c : C} {w w' : Watermark}

open Watermark

theorem Shows.minUnsafeKey (shows : s.Shows c w) : s.coll.minUnsafeKey = w.minUnsafeKey := by
  rw [CappedCollection.minUnsafeKey, Watermark.minUnsafeKey, shows.next]
  cases first : w.first with
  | none => simp [shows.set, first]
  | some f => simp [shows.set, first]

theorem Shows.root (shows : s.Shows c w) (busy : w.busy) {cl : Client Key}
    (present : s.clients.find? c = some cl) : cl.Root w.first := by
  have client := shows.client
  rw [if_pos busy, present] at client
  obtain ⟨cl', same, root⟩ := client
  cases same
  exact root

theorem Shows.absent (shows : s.Shows c w) (idle : w.busy = false) :
    s.clients.find? c = none ∧ w.first = none := by
  have client := shows.client
  rwa [if_neg (by simp [idle])] at client

/-- The applier is in a transaction. -/
theorem Shows.working {cl : Client Key} (set : t.coll.uncommittedMinPKs = w.first.toFinset)
    (next : t.coll.nextPK = w.nextPK) (busy : w.busy)
    (clients : t.clients.find? c = some cl) (root : cl.Root w.first) : t.Shows c w :=
  ⟨set, next, by rw [if_pos busy]; exact ⟨cl, clients, root⟩⟩

section Steps

variable [DecidableEq Key] {limits : Limits} {e : Event C Key}

theorem Shows.insert (shows : s.Shows c w) (busy : w.busy) {a : Active Key} {pk : Nat}
    {doc : Doc Key} {fails : Bool} (present : s.clients.find? c = some (.active a)) :
    (s.insertObjectWithPK c a pk doc fails).Shows c
      ⟨w.first.or (some pk), max w.nextPK (pk + 1), true⟩ := by
  cases shows.root busy present with
  | @active top own =>
    refine Shows.working ?_ ?_ rfl (OrderedMap.find?_put_self _ _ _) ?_
    · have noted : top.rollback.hasNotedInsert = w.first.isSome := congrArg Option.isSome own
      have set : ∀ coll : CappedCollection, coll.uncommittedMinPKs = s.coll.uncommittedMinPKs →
          (coll.noteUncommittedPK top.rollback pk).uncommittedMinPKs =
            (w.first.or (some pk)).toFinset := by
        intro coll same
        rw [CappedCollection.noteUncommittedPK, noted]
        cases first : w.first with
        | none => simp [same, shows.set, first]
        | some f => simp [same, shows.set, first]
      refine set _ ?_
      split_ifs <;> rfl
    · simp only [System.insertObjectWithPK, System.checkUniqueAndInsert, nextPK_count,
        nextPK_noteUncommittedPK]
      split_ifs with above
      · exact (max_eq_right (shows.next ▸ above.trans (Nat.le_succ pk))).symm
      · rw [shows.next] at above ⊢
        exact (max_eq_left (not_le.mp above)).symm
    · have first : (top.rollback.noteInsert pk doc.size).context.minPK = w.first.or (some pk) := by
        rw [← own]
        rfl
      split_ifs <;> exact .active first

/-- The collection moves with its watermark. -/
theorem Shows.step (shows : s.Shows c w) (moved : Step limits s e t)
    (done : w.step c e = some w') : t.Shows c w' := by
  cases moved.move
  case phase trims => cases e <;> simp [Event.trims] at trims <;> cases done
  all_goals simp only [step, Option.ite_none_right_eq_some, Option.some.injEq, reduceCtorEq] at done
  case beginRoot absent =>
    obtain ⟨⟨rfl, idle⟩, rfl⟩ := done
    obtain ⟨-, first⟩ := shows.absent (by simpa using idle)
    have root : (Client.active ⟨.fresh, [], .idle⟩ : Client Key).Root w.first := .active first.symm
    exact Shows.working shows.set shows.next rfl (OrderedMap.find?_put_self _ _ _) root
  case beginChild present idle =>
    obtain ⟨⟨rfl, idle⟩, -⟩ := done
    obtain ⟨absent, -⟩ := shows.absent (by simpa using idle)
    rw [present] at absent
    cases absent
  case insertObjectWithPK present idle free =>
    obtain ⟨⟨rfl, busy⟩, rfl⟩ := done
    exact shows.insert busy present
  case deleteObjectWithPK present idle free found =>
    obtain ⟨⟨rfl, busy⟩, rfl⟩ := done
    obtain ⟨own⟩ := shows.root busy present
    exact Shows.working shows.set shows.next busy (OrderedMap.find?_put_self _ _ _) (.active own)
  case storageCommit present idle root =>
    obtain ⟨⟨rfl, busy⟩, rfl⟩ := done
    obtain ⟨own⟩ := shows.root busy present
    exact Shows.working shows.set shows.next busy (OrderedMap.find?_put_self _ _ _) (.committed own)
  case noteCommit present noted =>
    obtain ⟨⟨rfl, busy⟩, rfl⟩ := done
    cases shows.root busy present with
    | committed own =>
      obtain ⟨-, rfl⟩ := CappedCollection.noteComplete_spec noted
      refine ⟨?_, shows.next, OrderedMap.find?_put_self _ _ _, rfl⟩
      simp only [System.noteCommit, own, shows.set]
      cases w.first <;> simp

/-- Nothing is inserted behind a reader if and only if it is so of the watermark. -/
theorem Shows.ahead_iff {events : List (Event C Key)} (shows : s.Shows c w)
    (run : Run (Step limits) s events t) (taken : (events.foldlM (Watermark.step c) w).isSome) :
    (∀ past later a, events = past ++ later → Run (Step limits) s past a →
      ∀ pk ∈ inserted later, a.coll.minUnsafeKey ≤ pk) ↔ w.Ahead c events := by
  induction events generalizing s w with
  | nil =>
    refine ⟨fun _ => trivial, fun _ past later a split _ pk mem => ?_⟩
    obtain ⟨rfl, rfl⟩ := List.append_eq_nil_iff.mp split.symm
    cases mem
  | cons e events ih =>
    obtain ⟨m, step, rest⟩ := Run.cons_iff.mp run
    obtain ⟨w', done, taken⟩ : ∃ w', w.step c e = some w' ∧
        (events.foldlM (Watermark.step c) w').isSome := by
      rw [List.foldlM_cons, Option.bind_eq_bind, Option.isSome_bind, Option.any_eq_true] at taken
      exact taken
    rw [ahead_cons done, ← ih (shows.step step done) rest taken, ← shows.minUnsafeKey]
    constructor
    · intro all
      exact ⟨all [] (e :: events) s rfl (.nil s), fun past later a split before =>
        all (e :: past) later a (congrArg (e :: ·) split) (.cons step before)⟩
    · rintro ⟨here, after⟩ past later a split before
      cases past with
      | nil =>
        obtain rfl := Run.nil_iff.mp before
        rw [List.nil_append] at split
        exact split ▸ here
      | cons e' past =>
        obtain ⟨rfl, tail⟩ := List.cons.inj split
        obtain ⟨m', step', before⟩ := Run.cons_iff.mp before
        have same : m = m' := Option.some.inj (step.symm.trans step')
        exact after past later a tail (same ▸ before)

/-- **Tailable reads on a secondary.** Once `minUnsafeKey` has returned a key, nothing is
inserted below it, if and only if the transactions come in the order of their keys. -/
theorem appliedAhead_iff {txns : List (List (Applied Key))} (opened : s.Opened)
    (run : Run (Step limits) s (applied c txns) t) :
    (∀ past later a, applied c txns = past ++ later → Run (Step limits) s past a →
      ∀ pk ∈ inserted later, a.coll.minUnsafeKey ≤ pk) ↔ InOrder s.coll.nextPK txns := by
  have shows : s.Shows c ⟨none, s.coll.nextPK, false⟩ := by
    refine ⟨by simp [opened.firstKeys], rfl, ?_, rfl⟩
    rw [opened.clients]
    rfl
  rw [shows.ahead_iff run (Option.isSome_of_eq_some (Watermark.foldlM_applied _ txns)),
    Watermark.ahead_applied]

end Steps

/-- Two transactions, the second with later keys. -/
def ascending : List (List (Applied ℕ)) :=
  [[.insert 0 ⟨20, [1]⟩ false, .insert 2 ⟨20, [2]⟩ false], [.delete 0, .insert 3 ⟨20, [3]⟩ false]]

theorem appliedAhead_iff_ascending :
    ∃ t, created.Opened ∧ Run (Step ⟨1000, 0⟩) created (applied 0 ascending) t ∧
      (t.docs.entries.map Prod.fst) = [2, 3] ∧
      ∀ past later a, applied 0 ascending = past ++ later → Run (Step ⟨1000, 0⟩) created past a →
        ∀ pk ∈ inserted later, a.coll.minUnsafeKey ≤ pk := by
  have seen : (closing (applied 0 ascending)).map (fun t => t.docs.entries.map Prod.fst) =
      some [2, 3] := by decide +kernel
  obtain ⟨t, run, -, same⟩ := run_of_closing seen
  refine ⟨t, opened_created, run, same, (appliedAhead_iff opened_created run).mpr ?_⟩
  decide

/-- The transaction that allocated key 0 comes second. Once the first is applied, a reader is
told that everything below key 2 is there. -/
theorem applied_behind :
    ∃ t, Run (Step ⟨1000, 0⟩) created
        (applying 0 [.insert 1 ⟨20, [2]⟩ false] ++ .minUnsafeKey 2 ::
          applying 0 [.insert 0 ⟨20, [1]⟩ false]) t ∧
      t.clients = .empty ∧ t.docs.entries.map Prod.fst = [0, 1] :=
  run_of_closing (by decide +kernel)

end System

end TokuMX.Collection.Capped
