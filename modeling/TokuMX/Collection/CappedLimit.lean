import TokuMX.Collection.CappedJournals

/-!
The limits of a capped collection (`CappedCollection::checkGorged` and `trim` in
`db/collection.cpp`).

An insert that finds the collection over a limit deletes old documents until it is not, but
no more than it takes to make up for the new document. What has been made up for is counted
in bytes of primary keys, fifteen for each document, and not in bytes of documents. After
eight documents and as many bytes as the new one has it stops, and if the old documents were
smaller than that the collection stays over its limit. `insertObjectAndLogOps` also leaves the
`_id` it has added out of the size to make up for.

* `insertSized_keeps_iff` — with no other transaction open, an insert keeps the limits, the new
  document and all but the oldest documents exactly when the trim gets to the end of its work.
-/

namespace TokuMX.Collection.Capped

open TokuMX.Lib TokuMX.Txn OrderedMap

variable {C Key : Type} [LinearOrder C]

section Model

variable [DecidableEq Key] (limits : Limits)

namespace System

/-- What follows the insert in a call that no other client comes in between. -/
def finish (c : C) : Nat → System C Key → Option (System C Key)
  | 0, _ => none
  | fuel + 1, s =>
    match s.clients.find? c with
    | some (.active ⟨_, _, .idle⟩) => some s
    | some (.active ⟨_, _, .gorged _⟩) => (s.perform limits (.trim c)).bind (finish c fuel)
    | some (.active ⟨_, _, .trimming _ _ _ _⟩) =>
      (s.perform limits (.trimNext c)).bind (finish c fuel)
    | _ => none

/-- The insert of a document, with the size that `checkGorged` is told. -/
def insertSized (s : System C Key) (c : C) (doc : Doc Key) (objsize : Nat) :
    Option (System C Key) := do
  let a ← s.idle? c
  let allocated ← s.perform limits (.getNextPK c doc objsize)
  let inserted ← allocated.perform limits (.checkUniqueAndInsert c false)
  let checked ← inserted.perform limits (.checkGorged c)
  checked.finish limits c ((s.view a).size + 4)

/-- `insertObject`: the `_id` is added before anything else. -/
def insertObject (s : System C Key) (c : C) (doc : Doc Key) : Option (System C Key) :=
  s.insertSized limits c doc doc.size

/-- `insertObjectAndLogOps`: `checkGorged` is told the size of the object as it was passed, which
may be without `_id`. -/
def insertObjectAndLogOps (s : System C Key) (c : C) (doc : Doc Key) (passed : Nat) :
    Option (System C Key) :=
  s.insertSized limits c doc passed

end System

/-- The test at the end of a round of `trim`. -/
def stops (objsize : Nat) (n size : Int) (bytes objects : Nat) : Bool :=
  !limits.isGorged n size || (objsize ≤ bytes && System.trimK ≤ objects)

/-- How many of the rows from the cursor on the loop of `trim` deletes. -/
def trimmed (objsize : Nat) : Int → Int → Nat → Nat → List (Nat × Doc Key) → Nat
  | _, _, _, _, [] => 0
  | n, size, bytes, objects, e :: rows =>
    if stops limits objsize (n - 1) (size - e.2.size) (bytes + System.pkSize) (objects + 1) then 1
    else trimmed objsize (n - 1) (size - e.2.size) (bytes + System.pkSize) (objects + 1) rows + 1

end Model

/-! ### The loop -/

section Loop

variable {limits : Limits} {s : System C Key} {c : C} {a : Active Key}

/-- No other client has a transaction open. -/
def System.Alone (s : System C Key) (c : C) : Prop := ∀ d cl, s.clients.find? d = some cl → d = c

theorem System.Alone.free (alone : s.Alone c) (pk : Nat) : s.free c pk :=
  System.free_iff.mpr fun d other ne found => absurd (alone d other found) ne

theorem System.Alone.put {t : System C Key} (alone : s.Alone c) {cl : Option (Client Key)}
    (clients : t.clients = s.clients.put c cl) : t.Alone c := by
  intro d other found
  rw [clients, find?_put] at found
  split_ifs at found with same
  · exact same
  · exact alone d other found

theorem view_write (docs : OrderedMap Nat (Doc Key)) (change : Change Nat (Doc Key)) (r : Rollback)
    (phase : Phase Key) :
    docs.apply (Client.active (a.write change r phase)).changes =
      (docs.apply (Client.active a).changes).put change.key change.new := by
  rw [Client.changes_write, apply_append]
  rfl

variable {low rows : List (Nat × Doc Key)} {next : Nat}

theorem oldest_eq (alone : s.Alone c) (entries : (s.view a).entries = low ++ rows)
    (before : ∀ e ∈ low, e.1 < next) (onward : ∀ e ∈ rows, next ≤ e.1) :
    s.oldest c a next = rows.head? := by
  have skipped : low.find? (fun e => decide (next ≤ e.1) && s.free c e.1) = none := by
    rw [List.find?_eq_none]
    intro e he
    simp [before e he]
  rw [System.oldest, entries, List.find?_append, skipped, Option.none_or]
  cases rows with
  | nil => rfl
  | cons e rows =>
    have here : next ≤ e.1 := onward e List.mem_cons_self
    simp [here, alone.free e.1]

variable {objsize bytes objects : Nat}

/-- A round that finds a row: it is deleted, and the loop stops or goes on behind it. -/
theorem trimNext_found {e : Nat × Doc Key} (found : s.oldest c a next = some e) (limits : Limits) :
    ∃ t, s.trimNext limits c a objsize next bytes objects = t ∧ t.docs = s.docs ∧
      t.clients = s.clients.put c (some (.active
        (a.write ⟨e.1, some e.2, none⟩ (a.top.rollback.noteDelete e.2.size)
          (if stops limits objsize (s.coll.currentObjects - 1) (s.coll.currentSize - e.2.size)
              (bytes + System.pkSize) (objects + 1) then .idle
            else .trimming objsize (e.1 + 1) (bytes + System.pkSize) (objects + 1))))) ∧
      t.coll.currentObjects = s.coll.currentObjects - 1 ∧
      t.coll.currentSize = s.coll.currentSize - e.2.size := by
  obtain ⟨pk, doc⟩ := e
  rw [System.trimNext, found]
  exact ⟨_, rfl, rfl, rfl, rfl, rfl⟩

/-- A round that finds none. -/
theorem trimNext_none (none : s.oldest c a next = none) (limits : Limits) :
    ∃ t, s.trimNext limits c a objsize next bytes objects = t ∧ t.docs = s.docs ∧
      t.clients = s.clients.put c (some (.active { a with phase := .idle })) := by
  rw [System.trimNext, none]
  exact ⟨_, rfl, rfl, rfl⟩

variable {top : CappedTxn Key} {parents : List (CappedTxn Key)}

section

variable [DecidableEq Key]

theorem finish_idle (present : s.clients.find? c = some (.active ⟨top, parents, .idle⟩))
    (fuel : Nat) :
    s.finish limits c (fuel + 1) = some s ∧ s.idle? c = some ⟨top, parents, .idle⟩ := by
  constructor
  · rw [System.finish, present]
  · rw [System.idle?, present]

theorem finish_trimNext (present : s.clients.find? c = some (.active ⟨top, parents,
      .trimming objsize next bytes objects⟩))
    (fuel : Nat) :
    s.finish limits c (fuel + 1) =
      (s.trimNext limits c ⟨top, parents, .trimming objsize next bytes objects⟩
        objsize next bytes objects).finish limits c fuel := by
  rw [System.finish, present]
  simp only [System.perform, present, Option.bind_some]

/-- The loop deletes the first rows from the cursor on. -/
theorem finish_trimming {fuel : Nat} (present : s.clients.find? c = some (.active ⟨top, parents,
      .trimming objsize next bytes objects⟩))
    (alone : s.Alone c)
    (entries : (s.view ⟨top, parents, .trimming objsize next bytes objects⟩).entries = low ++ rows)
    (before : ∀ e ∈ low, e.1 < next) (onward : ∀ e ∈ rows, next ≤ e.1)
    (enough : rows.length + 2 ≤ fuel) :
    ∃ t a, s.finish limits c fuel = some t ∧ t.idle? c = some a ∧
      (t.view a).entries = low ++ rows.drop (trimmed limits objsize s.coll.currentObjects
        s.coll.currentSize bytes objects rows) := by
  induction rows generalizing s top parents next bytes objects fuel with
  | nil =>
    obtain ⟨fuel, rfl⟩ : ∃ more, fuel = more + 2 := ⟨fuel - 2, by simp at enough; omega⟩
    have none : s.oldest c ⟨top, parents, .trimming objsize next bytes objects⟩ next = none :=
      oldest_eq alone entries before onward
    obtain ⟨t, round, docs, clients⟩ := trimNext_none none limits
    rw [finish_trimNext present, round]
    obtain ⟨done, now⟩ := finish_idle (by rw [clients, find?_put_self]) fuel
    exact ⟨t, _, done, now, by rw [System.view, docs]; exact entries⟩
  | cons e rows ih =>
    obtain ⟨fuel, rfl⟩ : ∃ more, fuel = more + 2 := ⟨fuel - 2, by simp at enough; omega⟩
    have found : s.oldest c ⟨top, parents, .trimming objsize next bytes objects⟩ next = some e :=
      oldest_eq alone entries before onward
    obtain ⟨t, round, docs, clients, count, size⟩ := trimNext_found found limits
    have sorted : (e :: rows).Pairwise fun a b => a.1 < b.1 := by
      have all := (s.view ⟨top, parents, .trimming objsize next bytes objects⟩).sorted
      rw [entries] at all
      exact (List.pairwise_append.mp all).2.1
    -- the row is gone from what the client sees
    have deleted : ∀ r phase, (t.view (Active.write
        ⟨top, parents, .trimming objsize next bytes objects⟩ ⟨e.1, some e.2, none⟩ r
          phase)).entries = low ++ rows := by
      intro r phase
      rw [System.view, docs, view_write]
      exact erase_of_entries entries
    rw [finish_trimNext present, round, trimmed]
    split_ifs at clients ⊢ with stop
    · obtain ⟨done, now⟩ := finish_idle (by rw [clients, find?_put_self]; rfl) fuel
      exact ⟨t, _, done, now, deleted _ _⟩
    · rw [← count, ← size, List.drop_succ_cons]
      refine ih (by rw [clients, find?_put_self]; rfl) (alone.put clients)
        (deleted _ _) ?_ ?_ (by simp at enough; omega)
      · intro b hb
        have below := before b hb
        have here := onward e List.mem_cons_self
        omega
      · exact (List.pairwise_cons.mp sorted).1

/-! ### How many rows that are -/

end

def totalSize (docs : List (Nat × Doc Key)) : Int := (docs.map fun e => (e.2.size : Int)).sum

/-- Whether some documents are over a limit. -/
def overLimit (limits : Limits) (docs : List (Nat × Doc Key)) : Bool :=
  limits.isGorged docs.length (totalSize docs)

/-- Whether `trim` stops after it has deleted the first `k` of some documents: the counters are
within the limits, or it has done its part. -/
def stopsAfter (limits : Limits) (objsize : Nat) (n size : Int) (docs : List (Nat × Doc Key))
    (k : Nat) : Bool :=
  stops limits objsize (n - k) (size - totalSize (docs.take k)) (k * System.pkSize) k

theorem totalSize_nonneg (docs : List (Nat × Doc Key)) : 0 ≤ totalSize docs := by
  refine List.sum_nonneg fun size mem => ?_
  obtain ⟨e, -, rfl⟩ := List.mem_map.mp mem
  exact Int.natCast_nonneg _

theorem totalSize_append (l r : List (Nat × Doc Key)) : totalSize (l ++ r) =
    totalSize l + totalSize r := by
  simp [totalSize]

variable {docs : List (Nat × Doc Key)}

/-- Fewer documents are not over a limit that more are within. -/
theorem overLimit_drop {limits : Limits} (within : overLimit limits docs = false) (k : Nat) :
    overLimit limits (docs.drop k) = false := by
  have length : (docs.drop k).length ≤ docs.length := by simp
  have size : totalSize (docs.drop k) ≤ totalSize docs := by
    have parts := totalSize_append (docs.take k) (docs.drop k)
    rw [List.take_append_drop] at parts
    have := totalSize_nonneg (docs.take k)
    omega
  simp only [overLimit, Limits.isGorged, decide_eq_false_iff_not] at within ⊢
  omega

variable {k : Nat}

/-- The loop stops at the first number of rows at which it may, or at the end. -/
theorem trimmed_spec {n size : Int} (count : trimmed limits objsize n size bytes objects rows = k)
    (some : rows ≠ []) :
    1 ≤ k ∧ k ≤ rows.length ∧
      (∀ i, 1 ≤ i → i < k → stops limits objsize (n - i) (size - totalSize (rows.take i))
        (bytes + i * System.pkSize) (objects + i) = false) ∧
      (k < rows.length → stops limits objsize (n - k) (size - totalSize (rows.take k))
        (bytes + k * System.pkSize) (objects + k) = true) := by
  induction rows generalizing n size bytes objects k with
  | nil => exact absurd rfl some
  | cons e rows ih =>
    have shift : ∀ i : Nat, stops limits objsize (n - (i + 1 : Nat))
        (size - totalSize ((e :: rows).take (i + 1))) (bytes + (i + 1) * System.pkSize)
        (objects + (i + 1)) = stops limits objsize (n - 1 - i)
          (size - e.2.size - totalSize (rows.take i)) (bytes + System.pkSize + i * System.pkSize)
          (objects + 1 + i) := by
      intro i
      have first : totalSize ((e :: rows).take (i + 1)) = e.2.size + totalSize (rows.take i) := by
        simp [totalSize]
      have counters : n - (i + 1 : Nat) = n - 1 - i ∧ size - totalSize ((e :: rows).take (i + 1)) =
            size - e.2.size - totalSize (rows.take i) := by
        omega
      rw [counters.1, counters.2, Nat.succ_mul, Nat.add_comm (i * System.pkSize), Nat.add_comm i,
        Nat.add_assoc, Nat.add_assoc]
    rw [trimmed] at count
    split_ifs at count with stop
    · subst count
      refine ⟨le_rfl, by simp, fun i low high => by omega, fun _ => ?_⟩
      simpa [totalSize] using stop
    · have going : stops limits objsize (n - (1 : Nat)) (size - totalSize ((e :: rows).take 1))
          (bytes + 1 * System.pkSize) (objects + 1) = false := by
        simpa [totalSize] using stop
      subst count
      cases rows with
      | nil => exact ⟨by simp, by simp [trimmed], fun i low high => by
        simp [trimmed] at high; omega, fun short => by simp [trimmed] at short⟩
      | cons e' rows =>
        obtain ⟨low, high, none, last⟩ := ih rfl (by simp)
        refine ⟨by omega, by simp at high ⊢; omega, fun i hi below => ?_, fun short => ?_⟩
        · obtain ⟨i, rfl⟩ := Nat.exists_eq_add_of_le' hi
          rcases Nat.eq_zero_or_pos i with rfl | pos
          · exact going
          · rw [shift]
            exact none i pos (by omega)
        · rw [shift]
          exact last (by simp at short ⊢; omega)

/-! ### The insert -/

/-- What an insert is to leave: documents within the limits, the new one among them, and of the
others all but the oldest. -/
structure Keeps (limits : Limits) (old : List (Nat × Doc Key)) (new : Nat × Doc Key)
    (after : List (Nat × Doc Key)) : Prop where
  within : overLimit limits after = false
  contains : new ∈ after
  oldest : ∃ k, after = (old ++ [new]).drop k

/-- With `n` and `size` the counters after the insert and `start` the last key deleted. Either
there is nothing to trim, and the documents are within the limits. Or no document is below
`start`; wherever the trim may stop, what is left is within the limits; and it may stop before
the new document. -/
def TrimSuffices (limits : Limits) (objsize start : Nat) (n size : Int)
    (docs : List (Nat × Doc Key)) : Prop :=
  if limits.isGorged n size = true ∧ ∃ e ∈ docs, start ≤ e.1 then
    (∀ e ∈ docs, start ≤ e.1) ∧
      (∀ k, 1 ≤ k → stopsAfter limits objsize n size docs k = true →
        overLimit limits (docs.drop k) = false) ∧
      ∃ k, 1 ≤ k ∧ k < docs.length ∧ stopsAfter limits objsize n size docs k = true
  else overLimit limits docs = false

/-- The rows below a key, and those from it on. -/
theorem split_at (sorted : docs.Pairwise fun a b => a.1 < b.1) (start : Nat) :
    ∃ low rows, docs = low ++ rows ∧ (∀ e ∈ low, e.1 < start) ∧ ∀ e ∈ rows, start ≤ e.1 := by
  induction docs with
  | nil => exact ⟨[], [], rfl, by simp, by simp⟩
  | cons e docs ih =>
    obtain ⟨first, rest⟩ := List.pairwise_cons.mp sorted
    by_cases below : e.1 < start
    · obtain ⟨low, rows, rfl, before, onward⟩ := ih rest
      exact ⟨e :: low, rows, rfl, List.forall_mem_cons.mpr ⟨below, before⟩, onward⟩
    · refine ⟨[], e :: docs, rfl, by simp, List.forall_mem_cons.mpr ⟨not_lt.mp below, ?_⟩⟩
      intro a ha
      exact (not_lt.mp below).trans (first a ha).le

/-- A trim that deletes anything where it does not start with the oldest document does not leave
a back part of the documents. -/
theorem not_drop_of_low {j : Nat} (pos : 1 ≤ k) (sorted : docs.Pairwise fun a b => a.1 < b.1)
    (parts : docs = low ++ rows) (some : low ≠ []) (inside : k ≤ rows.length) :
    low ++ rows.drop k ≠ docs.drop j := by
  intro same
  cases low with
  | nil => exact some rfl
  | cons e low =>
    subst parts
    cases j with
    | zero =>
      have lengths := congrArg List.length same
      simp only [List.drop_zero, List.length_append, List.length_drop] at lengths
      omega
    | succ j =>
      have mem : e ∈ (low ++ rows).drop j := by
        rw [List.cons_append, List.cons_append, List.drop_succ_cons] at same
        rw [← same]
        exact List.mem_cons_self
      exact absurd ((List.pairwise_cons.mp sorted).1 e (List.mem_of_mem_drop mem)) (lt_irrefl _)

theorem mem_drop_last {old : List (Nat × Doc Key)} {new : Nat × Doc Key}
    (inside : k < (old ++ [new]).length) : new ∈ (old ++ [new]).drop k := by
  rw [List.length_append, List.length_singleton] at inside
  rw [List.drop_append_of_le_length (by omega)]
  simp

/-- What the loop leaves is as it should be exactly if the trim suffices. -/
theorem keeps_iff_of_trimmed {old : List (Nat × Doc Key)} {new : Nat × Doc Key} {start : Nat}
    {n size : Int} (sorted : (old ++ [new]).Pairwise fun a b => a.1 < b.1)
    (parts : old ++ [new] = low ++ rows) (before : ∀ e ∈ low, e.1 < start)
    (onward : ∀ e ∈ rows, start ≤ e.1) (some : rows ≠ [])
    (count : trimmed limits objsize n size 0 0 rows = k) :
    Keeps limits old new (low ++ rows.drop k) ↔ (∀ e ∈ old ++ [new], start ≤ e.1) ∧
        (∀ i, 1 ≤ i → stopsAfter limits objsize n size (old ++ [new]) i = true →
          overLimit limits ((old ++ [new]).drop i) = false) ∧
        ∃ i, 1 ≤ i ∧ i < (old ++ [new]).length ∧
          stopsAfter limits objsize n size (old ++ [new]) i = true := by
  obtain ⟨pos, inside, none, last⟩ := trimmed_spec count some
  cases low with
  | cons e low =>
    constructor
    · rintro ⟨-, -, j, same⟩
      exact absurd same (not_drop_of_low pos sorted parts (by simp) inside)
    · rintro ⟨all, -⟩
      have here := all e (by rw [parts]; simp)
      exact absurd (before e List.mem_cons_self) (not_lt.mpr here)
  | nil =>
    rw [List.nil_append] at parts
    subst parts
    simp only [Nat.zero_add] at none last
    constructor
    · rintro ⟨within, contains, -⟩
      have short : k < (old ++ [new]).length := by
        by_contra long
        rw [List.nil_append, List.drop_eq_nil_of_le (not_lt.mp long)] at contains
        cases contains
      refine ⟨onward, fun i hi stop => ?_, k, pos, short, last short⟩
      -- the loop stopped no later than at `i`
      have later : k ≤ i := by
        by_contra earlier
        have going := none i hi (not_le.mp earlier)
        rw [stopsAfter, going] at stop
        cases stop
      have rest := overLimit_drop within (i - k)
      rwa [List.nil_append, List.drop_drop, Nat.add_sub_cancel' later] at rest
    · rintro ⟨-, stopped, i, hi, short, stop⟩
      have earlier : k ≤ i := by
        by_contra later
        have going := none i hi (not_le.mp later)
        rw [stopsAfter, going] at stop
        cases stop
      have before : k < (old ++ [new]).length := lt_of_le_of_lt earlier short
      exact ⟨stopped k pos (last before), mem_drop_last before, k, rfl⟩

section

variable [DecidableEq Key]

/-- `noteUncommittedPK` touches nothing that a trim reads. -/
theorem noteUncommittedPK_fields (coll : CappedCollection) (r : Rollback) (pk : Nat) :
    (coll.noteUncommittedPK r pk).lastDeletedPK = coll.lastDeletedPK ∧
      (coll.noteUncommittedPK r pk).currentObjects = coll.currentObjects ∧
      (coll.noteUncommittedPK r pk).currentSize = coll.currentSize := by
  unfold CappedCollection.noteUncommittedPK
  split_ifs
  · exact ⟨rfl, rfl, rfl⟩
  · exact ⟨rfl, rfl, rfl⟩

theorem checkUniqueAndInsert_unique (c : C) {pk : Nat} {doc : Doc Key} {checkPk : Bool}
    (unique : s.duplicate a pk doc checkPk = false) (phase : Phase Key) :
    ∃ t, s.checkUniqueAndInsert c a pk doc checkPk false phase = t ∧ t.docs = s.docs ∧
      t.clients = s.clients.put c (some (.active
        (a.write ⟨pk, (s.view a).find? pk, some doc⟩ (a.top.rollback.noteInsert pk doc.size)
          phase))) ∧
      t.coll = s.coll.count 1 doc.size ∧ t.deleteMutex = s.deleteMutex := by
  refine ⟨_, rfl, rfl, ?_, rfl, rfl⟩
  simp [System.checkUniqueAndInsert, unique]

/-- The state after the insert itself. -/
theorem inserted_spec {doc : Doc Key} (idle : s.idle? c = some a) (alone : s.Alone c)
    (sound : s.Sound) (admissible : doc.size ≤ limits.maxSize)
    (new : s.duplicate a s.coll.nextPK doc false = false) (objsize : Nat) :
    ∃ t₁ t₂ top, s.perform limits (.getNextPK c doc objsize) = some t₁ ∧
      t₁.perform limits (.checkUniqueAndInsert c false) = some t₂ ∧
      t₂.clients.find? c = some (.active ⟨top, a.parents, .inserted objsize⟩) ∧
      t₂.Alone c ∧ t₂.deleteMutex = s.deleteMutex ∧
      t₂.coll.lastDeletedPK = s.coll.lastDeletedPK ∧
      t₂.coll.currentObjects = s.coll.currentObjects + 1 ∧
      t₂.coll.currentSize = s.coll.currentSize + doc.size ∧
      ∀ phase, (t₂.view ⟨top, a.parents, phase⟩).entries =
        (s.view a).entries ++ [(s.coll.nextPK, doc)] := by
  have allocated : s.perform limits (.getNextPK c doc objsize) =
      some (s.getNextPK c a doc objsize) := by
    simp only [System.perform, idle, Option.bind_eq_bind, Option.bind_some, if_pos admissible]
  have there : (s.getNextPK c a doc objsize).clients.find? c =
      some (.active ⟨a.top, a.parents, .allocated s.coll.nextPK doc objsize⟩) :=
    find?_put_self ..
  have unique : (s.getNextPK c a doc objsize).duplicate
      ⟨a.top, a.parents, .allocated s.coll.nextPK doc objsize⟩ s.coll.nextPK doc false = false :=
    new
  obtain ⟨t, result, docs, clients, coll, mutex⟩ :=
    checkUniqueAndInsert_unique c unique (.inserted objsize)
  obtain ⟨last, count, size⟩ := noteUncommittedPK_fields
    { s.coll with nextPK := s.coll.nextPK + 1 } a.top.rollback s.coll.nextPK
  have below : ∀ e ∈ (s.view a).entries, e.1 < s.coll.nextPK := fun e he =>
    sound.view_below (System.idle?_eq_some.mp idle).1 (find?_eq_some.mpr he)
  have still : (s.getNextPK c a doc objsize).Alone c :=
    alone.put (show _ = s.clients.put c (some (.active _)) from rfl)
  refine ⟨_, t, (a.write ⟨s.coll.nextPK, (s.view a).find? s.coll.nextPK, some doc⟩
    (a.top.rollback.noteInsert s.coll.nextPK doc.size) .idle).top, allocated, ?_, ?_,
    still.put clients, mutex, ?_, ?_, ?_, ?_⟩
  · rw [System.perform, there]
    exact congrArg some result
  · rw [clients, find?_put_self]
    rfl
  · rw [coll]
    exact last
  · rw [coll]
    exact congrArg (· + 1) count
  · rw [coll]
    exact congrArg (· + (doc.size : Int)) size
  · intro phase
    rw [System.view, docs]
    exact (congrArg entries (view_write s.docs _ _ phase)).trans (set_of_last below)

theorem checkGorged_spec
    (present : s.clients.find? c = some (.active ⟨top, parents, .inserted objsize⟩))
    (limits : Limits) :
    ∃ t, s.perform limits (.checkGorged c) = some t ∧ t.docs = s.docs ∧ t.coll = s.coll ∧
      t.deleteMutex = s.deleteMutex ∧
      t.clients = s.clients.put c (some (.active ⟨top, parents,
        if limits.isGorged s.coll.currentObjects s.coll.currentSize then .gorged objsize
        else .idle⟩)) :=
  ⟨s.checkGorged limits c ⟨top, parents, .inserted objsize⟩ objsize,
    by rw [System.perform, present], rfl, rfl, rfl, rfl⟩

/-- The first step of a trim: the cursor is set to the last key deleted. -/
theorem finish_gorged (present : s.clients.find? c = some (.active ⟨top, parents, .gorged objsize⟩))
    (unlocked : s.deleteMutex = none)
    (test : limits.isGorged s.coll.currentObjects s.coll.currentSize = true) (fuel : Nat) :
    ∃ t : System C Key, s.finish limits c (fuel + 1) = t.finish limits c fuel ∧
      t.docs = s.docs ∧ t.coll = s.coll ∧ t.clients = s.clients.put c (some (.active ⟨top, parents,
        .trimming objsize (s.coll.lastDeletedPK.getD 0) 0 0⟩)) := by
  refine ⟨⟨s.coll, s.docs, _, some c⟩, ?_, rfl, rfl, rfl⟩
  rw [System.finish, present]
  simp only [System.perform, present, unlocked, Option.isNone_none, if_true, Option.bind_some,
    System.trim, test]
  rfl

/-- With no other transaction open, the insert of an admissible document keeps what it should
if and only if the trim suffices. -/
theorem insertSized_keeps_iff {doc : Doc Key} (idle : s.idle? c = some a) (alone : s.Alone c)
    (sound : s.Sound) (unlocked : s.deleteMutex = none) (admissible : doc.size ≤ limits.maxSize)
    (new : s.duplicate a s.coll.nextPK doc false = false) (objsize : Nat) :
    ∃ t b, s.insertSized limits c doc objsize = some t ∧ t.idle? c = some b ∧
      (Keeps limits (s.view a).entries (s.coll.nextPK, doc) (t.view b).entries ↔
        TrimSuffices limits objsize (s.coll.lastDeletedPK.getD 0) (s.coll.currentObjects + 1)
          (s.coll.currentSize + doc.size) ((s.view a).entries ++ [(s.coll.nextPK, doc)])) := by
  obtain ⟨t₁, t₂, top, allocated, inserted, present, alone₂, mutex₂, last, count, size, view⟩ :=
    inserted_spec idle alone sound admissible new objsize
  obtain ⟨t₃, checked, docs₃, coll₃, mutex₃, clients₃⟩ := checkGorged_spec present limits
  rw [count, size] at clients₃
  have call : s.insertSized limits c doc objsize =
      t₃.finish limits c ((s.view a).size + 4) := by
    simp only [System.insertSized, idle, allocated, inserted, checked, Option.bind_eq_bind,
      Option.bind_some]
  have entries : ∀ {t : System C Key}, t.docs = t₂.docs → ∀ phase,
      (t.view ⟨top, a.parents, phase⟩).entries =
        (s.view a).entries ++ [(s.coll.nextPK, doc)] := by
    intro t same phase
    rw [← view phase, System.view, same, System.view]
  rw [call]
  cases test : limits.isGorged (s.coll.currentObjects + 1) (s.coll.currentSize + doc.size) with
  | false =>
    rw [test] at clients₃
    have idle₃ : t₃.clients.find? c = some (.active ⟨top, a.parents, .idle⟩) := by
      rw [clients₃, OrderedMap.find?_put_self]
      rfl
    obtain ⟨done, now⟩ := finish_idle idle₃ ((s.view a).size + 3)
    refine ⟨t₃, _, done, now, ?_⟩
    rw [entries docs₃, TrimSuffices, test, if_neg (by simp)]
    exact ⟨fun keeps => keeps.within, fun within => ⟨within, by simp, 0, rfl⟩⟩
  | true =>
    rw [test] at clients₃
    have gorged : t₃.clients.find? c = some (.active ⟨top, a.parents, .gorged objsize⟩) := by
      rw [clients₃, OrderedMap.find?_put_self]
      rfl
    have over₃ : limits.isGorged t₃.coll.currentObjects t₃.coll.currentSize = true := by
      rw [coll₃, count, size, test]
    obtain ⟨t₄, begun, docs₄, coll₄, clients₄⟩ :=
      finish_gorged gorged (by rw [mutex₃, mutex₂, unlocked]) over₃ ((s.view a).size + 3)
    have trimming : t₄.clients.find? c = some (.active ⟨top, a.parents,
        .trimming objsize (s.coll.lastDeletedPK.getD 0) 0 0⟩) := by
      rw [clients₄, OrderedMap.find?_put_self, coll₃, last]
    have alone₄ : t₄.Alone c := (alone₂.put clients₃).put clients₄
    have sorted : ((s.view a).entries ++ [(s.coll.nextPK, doc)]).Pairwise
        fun a b => a.1 < b.1 := by
      rw [← view .idle]
      exact OrderedMap.sorted _
    obtain ⟨low, rows, parts, before, onward⟩ := split_at sorted (s.coll.lastDeletedPK.getD 0)
    have seen := (entries (docs₄.trans docs₃)
      (.trimming objsize (s.coll.lastDeletedPK.getD 0) 0 0)).trans parts
    have enough : rows.length + 2 ≤ (s.view a).size + 3 := by
      have length := congrArg List.length parts
      simp only [List.length_append, List.length_singleton] at length
      rw [OrderedMap.size]
      omega
    obtain ⟨t, b, done, now, left⟩ := finish_trimming trimming alone₄ seen before onward enough
    refine ⟨t, b, begun.trans done, now, ?_⟩
    rw [left, coll₄, coll₃, count, size]
    cases rows with
    | nil =>
      -- no row from the cursor on
      have none : ¬ ∃ e ∈ (s.view a).entries ++ [(s.coll.nextPK, doc)],
          s.coll.lastDeletedPK.getD 0 ≤ e.1 := by
        rintro ⟨e, mem, here⟩
        rw [parts, List.append_nil] at mem
        exact absurd (before e mem) (not_lt.mpr here)
      rw [TrimSuffices, if_neg (fun trims => none trims.2), List.drop_nil, ← parts]
      exact ⟨fun keeps => keeps.within, fun within => ⟨within, by simp, 0, rfl⟩⟩
    | cons e rows =>
      have trims : ∃ e ∈ (s.view a).entries ++ [(s.coll.nextPK, doc)],
          s.coll.lastDeletedPK.getD 0 ≤ e.1 :=
        ⟨e, by rw [parts]; simp, onward e List.mem_cons_self⟩
      rw [TrimSuffices, if_pos ⟨test, trims⟩]
      exact keeps_iff_of_trimmed sorted parts before onward (by simp) rfl

end

end Loop

/-- Ten documents of one size, with a client that has begun a transaction. -/
def tenDocuments (size : Nat) : System ℕ ℕ where
  coll := ⟨10, 10 * size, none, ∅, 10⟩
  docs := ⟨(List.range 10).map fun pk => (pk, ⟨size, [pk]⟩),
    List.pairwise_map.mpr List.pairwise_lt_range⟩
  clients := ⟨[(0, .active ⟨.fresh, [], .idle⟩)], by decide⟩
  deleteMutex := none

theorem alone_tenDocuments (size : Nat) : (tenDocuments size).Alone 0 := by
  intro d cl found
  have mem := find?_eq_some.mp found
  exact congrArg Prod.fst (List.mem_singleton.mp mem)

theorem sound_tenDocuments (size : Nat) : (tenDocuments size).Sound where
  client d cl found := by
    have mem := find?_eq_some.mp found
    cases List.mem_singleton.mp mem
    exact ⟨trivial, by simp [Client.changes, Client.stack, Active.stack, CappedTxn.fresh], nofun⟩
  apart d cl found pk holds := by
    cases alone_tenDocuments size d cl found
    exact (alone_tenDocuments size).free pk
  docs pk doc found := by
    have mem := find?_eq_some.mp found
    obtain ⟨k, below, same⟩ := List.mem_map.mp mem
    cases same
    exact List.mem_range.mp below

/-- Ten documents of a hundred bytes fill the collection; one of them goes for a new one. -/
theorem insertSized_keeps_hundred :
    ∃ t b, (tenDocuments 100).insertSized ⟨1000, 0⟩ 0 ⟨100, [10]⟩ 100 = some t ∧
      t.idle? 0 = some b ∧
      Keeps ⟨1000, 0⟩ (tenDocuments 100).docs.entries (10, ⟨100, [10]⟩) (t.view b).entries := by
  have within : ∀ k, 1 ≤ k → overLimit ⟨1000, 0⟩
      (((tenDocuments 100).docs.entries ++ [(10, (⟨100, [10]⟩ : Doc ℕ))]).drop k) = false := by
    intro k pos
    have first : overLimit ⟨1000, 0⟩
        (((tenDocuments 100).docs.entries ++ [(10, (⟨100, [10]⟩ : Doc ℕ))]).drop 1) = false := by
      decide
    have rest := overLimit_drop first (k - 1)
    rwa [List.drop_drop, Nat.add_sub_cancel' pos] at rest
  have idle : (tenDocuments 100).idle? 0 = some ⟨.fresh, [], .idle⟩ := rfl
  have admissible : (⟨100, [10]⟩ : Doc ℕ).size ≤ (⟨1000, 0⟩ : Limits).maxSize := by decide
  obtain ⟨t, b, done, now, keeps⟩ := insertSized_keeps_iff idle (alone_tenDocuments 100)
    (sound_tenDocuments 100) rfl admissible (by decide) 100
  refine ⟨t, b, done, now, keeps.mpr ?_⟩
  rw [TrimSuffices, if_pos (by decide)]
  exact ⟨fun e _ => Nat.zero_le _, fun k pos _ => within k pos, 1, le_rfl, by decide, by decide⟩

/-- Old documents of fourteen bytes count for fifteen: eight of them are deleted for a new one of
120 bytes, and the collection stays over its limit of 140. -/
theorem insertObject_stays_gorged :
    overLimit ⟨140, 0⟩ (tenDocuments 14).docs.entries = false ∧
      (((tenDocuments 14).insertObject ⟨140, 0⟩ 0 ⟨120, [10]⟩).bind fun t =>
        (t.idle? 0).map fun b => ((t.view b).entries.map fun e => (e.1, e.2.size),
          overLimit ⟨140, 0⟩ (t.view b).entries)) =
        some ([(8, 14), (9, 14), (10, 120)], true) := by
  decide

end TokuMX.Collection.Capped
