import TokuMX.Lib.Batches
import TokuMX.Lib.OrderedMap

/-!
The batches of the migrate log that the donor sends (`MigrateFromStatus::transferMods` in
`s/d_migrate.cpp`).

An entry of the log is a transaction's operations, in-line, or the name of a list of documents
in the refs collection. A call goes through the entries from `_nextIdToTransfer` on, through
the documents of a list from `_nextRefSeqToTransfer` on, and appends what fits into a megabyte.

A document that does not fit ends the loop over its list. The loop over the entries goes on:
a later object that still fits is sent, and the position moves past the rest of the list. An
object that does not fit into an empty batch is never sent.

* `transferMods_delivers_iff` — the calls deliver the log exactly when every object fits into
  an empty batch, and whenever a batch is full inside a list, nothing behind it would fit.
-/

namespace TokuMX.Sharding

open TokuMX.Lib Batches OrderedMap

/-- An entry: in-line, or with the documents of the refs collection by their `_id.seq`. -/
inductive LogEntry (Obj : Type) where
  | inline (obj : Obj)
  | refOID (refs : OrderedMap Nat Obj)

/-- A migrate log that no longer changes. -/
structure CommittedLog (Obj : Type) where
  nextMigrateLogId : Nat
  migratelog : OrderedMap Nat (LogEntry Obj)
  numbered : ∀ e ∈ migratelog.entries, e.1 < nextMigrateLogId

/-- Where the next call starts. -/
structure TransferPosition where
  nextIdToTransfer : Nat
  nextRefSeqToTransfer : Nat
deriving DecidableEq, Repr

namespace TransferMods

variable {Obj : Type}

/-- The position at the start of a migration. -/
def start : TransferPosition := ⟨0, 0⟩

def maxSize : Nat := 1024 * 1024

section

variable (header : Nat) (objsize : Obj → Nat)

/-- `arr.len()`: of the whole reply. `header` is what it has in front of the first element; an
element costs a type byte, its index in decimal and a terminator besides the object. The
elements are kept with the id of the entry they belong to. -/
def arrLen (arr : List (Nat × Obj)) : Nat :=
  header + (arr.zipIdx.map fun (e, i) => 1 + (Nat.toDigits 10 i).length + 1 + objsize e.2).sum

/-- The loop over the documents of a list; the third result is `didBreak`. -/
def transferRefs (id : Nat) : List (Nat × Obj) → Nat → List (Nat × Obj) →
    Nat × List (Nat × Obj) × Bool
  | [], seq, arr => (seq, arr, false)
  | (n, refObj) :: refcur, seq, arr =>
    if maxSize < arrLen header objsize arr + objsize refObj then (seq, arr, true)
    else transferRefs id refcur (n + 1) (arr ++ [(id, refObj)])

/-- The loop over the entries. -/
def transferLoop : List (Nat × LogEntry Obj) → TransferPosition → List (Nat × Obj) →
    TransferPosition × List (Nat × Obj)
  | [], p, arr => (p, arr)
  | (id, .refOID refs) :: cur, p, arr =>
    let (seq, arr, didBreak) := transferRefs header objsize id
      (refs.fromKey p.nextRefSeqToTransfer) p.nextRefSeqToTransfer arr
    transferLoop cur (if didBreak then ⟨p.nextIdToTransfer, seq⟩ else ⟨id + 1, 0⟩) arr
  | (id, .inline obj) :: cur, p, arr =>
    if maxSize < arrLen header objsize arr + objsize obj then (p, arr)
    else transferLoop cur ⟨id + 1, 0⟩ (arr ++ [(id, obj)])

/-- The query for the entries. -/
def query (log : CommittedLog Obj) (p : TransferPosition) : List (Nat × LogEntry Obj) :=
  (log.migratelog.fromKey p.nextIdToTransfer).filter (·.1 < log.nextMigrateLogId)

/-- `transferMods`: the new position and the array `mods`. -/
def transferMods (active : Bool) (log : CommittedLog Obj) (p : TransferPosition) :
    Except String (TransferPosition × List (Nat × Obj)) :=
  if active = false then .error "no active migration!"
  else if p.nextIdToTransfer < log.nextMigrateLogId then
    .ok (transferLoop header objsize (query log p) p [])
  else .ok (p, [])

/-- A call while the migration is active. -/
def call (log : CommittedLog Obj) (p : TransferPosition) : TransferPosition × List (Nat × Obj) :=
  (transferMods header objsize true log p).toOption.getD (p, [])

/-! ### What is to be sent -/

/-- The objects of an entry. -/
def objectsOf : Nat × LogEntry Obj → List (Nat × Obj)
  | (id, .inline obj) => [(id, obj)]
  | (id, .refOID refs) => refs.entries.map fun doc => (id, doc.2)

/-- All objects of a log, in the order of ids and sequence numbers. -/
def objects (log : CommittedLog Obj) : List (Nat × Obj) :=
  log.migratelog.entries.flatMap objectsOf

/-- The objects of some entries, those of the first one from a sequence number on. -/
def leftOf (seq : Nat) : List (Nat × LogEntry Obj) → List (Nat × Obj)
  | [] => []
  | (id, .inline obj) :: cur => (id, obj) :: cur.flatMap objectsOf
  | (id, .refOID refs) :: cur =>
    ((refs.fromKey seq).map fun doc => (id, doc.2)) ++ cur.flatMap objectsOf

/-- What is left at a position. -/
def left (log : CommittedLog Obj) (p : TransferPosition) : List (Nat × Obj) :=
  leftOf p.nextRefSeqToTransfer (log.migratelog.fromKey p.nextIdToTransfer)

/-! ### Batches that end where they are full -/

/-- As `transferLoop`, but for the end at a document that does not fit. The third result are
the entries from there on. -/
def fillLoop : List (Nat × LogEntry Obj) → TransferPosition → List (Nat × Obj) →
    TransferPosition × List (Nat × Obj) × List (Nat × LogEntry Obj)
  | [], p, arr => (p, arr, [])
  | (id, .refOID refs) :: cur, p, arr =>
    let (seq, arr, didBreak) := transferRefs header objsize id
      (refs.fromKey p.nextRefSeqToTransfer) p.nextRefSeqToTransfer arr
    if didBreak then (⟨p.nextIdToTransfer, seq⟩, arr, (id, .refOID refs) :: cur)
    else fillLoop cur ⟨id + 1, 0⟩ arr
  | (id, .inline obj) :: cur, p, arr =>
    if maxSize < arrLen header objsize arr + objsize obj then (p, arr, (id, .inline obj) :: cur)
    else fillLoop cur ⟨id + 1, 0⟩ (arr ++ [(id, obj)])

/-- The batch from a position that ends where it is full. -/
def fill (log : CommittedLog Obj) (p : TransferPosition) :
    TransferPosition × List (Nat × Obj) × List (Nat × LogEntry Obj) :=
  fillLoop header objsize (log.migratelog.fromKey p.nextIdToTransfer) p []

/-- The position and the batch only. -/
def fillNext (log : CommittedLog Obj) (p : TransferPosition) :
    TransferPosition × List (Nat × Obj) :=
  ((fill header objsize log p).1, (fill header objsize log p).2.1)

/-- Up to the next in-line entry, which does not fit, every list has a document from the
sequence number on and the first one does not fit. -/
def Blocked (arr : List (Nat × Obj)) (seq : Nat) : List (Nat × LogEntry Obj) → Prop
  | [] => True
  | (_, .inline obj) :: _ => maxSize < arrLen header objsize arr + objsize obj
  | (_, .refOID refs) :: cur =>
    (∃ doc, (refs.fromKey seq).head? = some doc ∧
      maxSize < arrLen header objsize arr + objsize doc.2) ∧ Blocked arr seq cur

/-- A batch that is full inside a list is followed by nothing that would fit. -/
def Closed (r : TransferPosition × List (Nat × Obj) × List (Nat × LogEntry Obj)) : Prop :=
  match r.2.2 with
  | (_, .refOID _) :: cur => Blocked header objsize r.2.1 r.1.nextRefSeqToTransfer cur
  | _ => True

variable {header objsize} {log : CommittedLog Obj}

theorem query_eq (p : TransferPosition) :
    query log p = log.migratelog.fromKey p.nextIdToTransfer := by
  rw [query, List.filter_eq_self]
  intro e he
  exact decide_eq_true (log.numbered e (mem_fromKey.mp he).1)

theorem call_eq (p : TransferPosition) :
    call header objsize log p =
      transferLoop header objsize (log.migratelog.fromKey p.nextIdToTransfer) p [] := by
  rw [call, transferMods, if_neg (by decide), query_eq]
  split_ifs with below
  · rfl
  · -- no entry has an id that was not given out
    have none : log.migratelog.fromKey p.nextIdToTransfer = [] := by
      rw [fromKey, List.filter_eq_nil_iff]
      intro e he
      have := log.numbered e he
      simp only [decide_eq_true_eq]
      omega
    rw [none]
    rfl

theorem header_le_arrLen (arr : List (Nat × Obj)) : header ≤ arrLen header objsize arr :=
  Nat.le_add_right _ _

theorem leftOf_zero (cur : List (Nat × LogEntry Obj)) : leftOf 0 cur = cur.flatMap objectsOf := by
  cases cur with
  | nil => rfl
  | cons e cur =>
    obtain ⟨id, entry⟩ := e
    cases entry with
    | inline obj => rfl
    | refOID refs => simp [leftOf, objectsOf, fromKey]

theorem left_start : left log start = objects log := by
  rw [left, start, leftOf_zero, objects]
  simp [fromKey]

variable (header objsize) in
/-- The loop over a list appends a front of it; it breaks at a document that does not fit, or
ends with nothing left. -/
theorem transferRefs_spec (id seq : Nat) (arr : List (Nat × Obj)) {refs : OrderedMap Nat Obj}
    {refcur : List (Nat × Obj)} (cursor : refs.fromKey seq = refcur) :
    ∃ seq' batch didBreak,
      transferRefs header objsize id refcur seq arr = (seq', arr ++ batch, didBreak) ∧
        (batch ++ (refs.fromKey seq').map fun doc => (id, doc.2)) =
          refcur.map (fun doc => (id, doc.2)) ∧
        if didBreak then ∃ doc, (refs.fromKey seq').head? = some doc ∧
          maxSize < arrLen header objsize (arr ++ batch) + objsize doc.2
        else refs.fromKey seq' = [] := by
  induction refcur generalizing seq arr with
  | nil => exact ⟨seq, [], false, by simp [transferRefs], by simp [cursor], cursor⟩
  | cons doc refcur ih =>
    obtain ⟨n, refObj⟩ := doc
    by_cases full : maxSize < arrLen header objsize arr + objsize refObj
    · refine ⟨seq, [], true, ?_, ?_, ?_⟩
      · simp [transferRefs, full]
      · simp [cursor]
      · exact ⟨(n, refObj), by rw [cursor]; rfl, by rwa [List.append_nil]⟩
    · have moved : refs.fromKey (n + 1) = refcur := fromKey_succ cursor
      obtain ⟨seq', batch, didBreak, result, parts, ends⟩ :=
        ih (n + 1) (arr ++ [(id, refObj)]) moved
      refine ⟨seq', (id, refObj) :: batch, didBreak, ?_, ?_, ?_⟩
      · rw [transferRefs, if_neg full, result, List.append_assoc, List.singleton_append]
      · rw [List.cons_append, parts, List.map_cons]
      · rwa [List.append_assoc, List.singleton_append] at ends

variable {cur : List (Nat × LogEntry Obj)}

variable (header objsize) in
/-- A batch that ends where it is full is the front of what is left; the first object that is
left is one of the entry it ends at. -/
theorem fillLoop_spec (p : TransferPosition) (arr : List (Nat × Obj))
    (cursor : log.migratelog.fromKey p.nextIdToTransfer = cur) :
    ∃ p' batch rest, fillLoop header objsize cur p arr = (p', arr ++ batch, rest) ∧
      batch ++ leftOf p'.nextRefSeqToTransfer rest = leftOf p.nextRefSeqToTransfer cur ∧
      log.migratelog.fromKey p'.nextIdToTransfer = rest ∧
      ∀ entry ∈ rest.head?, ∃ e, (leftOf p'.nextRefSeqToTransfer rest).head? = some e ∧
        e.1 = entry.1 ∧ maxSize < arrLen header objsize (arr ++ batch) + objsize e.2 := by
  induction cur generalizing p arr with
  | nil => exact ⟨p, [], [], by simp [fillLoop], rfl, cursor, by simp⟩
  | cons e cur ih =>
    obtain ⟨id, entry⟩ := e
    have moved : log.migratelog.fromKey (id + 1) = cur := fromKey_succ cursor
    cases entry with
    | inline obj =>
      by_cases full : maxSize < arrLen header objsize arr + objsize obj
      · refine ⟨p, [], (id, .inline obj) :: cur, by simp [fillLoop, full], rfl, cursor, ?_⟩
        rintro entry ⟨⟩
        exact ⟨(id, obj), rfl, rfl, by rwa [List.append_nil]⟩
      · obtain ⟨p', batch, rest, result, parts, position, ends⟩ :=
          ih ⟨id + 1, 0⟩ (arr ++ [(id, obj)]) moved
        rw [List.append_assoc, List.singleton_append] at result ends
        refine ⟨p', (id, obj) :: batch, rest, ?_, ?_, position, ends⟩
        · rw [fillLoop, if_neg full, result]
        · rw [List.cons_append, parts, leftOf_zero]
          rfl
    | refOID refs =>
      obtain ⟨seq, batch, didBreak, read, docs, broke⟩ :=
        transferRefs_spec header objsize id p.nextRefSeqToTransfer arr (rfl : refs.fromKey _ = _)
      cases didBreak with
      | true =>
        obtain ⟨doc, head, full⟩ := broke
        refine ⟨⟨p.nextIdToTransfer, seq⟩, batch, (id, .refOID refs) :: cur, ?_, ?_, cursor, ?_⟩
        · simp [fillLoop, read]
        · rw [leftOf, leftOf, ← List.append_assoc, docs]
        · rintro entry ⟨⟩
          obtain ⟨more, opened⟩ := List.head?_eq_some_iff.mp head
          exact ⟨(id, doc.2), by rw [leftOf, opened]; rfl, rfl, full⟩
      | false =>
        obtain ⟨p', more, rest, result, parts, position, ends⟩ :=
          ih ⟨id + 1, 0⟩ (arr ++ batch) moved
        rw [List.append_assoc] at result ends
        refine ⟨p', batch ++ more, rest, ?_, ?_, position, ends⟩
        · simp [fillLoop, read, result]
        · have consumed : refs.fromKey seq = [] := broke
          rw [consumed, List.map_nil, List.append_nil] at docs
          rw [List.append_assoc, parts, leftOf_zero, leftOf, docs]

variable (header objsize) in
/-- After a document that does not fit, `transferMods` goes on with the entries behind. -/
def goOn (r : TransferPosition × List (Nat × Obj) × List (Nat × LogEntry Obj)) :
    TransferPosition × List (Nat × Obj) :=
  match r.2.2 with
  | (_, .refOID _) :: later => transferLoop header objsize later r.1 r.2.1
  | _ => (r.1, r.2.1)

theorem transferLoop_eq_goOn (cur : List (Nat × LogEntry Obj)) (p : TransferPosition)
    (arr : List (Nat × Obj)) :
    transferLoop header objsize cur p arr =
      goOn header objsize (fillLoop header objsize cur p arr) := by
  induction cur generalizing p arr with
  | nil => rfl
  | cons e cur ih =>
    obtain ⟨id, entry⟩ := e
    cases entry with
    | inline obj =>
      rw [transferLoop, fillLoop]
      split_ifs with full
      · rfl
      · exact ih _ _
    | refOID refs =>
      rw [transferLoop, fillLoop]
      cases broke : (transferRefs header objsize id (refs.fromKey p.nextRefSeqToTransfer)
        p.nextRefSeqToTransfer arr).2.2 with
      | true => simp [broke, goOn]
      | false => simpa [broke] using ih _ _

variable {p : TransferPosition} {arr : List (Nat × Obj)}

/-- Nothing behind is sent, and the position stays. -/
theorem transferLoop_of_blocked (blocked : Blocked header objsize arr p.nextRefSeqToTransfer cur) :
    transferLoop header objsize cur p arr = (p, arr) := by
  induction cur with
  | nil => rfl
  | cons e cur ih =>
    obtain ⟨id, entry⟩ := e
    cases entry with
    | inline obj =>
      rw [transferLoop, if_pos]
      exact blocked
    | refOID refs =>
      obtain ⟨⟨doc, head, full⟩, later⟩ := blocked
      obtain ⟨more, opened⟩ := List.head?_eq_some_iff.mp head
      have broke : transferRefs header objsize id (refs.fromKey p.nextRefSeqToTransfer)
          p.nextRefSeqToTransfer arr = (p.nextRefSeqToTransfer, arr, true) := by
        rw [opened, transferRefs, if_pos full]
      rw [transferLoop, broke]
      exact ih later

variable (header objsize) in
/-- What a loop appends: objects of entries it went through, each of which would have fitted
into an empty batch. -/
def Appends (k : Nat) (arr result : List (Nat × Obj)) : Prop :=
  ∃ batch, result = arr ++ batch ∧ ∀ e ∈ batch, k ≤ e.1 ∧ header + objsize e.2 ≤ maxSize

theorem Appends.refl (k : Nat) (arr : List (Nat × Obj)) : Appends header objsize k arr arr :=
  ⟨[], (List.append_nil arr).symm, fun _ mem => absurd mem List.not_mem_nil⟩

variable {k : Nat}

theorem Appends.trans {middle result : List (Nat × Obj)}
    (first : Appends header objsize k arr middle)
    (second : Appends header objsize k middle result) : Appends header objsize k arr result := by
  obtain ⟨batch, rfl, ids⟩ := first
  obtain ⟨more, rfl, ids'⟩ := second
  exact ⟨batch ++ more, List.append_assoc .., fun e mem =>
    (List.mem_append.mp mem).elim (ids e) (ids' e)⟩

theorem Appends.object {id : Nat} {obj : Obj} (above : k ≤ id)
    (room : ¬ maxSize < arrLen header objsize arr + objsize obj) :
    Appends header objsize k arr (arr ++ [(id, obj)]) := by
  refine ⟨_, rfl, fun e mem => ?_⟩
  cases List.mem_singleton.mp mem
  have base : header ≤ arrLen header objsize arr := header_le_arrLen arr
  exact ⟨above, by dsimp only; omega⟩

theorem transferRefs_appends {id : Nat} (above : k ≤ id) (refcur : List (Nat × Obj)) (seq : Nat)
    (arr : List (Nat × Obj)) :
    Appends header objsize k arr (transferRefs header objsize id refcur seq arr).2.1 := by
  induction refcur generalizing seq arr with
  | nil => exact .refl k arr
  | cons doc refcur ih =>
    rw [transferRefs]
    split_ifs with full
    · exact .refl k arr
    · exact (Appends.object above full).trans (ih _ _)

theorem transferLoop_appends (above : ∀ e ∈ cur, k ≤ e.1) (p : TransferPosition)
    (arr : List (Nat × Obj)) :
    Appends header objsize k arr (transferLoop header objsize cur p arr).2 := by
  induction cur generalizing p arr with
  | nil => exact .refl k arr
  | cons e cur ih =>
    obtain ⟨id, entry⟩ := e
    obtain ⟨here, later⟩ := List.forall_mem_cons.mp above
    cases entry with
    | inline obj =>
      rw [transferLoop]
      split_ifs with full
      · exact .refl k arr
      · exact (Appends.object here full).trans (ih later _ _)
    | refOID refs => exact (transferRefs_appends here _ _ _).trans (ih later _ _)

/-- The position does not move back. -/
theorem transferLoop_forward (above : ∀ e ∈ cur, k ≤ e.1) (position : k ≤ p.nextIdToTransfer)
    (arr : List (Nat × Obj)) : k ≤ (transferLoop header objsize cur p arr).1.nextIdToTransfer := by
  induction cur generalizing p arr with
  | nil => exact position
  | cons e cur ih =>
    obtain ⟨id, entry⟩ := e
    obtain ⟨here, later⟩ := List.forall_mem_cons.mp above
    have passed : k ≤ id + 1 := Nat.le_succ_of_le here
    cases entry with
    | inline obj =>
      rw [transferLoop]
      split_ifs with full
      · exact position
      · exact ih later passed _
    | refOID refs =>
      rw [transferLoop]
      refine ih later ?_ _
      split_ifs
      · exact position
      · exact passed

/-- If something behind is not blocked, it is sent, or the position moves past it. -/
theorem skips_of_not_blocked (above : ∀ e ∈ cur, k ≤ e.1)
    (open' : ¬ Blocked header objsize arr p.nextRefSeqToTransfer cur) :
    (transferLoop header objsize cur p arr).2 ≠ arr ∨
      k ≤ (transferLoop header objsize cur p arr).1.nextIdToTransfer := by
  induction cur with
  | nil => exact absurd trivial open'
  | cons e cur ih =>
    obtain ⟨id, entry⟩ := e
    obtain ⟨here, later⟩ := List.forall_mem_cons.mp above
    have passed : k ≤ id + 1 := Nat.le_succ_of_le here
    cases entry with
    | inline obj =>
      have room : ¬ maxSize < arrLen header objsize arr + objsize obj := open'
      rw [transferLoop, if_neg room]
      exact .inr (transferLoop_forward later passed _)
    | refOID refs =>
      cases docs : refs.fromKey p.nextRefSeqToTransfer with
      | nil =>
        -- a list with nothing from the sequence number on counts as sent
        right
        rw [transferLoop, docs, transferRefs]
        exact transferLoop_forward later passed _
      | cons doc more =>
        obtain ⟨n, refObj⟩ := doc
        by_cases full : maxSize < arrLen header objsize arr + objsize refObj
        · rw [transferLoop, docs, transferRefs, if_pos full]
          refine ih later fun blocked => open' ⟨⟨(n, refObj), ?_, full⟩, blocked⟩
          rw [docs]
          rfl
        · left
          have more : Appends header objsize k (arr ++ [(id, refObj)])
              (transferLoop header objsize ((id, .refOID refs) :: cur) p arr).2 := by
            rw [transferLoop, docs, transferRefs, if_neg full]
            exact (transferRefs_appends here _ _ _).trans (transferLoop_appends later _ _)
          obtain ⟨batch, result, -⟩ := more
          rw [result]
          simp

/-! ### Calls -/

variable (header objsize log) in
theorem fill_spec (p : TransferPosition) :
    ∃ p' batch rest, fill header objsize log p = (p', batch, rest) ∧
      batch ++ leftOf p'.nextRefSeqToTransfer rest = left log p ∧
      log.migratelog.fromKey p'.nextIdToTransfer = rest ∧
      ∀ entry ∈ rest.head?, ∃ e, (leftOf p'.nextRefSeqToTransfer rest).head? = some e ∧
        e.1 = entry.1 ∧ maxSize < arrLen header objsize batch + objsize e.2 :=
  fillLoop_spec header objsize p [] rfl

theorem fill_left (p : TransferPosition) :
    (fillNext header objsize log p).2 ++ left log (fillNext header objsize log p).1 =
      left log p := by
  obtain ⟨p', batch, rest, result, parts, position, -⟩ := fill_spec header objsize log p
  rw [fillNext, result, left, position]
  exact parts

theorem left_subset (p : TransferPosition) : left log p ⊆ objects log := by
  intro e mem
  have entries : ∀ entry ∈ log.migratelog.fromKey p.nextIdToTransfer,
      entry ∈ log.migratelog.entries := fun entry he => (mem_fromKey.mp he).1
  rw [objects, List.mem_flatMap]
  rw [left] at mem
  generalize log.migratelog.fromKey p.nextIdToTransfer = cur at mem entries
  cases cur with
  | nil => cases mem
  | cons first cur =>
    obtain ⟨here, later⟩ := List.forall_mem_cons.mp entries
    have behind : e ∈ cur.flatMap objectsOf → ∃ a ∈ log.migratelog.entries, e ∈ objectsOf a := by
      intro mem
      obtain ⟨a, ha, he⟩ := List.mem_flatMap.mp mem
      exact ⟨a, later a ha, he⟩
    obtain ⟨id, entry⟩ := first
    cases entry with
    | inline obj =>
      rcases List.mem_cons.mp mem with rfl | mem
      · exact ⟨_, here, List.mem_singleton.mpr rfl⟩
      · exact behind mem
    | refOID refs =>
      rcases List.mem_append.mp mem with mem | mem
      · obtain ⟨doc, hdoc, rfl⟩ := List.mem_map.mp mem
        exact ⟨_, here, List.mem_map.mpr ⟨doc, (mem_fromKey.mp hdoc).1, rfl⟩⟩
      · exact behind mem

theorem fill_progress (alone : ∀ e ∈ objects log, header + objsize e.2 ≤ maxSize)
    (more : left log p ≠ []) : (fillNext header objsize log p).2 ≠ [] := by
  obtain ⟨p', batch, rest, result, parts, -, ends⟩ := fill_spec header objsize log p
  rw [fillNext, result]
  rintro rfl
  rw [List.nil_append] at parts
  cases rest with
  | nil => exact more parts.symm
  | cons entry rest =>
    obtain ⟨e, head, -, full⟩ := ends entry rfl
    rw [parts] at head
    have fits := alone e (left_subset p (List.mem_of_head? head))
    have empty : arrLen header objsize ([] : List (Nat × Obj)) = header := rfl
    omega

theorem call_eq_goOn (p : TransferPosition) :
    call header objsize log p = goOn header objsize (fill header objsize log p) := by
  rw [call_eq, transferLoop_eq_goOn, fill]

/-- A call that meets nothing behind a full list is as intended. -/
theorem call_of_closed (closed : Closed header objsize (fill header objsize log p)) :
    call header objsize log p = fillNext header objsize log p := by
  rw [call_eq_goOn, fillNext]
  revert closed
  rcases fill header objsize log p with ⟨p', arr, rest⟩
  intro closed
  cases rest with
  | nil => rfl
  | cons entry rest =>
    obtain ⟨id, obj | refs⟩ := entry
    · rfl
    · exact transferLoop_of_blocked closed

/-- Calls send objects from the position on, that fit into an empty batch. -/
theorem mem_sent {m : Nat} :
    p.nextIdToTransfer ≤ (after (call header objsize log) m p).nextIdToTransfer ∧
      ∀ e ∈ sent (call header objsize log) m p,
        p.nextIdToTransfer ≤ e.1 ∧ header + objsize e.2 ≤ maxSize := by
  induction m with
  | zero => exact ⟨le_rfl, fun _ mem => absurd mem List.not_mem_nil⟩
  | succ m ih =>
    obtain ⟨position, before⟩ := ih
    have above : ∀ entry ∈ log.migratelog.fromKey
        (after (call header objsize log) m p).nextIdToTransfer,
        p.nextIdToTransfer ≤ entry.1 :=
      fun entry he => position.trans (mem_fromKey.mp he).2
    have appends : Appends header objsize p.nextIdToTransfer [] _ := transferLoop_appends above
      (after (call header objsize log) m p) []
    obtain ⟨batch, result, ids⟩ := appends
    rw [after, sent, call_eq, result]
    refine ⟨transferLoop_forward above position [], fun e mem => ?_⟩
    exact (List.mem_append.mp mem).elim (before e) (ids e)

/-- Calls that deliver the log meet nothing behind a full list. -/
theorem closed_of_delivers
    (delivers : Batches.Delivers (call header objsize log) start (objects log)) {n : Nat}
    (position : after (call header objsize log) n start = p)
    (parts : sent (call header objsize log) n start ++ left log p = objects log) :
    Closed header objsize (fill header objsize log p) := by
  obtain ⟨p', batch, rest, result, lefts, cursor, ends⟩ := fill_spec header objsize log p
  cases rest with
  | nil =>
    rw [result]
    trivial
  | cons entry later =>
    obtain ⟨id, obj | refs⟩ := entry
    · rw [result]
      trivial
    · by_contra skipped
      rw [result] at skipped
      obtain ⟨e, head, same, -⟩ := ends _ rfl
      obtain ⟨others, opened⟩ := List.head?_eq_some_iff.mp head
      have called : call header objsize log p = transferLoop header objsize later p' batch := by
        rw [call_eq_goOn, result]
        rfl
      have above : ∀ a ∈ later, id + 1 ≤ a.1 := by
        rw [← fromKey_succ cursor]
        exact fun a ha => (mem_fromKey.mp ha).2
      -- `e` is the object that comes next
      have split : objects log =
          (sent (call header objsize log) n start ++ batch) ++ e :: others := by
        rw [← parts, ← lefts, opened, List.append_assoc]
      have sends : sent (call header objsize log) (n + 1) start =
          sent (call header objsize log) n start ++
            (transferLoop header objsize later p' batch).2 := by
        rw [sent, position, called]
      have appends : Appends header objsize (id + 1) batch _ := transferLoop_appends above p' batch
      obtain ⟨more, appended, ids⟩ := appends
      cases more with
      | cons y ys =>
        rw [appended, ← List.append_assoc] at sends
        have first := delivers.head_eq split sends
        have := (ids y List.mem_cons_self).1
        rw [first, same] at this
        exact absurd this (by simp)
      | nil =>
        rw [List.append_nil] at appended
        have passed : id + 1 ≤ (call header objsize log p).1.nextIdToTransfer := by
          rw [called]
          exact (skips_of_not_blocked above skipped).resolve_left (not_not.mpr appended)
        rw [appended] at sends
        rw [← sends] at split
        obtain ⟨m, mem⟩ := delivers.sent_later split
        have after := (mem_sent.2 e mem).1
        rw [Batches.after, position, same] at after
        exact absurd (passed.trans after) (by simp)

/-- Repeated calls deliver the log if and only if every object fits into an empty batch, and
whenever a batch is full inside a list of documents, nothing behind the list would fit. -/
theorem transferMods_delivers_iff (log : CommittedLog Obj) :
    Batches.Delivers (call header objsize log) start (objects log) ↔
      (∀ e ∈ objects log, header + objsize e.2 ≤ maxSize) ∧
        ∀ n, Closed header objsize (fill header objsize log
          (Batches.after (fillNext header objsize log) n start)) := by
  constructor
  · intro delivers
    refine ⟨?_, ?_⟩
    · obtain ⟨n, all⟩ := delivers.complete
      intro e mem
      rw [← all] at mem
      exact (mem_sent.2 e mem).2
    · -- as long as all batches so far were as intended, so is the next one
      have agree : ∀ n, Batches.after (call header objsize log) n start =
            Batches.after (fillNext header objsize log) n start ∧
          Batches.sent (call header objsize log) n start =
            Batches.sent (fillNext header objsize log) n start := by
        intro n
        induction n with
        | zero => exact ⟨rfl, rfl⟩
        | succ n ih =>
          obtain ⟨position, batches⟩ := ih
          have closed := closed_of_delivers delivers position (by
            rw [batches, Batches.sent_append_left (fun n => fill_left _), left_start])
          have same := call_of_closed closed
          constructor
          · rw [Batches.after, position, same, Batches.after]
          · rw [Batches.sent, position, batches, same, Batches.sent]
      intro n
      obtain ⟨position, batches⟩ := agree n
      exact closed_of_delivers delivers position (by
        rw [batches, Batches.sent_append_left (fun n => fill_left _), left_start])
  · rintro ⟨alone, closed⟩
    have position : ∀ n, Batches.after (call header objsize log) n start =
        Batches.after (fillNext header objsize log) n start := by
      intro n
      induction n with
      | zero => rfl
      | succ n ih => rw [Batches.after, Batches.after, ih, call_of_closed (closed n)]
    have same : ∀ n, call header objsize log (Batches.after (call header objsize log) n start) =
        fillNext header objsize log (Batches.after (call header objsize log) n start) := by
      intro n
      rw [position n]
      exact call_of_closed (closed n)
    rw [← left_start]
    refine Batches.Delivers.of_left ?_ ?_
    · intro n
      rw [Batches.after, same n]
      exact fill_left _
    · intro n more
      rw [same n]
      exact fill_progress alone more

end

/-- A list that is full at its second document, and a small entry behind it. -/
def lossyLog : CommittedLog Nat where
  nextMigrateLogId := 2
  migratelog :=
    ⟨[(0, .refOID ⟨[(0, 1000000), (1, 100000)], by decide⟩), (1, .inline 100)], by decide⟩
  numbered := by decide

/-- An entry of more than a megabyte. -/
def largeLog : CommittedLog Nat where
  nextMigrateLogId := 1
  migratelog := ⟨[(0, .inline 2000000)], by decide⟩
  numbered := by decide

/-- The second document is never sent, as the position is past it after the first call; the
large entry is never sent, as a call returns nothing and leaves the position. -/
theorem transferMods_loses :
    objects lossyLog = [(0, 1000000), (0, 100000), (1, 100)] ∧
      call 18 (fun size => size) lossyLog start = (⟨2, 0⟩, [(0, 1000000), (1, 100)]) ∧
      call 18 (fun size => size) lossyLog ⟨2, 0⟩ = (⟨2, 0⟩, []) ∧
      objects largeLog = [(0, 2000000)] ∧
      call 18 (fun size => size) largeLog start = (start, []) := by
  decide

end TransferMods

end TokuMX.Sharding
