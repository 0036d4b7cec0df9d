import Mathlib.Data.List.Perm.Basic
import TokuMX.Collection.Partitioned
import TokuMX.Lib.Cursors

/-!
Cursors over a partitioned collection (`PartitionedCursor` in `db/cursor.cpp`).

The cursor opens an `IndexCursor` with the same start and end key on one partition after the
other, from the partition of the start key to that of the end key. It should yield what one index
with all documents yields for the scan.

Key objects are ordered as `woCompare` orders them. `⊥` is the empty object, as which an end key
means no end, and `⊤` is `MaxKey`.

* `yieldsUnion_iff` — that is the same exactly if the partitions of the two keys stand in the order
  of the scan, and no document is beyond the first partition if a scan forwards has no end key.
-/

namespace TokuMX.Collection

open TokuMX.Lib

/-- The arguments of a scan. -/
structure RangeScan (K : Type) where
  startKey : K
  endKey : K
  endKeyInclusive : Bool
  forward : Bool

/-- The rows from the current one on, as the storage has them, and `_ok`. -/
structure IndexCursor (Row : Type) where
  ahead : List Row
  ok : Bool

variable {K Row : Type} [LinearOrder K] [BoundedOrder K] (key : Row → K)

namespace RangeScan

variable (scan : RangeScan K)

/-- `_direction`. -/
def direction : Int := if scan.forward then 1 else -1

/-- `ScanCursor::startKey` and `endKey`. -/
def table (minKey : K) (forward : Bool) : RangeScan K where
  startKey := if forward then minKey else ⊤
  endKey := if forward then ⊤ else minKey
  endKeyInclusive := true
  forward := forward

/-- The sign of `woCompare`. -/
def sign (a b : K) : Int := if a < b then -1 else if a = b then 0 else 1

/-- The rows of an index in the order of the scan. -/
def order (rows : List Row) : List Row :=
  let index := rows.insertionSort (key · ≤ key ·)
  if scan.forward then index else index.reverse

/-- The row comes before the start key. -/
def before (row : Row) : Bool :=
  if scan.forward then key row < scan.startKey else scan.startKey < key row

/-- `checkEnd` stops at this row. -/
def stops (row : Row) : Bool :=
  let sign := sign scan.endKey (key row)
  scan.endKey ≠ ⊥ &&
    (sign ≠ 0 && sign ≠ scan.direction || sign = 0 && !scan.endKeyInclusive)

end RangeScan

namespace IndexCursor

variable (scan : RangeScan K)

def checkEnd (c : IndexCursor Row) : IndexCursor Row :=
  match c.ahead with
  | [] => c
  | row :: _ => if c.ok && scan.stops key row then { c with ok := false } else c

/-- `setPosition` on the start key: the first row at or beyond it. -/
def setPosition (rows : List Row) : IndexCursor Row :=
  let ahead := (scan.order key rows).dropWhile (scan.before key)
  ⟨ahead, !ahead.isEmpty⟩

/-- The constructor. -/
def create (rows : List Row) : IndexCursor Row := (setPosition key scan rows).checkEnd key scan

def advance (c : IndexCursor Row) : IndexCursor Row :=
  if c.ok then checkEnd key scan ⟨c.ahead.tail, !c.ahead.tail.isEmpty⟩ else c

def current (c : IndexCursor Row) : Option Row := if c.ok then c.ahead.head? else none

end IndexCursor

/-- `_cursorType` with its arguments. -/
inductive ScanRequest (K : Type) where
  | tableScan (forward : Bool)
  | rangeScan (scan : RangeScan K)

/-- The scan of each partition. -/
def ScanRequest.scan (minKey : K) : ScanRequest K → RangeScan K
  | .tableScan forward => .table minKey forward
  | .rangeScan scan => scan

inductive CursorError where
  | verifyFailed
deriving DecidableEq

/-- One partition is not past another in the order of a scan. -/
def InOrder (forward : Bool) (one other : Nat) : Prop :=
  if forward then one ≤ other else other ≤ one

instance (forward : Bool) (one other : Nat) : Decidable (InOrder forward one other) :=
  inferInstanceAs (Decidable (ite _ _ _))

/-- `_currPartition` does not go past `_endPartition`, which the constructors verify. -/
structure PartitionedCursor (Row : Type) where
  forward : Bool
  endPartition : Nat
  currPartition : Nat
  currentCursor : IndexCursor Row
  ordered : InOrder forward currPartition endPartition

namespace PartitionedCursor

variable (pc : PartitionedCollection K Row) (scan : RangeScan K)

def makeSubCursor (partitionIndex : Nat) : IndexCursor Row :=
  .create key scan (pc.partitions[partitionIndex]?.elim [] Partition.rows)

/-- How many partitions are left to visit. -/
def remaining (c : PartitionedCursor Row) : Nat :=
  if c.forward then c.endPartition - c.currPartition else c.currPartition - c.endPartition

/-- The body of the loop: on to the next partition. -/
def nextPartition (c : PartitionedCursor Row) (more : c.currPartition ≠ c.endPartition) :
    PartitionedCursor Row :=
  let next := if c.forward then c.currPartition + 1 else c.currPartition - 1
  { c with
    currPartition := next
    currentCursor := makeSubCursor key pc scan next
    ordered := by
      have ordered := c.ordered
      simp only [InOrder, next] at ordered ⊢
      split_ifs at ordered ⊢ <;> omega }

/-- The loop of `initializeSubCursor` and `advance`. -/
def moveOn (c : PartitionedCursor Row) : PartitionedCursor Row :=
  if more : ¬ c.currentCursor.ok ∧ c.currPartition ≠ c.endPartition then
    moveOn (c.nextPartition key pc scan more.2)
  else c
termination_by c.remaining
decreasing_by
  have ordered := c.ordered
  simp only [InOrder, remaining, nextPartition] at ordered ⊢
  split_ifs at ordered ⊢ <;> omega

def advance (c : PartitionedCursor Row) : PartitionedCursor Row :=
  moveOn key pc scan { c with currentCursor := c.currentCursor.advance key scan }

def current (c : PartitionedCursor Row) : Option Row := c.currentCursor.current

/-- `initializeSubCursor` after the sanity check of the constructors. -/
def create (startPartition endPartition : Nat) :
    Except CursorError (PartitionedCursor Row) :=
  if ordered : InOrder scan.forward startPartition endPartition then
    .ok (moveOn key pc scan
      ⟨scan.forward, endPartition, startPartition, makeSubCursor key pc scan startPartition,
        ordered⟩)
  else .error .verifyFailed

end PartitionedCursor

namespace PartitionedCollection

variable (pc : PartitionedCollection K Row) (minKey : K)

/-- `makeCursor`. A table scan goes over all partitions. -/
def makeCursor : ScanRequest K → Except CursorError (PartitionedCursor Row)
  | .tableScan forward =>
    PartitionedCursor.create key pc (.table minKey forward)
      (if forward then 0 else pc.numPartitions - 1)
      (if forward then pc.numPartitions - 1 else 0)
  | .rangeScan scan =>
    PartitionedCursor.create key pc scan (pc.partitionWithPK scan.startKey)
      (pc.partitionWithPK scan.endKey)

/-- Iterating over the partitions yields, without a failed check, what iterating over one index
with all documents yields. -/
def YieldsUnion (request : ScanRequest K) : Prop :=
  let scan := request.scan minKey
  ∃ c, pc.makeCursor key minKey request = .ok c ∧ ∃ rows,
    Yields PartitionedCursor.current (.advance key pc scan) c rows ∧
    Yields IndexCursor.current (.advance key scan) (.create key scan pc.rows) rows

/-- The partitions of the two keys are in the order of the scan. If a scan forwards has no end key,
for which the first partition is taken, there are no documents in others. -/
def Fits : ScanRequest K → Prop
  | .tableScan _ => True
  | .rangeScan scan =>
    InOrder scan.forward (pc.partitionWithPK scan.startKey) (pc.partitionWithPK scan.endKey) ∧
      (scan.forward ∧ scan.endKey = ⊥ → ∀ row ∈ pc.rows, pc.partitionWithPK (key row) = 0)

end PartitionedCollection

variable {key}

/-! ### An index cursor -/

namespace RangeScan

variable {scan : RangeScan K} {a b row : Row} {rows : List Row}

/-- A scan does not meet the second key before the first. -/
def Le (scan : RangeScan K) (a b : K) : Prop := if scan.forward then a ≤ b else b ≤ a

/-- The row is neither before the start nor beyond the end. -/
def inScan (key : Row → K) (scan : RangeScan K) (row : Row) : Bool :=
  !scan.before key row && !scan.stops key row

omit [BoundedOrder K] in
theorem perm_order : (scan.order key rows).Perm rows := by
  rw [order]
  split
  · exact List.perm_insertionSort _ rows
  · exact (List.reverse_perm _).trans (List.perm_insertionSort _ rows)

omit [BoundedOrder K] in
theorem pairwise_order :
    (scan.order key rows).Pairwise fun a b => scan.Le (key a) (key b) := by
  have total : Std.Total fun a b : Row => key a ≤ key b := ⟨fun a b => le_total (key a) (key b)⟩
  have transitive : IsTrans Row fun a b => key a ≤ key b := ⟨fun _ _ _ => le_trans⟩
  have sorted := List.pairwise_insertionSort (fun a b : Row => key a ≤ key b) rows
  rw [order]
  cases direction : scan.forward
  · simpa [Le, direction, List.pairwise_reverse] using sorted
  · simpa [Le, direction] using sorted

theorem stops_iff : scan.stops key row ↔ scan.endKey ≠ ⊥ ∧
    ((if scan.forward then scan.endKey < key row else key row < scan.endKey) ∨
      scan.endKey = key row ∧ scan.endKeyInclusive = false) := by
  rcases lt_trichotomy scan.endKey (key row) with less | same | greater
  · cases direction : scan.forward <;>
      simp [stops, sign, RangeScan.direction, direction, less, less.ne, less.le]
  · simp [stops, sign, ← same]
  · cases direction : scan.forward <;>
      simp [stops, sign, RangeScan.direction, direction, greater, greater.ne', greater.not_gt]

omit [BoundedOrder K] in
theorem before_iff : scan.before key row ↔
    if scan.forward then key row < scan.startKey else scan.startKey < key row := by
  cases direction : scan.forward <;> simp [before, direction]

omit [BoundedOrder K] in
theorem before_of_le (le : scan.Le (key a) (key b)) (early : scan.before key b) :
    scan.before key a := by
  rw [before_iff] at early ⊢
  rw [Le] at le
  split_ifs at le early ⊢
  · exact le.trans_lt early
  · exact early.trans_le le

/-- Beyond the end a scan stays beyond it. -/
theorem stops_of_le (le : scan.Le (key a) (key b)) (beyond : scan.stops key a) :
    scan.stops key b := by
  rw [stops_iff] at beyond ⊢
  obtain ⟨some, beyond⟩ := beyond
  refine ⟨some, ?_⟩
  rw [Le] at le
  cases direction : scan.forward <;> simp only [direction, if_true, Bool.false_eq_true, if_false]
    at le beyond ⊢ <;> grind

end RangeScan

namespace IndexCursor

variable {scan : RangeScan K} {c : IndexCursor Row}

/-- The rows a cursor has still to yield. -/
def left (key : Row → K) (scan : RangeScan K) (c : IndexCursor Row) : List Row :=
  if c.ok then c.ahead.takeWhile fun row => !scan.stops key row else []

/-- A cursor that is not exhausted is at a row within the end. -/
def Checked (key : Row → K) (scan : RangeScan K) (c : IndexCursor Row) : Prop :=
  c.ok → ∃ row rest, c.ahead = row :: rest ∧ scan.stops key row = false

theorem checked_checkEnd (somewhere : c.ok → c.ahead ≠ []) :
    (c.checkEnd key scan).Checked key scan := by
  rw [checkEnd]
  split
  · next none => exact fun ok => absurd none (somewhere ok)
  · next row rest split =>
      split_ifs with stop
      · exact fun ok => absurd ok Bool.false_ne_true
      · exact fun ok => ⟨row, rest, split, by simpa [ok] using stop⟩

theorem left_checkEnd : (c.checkEnd key scan).left key scan = c.left key scan := by
  rw [checkEnd]
  split
  · rfl
  · next row rest split =>
      split_ifs with stop
      · simp only [Bool.and_eq_true] at stop
        simp [left, split, stop]
      · rfl

theorem checked_at (ahead : List Row) :
    (checkEnd key scan ⟨ahead, !ahead.isEmpty⟩).Checked key scan :=
  checked_checkEnd fun somewhere => by simpa using somewhere

theorem left_at (ahead : List Row) : left key scan ⟨ahead, !ahead.isEmpty⟩ =
    ahead.takeWhile fun row => !scan.stops key row := by
  cases ahead <;> rfl

theorem current_eq_head (checked : c.Checked key scan) :
    c.current = (c.left key scan).head? := by
  rw [current, left]
  split_ifs with ok
  · obtain ⟨row, rest, split, within⟩ := checked ok
    simp [split, within]
  · rfl

theorem left_advance (checked : c.Checked key scan) :
    (c.advance key scan).left key scan = (c.left key scan).tail := by
  by_cases ok : c.ok
  · obtain ⟨row, rest, split, within⟩ := checked ok
    rw [advance, if_pos ok, left_checkEnd, left_at, left, if_pos ok, split,
      List.takeWhile_cons_of_pos (by simpa using within)]
    rfl
  · simp [advance, left, ok]

theorem checked_advance (checked : c.Checked key scan) :
    (c.advance key scan).Checked key scan := by
  rw [advance]
  split_ifs
  · exact checked_at c.ahead.tail
  · exact checked

theorem checked_create {rows : List Row} : (create key scan rows).Checked key scan := checked_at _

/-- An index cursor starts with the rows of the scan. -/
theorem left_create {rows : List Row} :
    (create key scan rows).left key scan = (scan.order key rows).filter (scan.inScan key) := by
  have sorted : (scan.order key rows).Pairwise fun a b => scan.Le (key a) (key b) :=
    RangeScan.pairwise_order
  have started := dropWhile_eq_filter sorted fun a b => RangeScan.before_of_le
  have stopped := takeWhile_eq_filter (p := fun row => !scan.stops key row)
    (sorted.filter fun row => !scan.before key row) fun a b le within => by
      have := mt (RangeScan.stops_of_le le)
      simp_all
  rw [create, left_checkEnd, setPosition, left_at, started, stopped, List.filter_filter]
  congr 1
  funext row
  rw [RangeScan.inScan, Bool.and_comm]

theorem yields_create {rows : List Row} : Yields current (advance key scan)
    (create key scan rows) ((scan.order key rows).filter (scan.inScan key)) := by
  rw [← left_create]
  exact Yields.of_left (fun _ => current_eq_head) (fun _ => left_advance)
    (fun _ => checked_advance) checked_create

end IndexCursor

/-! ### One cursor after the other -/

open IndexCursor

namespace PartitionedCursor

variable {pc : PartitionedCollection K Row} {scan : RangeScan K} {c : PartitionedCursor Row}

/-- The partitions to visit after the current one. -/
def toVisit (c : PartitionedCursor Row) : List Nat :=
  if c.forward then List.range' (c.currPartition + 1) c.remaining
  else (List.range' c.endPartition c.remaining).reverse

/-- The rows a cursor has still to yield. -/
def left (key : Row → K) (pc : PartitionedCollection K Row) (scan : RangeScan K)
    (c : PartitionedCursor Row) : List Row :=
  c.currentCursor.left key scan ++
    c.toVisit.flatMap fun i => (makeSubCursor key pc scan i).left key scan

/-- A cursor is exhausted only in the last partition. -/
structure Settled (key : Row → K) (scan : RangeScan K) (c : PartitionedCursor Row) : Prop where
  checked : c.currentCursor.Checked key scan
  last : c.currentCursor.ok ∨ c.currPartition = c.endPartition

theorem toVisit_eq_cons (more : c.currPartition ≠ c.endPartition) :
    c.toVisit = (c.nextPartition key pc scan more).currPartition ::
      (c.nextPartition key pc scan more).toVisit := by
  have ordered := c.ordered
  rw [InOrder] at ordered
  cases direction : c.forward
  · simp only [direction, Bool.false_eq_true, if_false] at ordered
    have count : c.currPartition - c.endPartition = c.currPartition - 1 - c.endPartition + 1 := by
      omega
    have last : c.endPartition + (c.currPartition - 1 - c.endPartition) = c.currPartition - 1 := by
      omega
    simp [toVisit, nextPartition, remaining, direction, count, List.range'_concat, last]
  · simp only [direction, if_true] at ordered
    have count : c.endPartition - c.currPartition = c.endPartition - (c.currPartition + 1) + 1 := by
      omega
    simp [toVisit, nextPartition, remaining, direction, count, List.range'_succ]

theorem left_nextPartition (exhausted : ¬ c.currentCursor.ok)
    (more : c.currPartition ≠ c.endPartition) :
    (c.nextPartition key pc scan more).left key pc scan = c.left key pc scan := by
  have visits : c.toVisit = (c.nextPartition key pc scan more).currPartition :: _ :=
    toVisit_eq_cons more
  rw [left, left, visits, List.flatMap_cons, IndexCursor.left, IndexCursor.left, if_neg exhausted]
  rfl

/-- Moving on loses no row. -/
theorem moveOn_spec (checked : c.currentCursor.Checked key scan) :
    (moveOn key pc scan c).left key pc scan = c.left key pc scan ∧
      (moveOn key pc scan c).Settled key scan := by
  fun_induction moveOn key pc scan c with
  | case1 c more ih =>
    obtain ⟨same, settled⟩ := ih checked_create
    exact ⟨same.trans (left_nextPartition more.1 more.2), settled⟩
  | case2 c stop =>
    refine ⟨rfl, checked, ?_⟩
    by_contra neither
    push Not at neither
    exact stop neither

/-- In the last partition nothing is left behind the current cursor. -/
theorem left_of_exhausted (settled : c.Settled key scan) (exhausted : ¬ c.currentCursor.ok) :
    c.left key pc scan = [] := by
  have last := settled.last.resolve_left exhausted
  simp [left, IndexCursor.left, exhausted, toVisit, remaining, last]

theorem left_eq_cons (settled : c.Settled key scan) (ok : c.currentCursor.ok) :
    ∃ row rest, c.currentCursor.left key scan = row :: rest := by
  obtain ⟨row, rest, split, within⟩ := settled.checked ok
  exact ⟨row, _, by rw [IndexCursor.left, if_pos ok, split, List.takeWhile_cons_of_pos (by simpa)]⟩

/-- A partitioned cursor yields what is left of its current cursor, then the rows of the
partitions to visit. -/
theorem yields (settled : c.Settled key scan) :
    Yields current (advance key pc scan) c (c.left key pc scan) := by
  refine Yields.of_left (fun c settled => ?_) (fun c settled => ?_) (fun c settled => ?_) settled
  · rw [current, current_eq_head settled.checked]
    by_cases ok : c.currentCursor.ok
    · obtain ⟨row, rest, split⟩ := left_eq_cons settled ok
      rw [left, split]
      rfl
    · rw [left_of_exhausted settled ok, IndexCursor.left, if_neg ok]
  · rw [advance, (moveOn_spec (checked_advance settled.checked)).1]
    by_cases ok : c.currentCursor.ok
    · obtain ⟨row, rest, split⟩ := left_eq_cons settled ok
      rw [left, left, left_advance settled.checked, split]
      rfl
    · have same : c.currentCursor.advance key scan = c.currentCursor := if_neg ok
      simp only [same, left_of_exhausted settled ok, List.tail_nil]
  · exact (moveOn_spec (checked_advance settled.checked)).2

/-- The partitions from one to another in the order of the scan. -/
def visited (scan : RangeScan K) (startPartition endPartition : Nat) : List Nat :=
  if scan.forward then List.range' startPartition (endPartition + 1 - startPartition)
  else (List.range' endPartition (startPartition + 1 - endPartition)).reverse

/-- A partition lies between two others, in the order of the scan. -/
def Visits (scan : RangeScan K) (s e i : Nat) : Prop :=
  if scan.forward then s ≤ i ∧ i ≤ e else e ≤ i ∧ i ≤ s

instance (scan : RangeScan K) (s e i : Nat) : Decidable (Visits scan s e i) :=
  inferInstanceAs (Decidable (ite _ _ _))

/-- The rows of a partition that belong to the scan. -/
def part (key : Row → K) (pc : PartitionedCollection K Row) (scan : RangeScan K) (i : Nat) :
    List Row :=
  (scan.order key (pc.partitions[i]?.elim [] Partition.rows)).filter (scan.inScan key)

theorem left_makeSubCursor (i : Nat) :
    (makeSubCursor key pc scan i).left key scan = part key pc scan i :=
  left_create

omit [LinearOrder K] [BoundedOrder K] in
theorem visited_eq_cons (ordered : InOrder c.forward c.currPartition c.endPartition)
    (same : scan.forward = c.forward) :
    visited scan c.currPartition c.endPartition = c.currPartition :: c.toVisit := by
  rw [InOrder] at ordered
  cases direction : c.forward
  · simp only [direction, Bool.false_eq_true, if_false] at ordered
    have count : c.currPartition + 1 - c.endPartition = c.currPartition - c.endPartition + 1 := by
      omega
    have last : c.endPartition + (c.currPartition - c.endPartition) = c.currPartition := by omega
    simp [visited, toVisit, remaining, same, direction, count, List.range'_concat, last]
  · simp only [direction, if_true] at ordered
    have count : c.endPartition + 1 - c.currPartition = c.endPartition - c.currPartition + 1 := by
      omega
    simp [visited, toVisit, remaining, same, direction, count, List.range'_succ]

variable (key pc) in
/-- A cursor that can be made yields the rows of all partitions it is to visit. -/
theorem yields_create {startPartition endPartition : Nat}
    (ordered : InOrder scan.forward startPartition endPartition) :
    ∃ c, create key pc scan startPartition endPartition = .ok c ∧
      Yields current (advance key pc scan) c
        ((visited scan startPartition endPartition).flatMap (part key pc scan)) := by
  let first : PartitionedCursor Row :=
    ⟨scan.forward, endPartition, startPartition, makeSubCursor key pc scan startPartition, ordered⟩
  have checked : first.currentCursor.Checked key scan := checked_create
  obtain ⟨same, settled⟩ := moveOn_spec checked
  have left_first : first.left key pc scan =
      (visited scan startPartition endPartition).flatMap (part key pc scan) := by
    have visits : visited scan startPartition endPartition = startPartition :: first.toVisit :=
      visited_eq_cons (c := first) ordered rfl
    have start : first.currentCursor.left key scan = part key pc scan startPartition :=
      left_makeSubCursor startPartition
    rw [left, visits, List.flatMap_cons, start]
    simp only [left_makeSubCursor]
  refine ⟨moveOn key pc scan first, dif_pos ordered, ?_⟩
  rw [← left_first, ← same]
  exact yields settled

end PartitionedCursor

/-! ### All partitions as one index -/

namespace PartitionedCollection

open PartitionedCursor

variable {pc : PartitionedCollection K Row} {scan : RangeScan K} (wf : pc.WellFormed key)

omit [LinearOrder K] [BoundedOrder K] in
theorem mem_rowsAt {i : Nat} {row : Row} :
    row ∈ pc.partitions[i]?.elim [] Partition.rows ↔ pc.At i row := by
  cases here : pc.partitions[i]? <;> simp [At, here]

/-- All partitions, in the order of the scan. -/
def allPartitions (pc : PartitionedCollection K Row) (scan : RangeScan K) : List Nat :=
  if scan.forward then List.range pc.numPartitions else (List.range pc.numPartitions).reverse

omit [LinearOrder K] [BoundedOrder K] in
theorem perm_allPartitions : (pc.allPartitions scan).Perm (List.range pc.numPartitions) := by
  rw [allPartitions]
  split
  · exact .refl _
  · exact List.reverse_perm _

omit [LinearOrder K] [BoundedOrder K] in
theorem pairwise_allPartitions :
    (pc.allPartitions scan).Pairwise fun i j => if scan.forward then i < j else j < i := by
  rw [allPartitions]
  cases scan.forward
  · simpa [List.pairwise_reverse] using List.pairwise_lt_range
  · simpa using List.pairwise_lt_range

omit [LinearOrder K] [BoundedOrder K] in
theorem visited_eq_filter {s e : Nat} (inside : s < pc.numPartitions)
    (inside' : e < pc.numPartitions) :
    visited scan s e = (pc.allPartitions scan).filter fun i => Visits scan s e i := by
  by_cases forward : scan.forward
  · have between : (fun i => decide (Visits scan s e i)) = fun i => decide (s ≤ i ∧ i ≤ e) :=
      funext fun i => by simp [Visits, forward]
    rw [visited, allPartitions, if_pos forward, if_pos forward, between,
      filter_range_between inside']
  · have between : (fun i => decide (Visits scan s e i)) = fun i => decide (e ≤ i ∧ i ≤ s) :=
      funext fun i => by simp [Visits, forward]
    rw [visited, allPartitions, if_neg forward, if_neg forward, between, List.filter_reverse,
      filter_range_between inside]

include wf

omit [BoundedOrder K] in
/-- Rows of different partitions are in the order of the partitions. -/
theorem key_lt_of_at {i j : Nat} {a b : Row} (at_i : pc.At i a) (at_j : pc.At j b) (lt : i < j) :
    key a < key b := by
  by_contra not_less
  have mono : rank pc.pivots (key b) ≤ rank pc.pivots (key a) := rank_mono (not_lt.mp not_less)
  rw [wf.placed i a at_i, wf.placed j b at_j] at mono
  omega

omit [BoundedOrder K] in
/-- One index with all documents is the indexes of the partitions one after the other. -/
theorem order_rows (unique : (pc.rows.map key).Nodup) : scan.order key pc.rows =
    (pc.allPartitions scan).flatMap fun i =>
      scan.order key (pc.partitions[i]?.elim [] Partition.rows) := by
  have all : ((pc.allPartitions scan).flatMap fun i =>
      scan.order key (pc.partitions[i]?.elim [] Partition.rows)).Perm pc.rows := by
    refine (perm_allPartitions.flatMap fun i _ => RangeScan.perm_order).trans ?_
    rw [rows, ← flatMap_range_getElem? Partition.rows pc.partitions]
    rfl
  refine List.Perm.eq_of_pairwise (fun a b mem mem' le le' => ?_) RangeScan.pairwise_order ?_
    (RangeScan.perm_order.trans all.symm)
  · have same : key a = key b := by
      rw [RangeScan.Le] at le le'
      split_ifs at le le'
      · exact le_antisymm le le'
      · exact le_antisymm le' le
    exact List.inj_on_of_nodup_map unique (RangeScan.perm_order.mem_iff.mp mem)
      (all.mem_iff.mp mem') same
  · refine List.pairwise_flatMap.mpr ⟨fun i _ => RangeScan.pairwise_order, ?_⟩
    refine pairwise_allPartitions.imp fun {i j} apart a mem b mem' => ?_
    have at_i := mem_rowsAt.mp (RangeScan.perm_order.mem_iff.mp mem)
    have at_j := mem_rowsAt.mp (RangeScan.perm_order.mem_iff.mp mem')
    rw [RangeScan.Le]
    split_ifs at apart ⊢
    · exact (key_lt_of_at wf at_i at_j apart).le
    · exact (key_lt_of_at wf at_j at_i apart).le

variable (scan) in
/-- What one index with all documents yields. -/
theorem yields_rows (unique : (pc.rows.map key).Nodup) :
    Yields IndexCursor.current (.advance key scan) (.create key scan pc.rows)
      ((pc.allPartitions scan).flatMap (part key pc scan)) := by
  have all : Yields IndexCursor.current (.advance key scan) (.create key scan pc.rows) _ :=
    IndexCursor.yields_create
  rwa [order_rows wf unique, List.filter_flatMap] at all

/-- Partitions before that of the start key, or behind that of the end key, hold no row of the
scan. -/
theorem part_eq_nil (bounded : scan.forward → scan.endKey ≠ ⊥) {i : Nat}
    (outside : ¬ Visits scan (pc.partitionWithPK scan.startKey) (pc.partitionWithPK scan.endKey)
      i) :
    part key pc scan i = [] := by
  rw [part, List.filter_eq_nil_iff]
  intro row mem chosen
  have at_i := wf.placed i row (mem_rowsAt.mp (RangeScan.perm_order.mem_iff.mp mem))
  have lt_of_rank : ∀ {a b : K}, rank pc.pivots a < rank pc.pivots b → a < b :=
    fun less => not_le.mp fun le => absurd (rank_mono le) (not_le.mpr less)
  simp only [RangeScan.inScan, Bool.and_eq_true, Bool.not_eq_true', Bool.eq_false_iff, ne_eq,
    RangeScan.before_iff, RangeScan.stops_iff] at chosen
  obtain ⟨late, within⟩ := chosen
  simp only [Visits, partitionWithPK_eq_rank wf, ← at_i] at outside
  split_ifs at outside late within with forward
  · rcases Nat.lt_or_ge (rank pc.pivots (key row)) (rank pc.pivots scan.startKey) with early | upto
    · exact late (lt_of_rank early)
    · exact within ⟨bounded forward, .inl (lt_of_rank (by omega))⟩
  · rcases Nat.lt_or_ge (rank pc.pivots scan.startKey) (rank pc.pivots (key row)) with early | upto
    · exact late (lt_of_rank early)
    · have behind : rank pc.pivots (key row) < rank pc.pivots scan.endKey := by omega
      refine within ⟨fun noEnd => ?_, .inl (lt_of_rank behind)⟩
      simp [noEnd, rank] at behind

omit [BoundedOrder K] in
theorem partitionWithPK_lt (pk : K) : pc.partitionWithPK pk < pc.numPartitions := by
  have bound : rank pc.pivots pk ≤ pc.pivots.length := rank_le_length
  have length := wf.length
  rw [partitionWithPK_eq_rank wf, numPartitions]
  omega

omit wf in
/-- Iterating over the partitions gives what one index gives, if those that are not visited hold
no row of the scan. -/
theorem flatMap_visited {s e : Nat} (inside : s < pc.numPartitions) (inside' : e < pc.numPartitions)
    (nothing : ∀ i < pc.numPartitions, ¬ Visits scan s e i → part key pc scan i = []) :
    (visited scan s e).flatMap (part key pc scan) =
      (pc.allPartitions scan).flatMap (part key pc scan) := by
  rw [visited_eq_filter inside inside']
  refine flatMap_filter_of_nil fun i mem outside => nothing i ?_ (of_decide_eq_false outside)
  exact List.mem_range.mp (perm_allPartitions.mem_iff.mp mem)

/-- Without an end key a scan forwards only visits the first partition, but an index is scanned
to its end. -/
theorem first_of_unbounded (forward : scan.forward) (noEnd : scan.endKey = ⊥)
    (ordered : pc.partitionWithPK scan.startKey ≤ pc.partitionWithPK scan.endKey)
    (same : (visited scan (pc.partitionWithPK scan.startKey)
        (pc.partitionWithPK scan.endKey)).flatMap (part key pc scan) =
      (pc.allPartitions scan).flatMap (part key pc scan))
    {row : Row} (mem : row ∈ pc.rows) : pc.partitionWithPK (key row) = 0 := by
  obtain ⟨i, at_i⟩ := mem_rows.mp mem
  have place := wf.placed i row at_i
  rw [partitionWithPK_eq_rank wf, place]
  by_contra other
  simp only [partitionWithPK_eq_rank wf] at ordered same
  have bottom : rank pc.pivots scan.endKey = 0 := by simp [noEnd, rank]
  have chosen : scan.inScan key row := by
    simp only [RangeScan.inScan, Bool.and_eq_true, Bool.not_eq_true', Bool.eq_false_iff, ne_eq,
      RangeScan.before_iff, RangeScan.stops_iff, forward, if_true, noEnd, not_true_eq_false,
      false_and, not_false_eq_true, and_true]
    intro early
    have mono : rank pc.pivots (key row) ≤ rank pc.pivots scan.startKey := rank_mono early.le
    omega
  have held : row ∈ part key pc scan i :=
    List.mem_filter.mpr ⟨RangeScan.perm_order.mem_iff.mpr (mem_rowsAt.mpr at_i), chosen⟩
  have inside : i < pc.numPartitions := by
    rw [← place, ← partitionWithPK_eq_rank wf]
    exact partitionWithPK_lt wf _
  have yielded : row ∈ (pc.allPartitions scan).flatMap (part key pc scan) :=
    List.mem_flatMap.mpr ⟨i, perm_allPartitions.mem_iff.mpr (List.mem_range.mpr inside), held⟩
  rw [← same, List.mem_flatMap] at yielded
  obtain ⟨j, visit, held⟩ := yielded
  have at_j := mem_rowsAt.mp (RangeScan.perm_order.mem_iff.mp (List.mem_filter.mp held).1)
  have : j = i := (wf.placed j row at_j).symm.trans place
  rw [visited, if_pos forward, List.mem_range'_1] at visit
  omega

section Requests

omit wf in
theorem makeCursor_failed (minKey : K)
    (unordered : ¬ InOrder scan.forward (pc.partitionWithPK scan.startKey)
      (pc.partitionWithPK scan.endKey)) :
    pc.makeCursor key minKey (.rangeScan scan) = .error .verifyFailed :=
  dif_neg unordered

variable (unique : (pc.rows.map key).Nodup) (minKey : K)
include unique

theorem yieldsUnion_tableScan (forward : Bool) :
    pc.YieldsUnion key minKey (.tableScan forward) := by
  have length := wf.length
  let scan : RangeScan K := .table minKey forward
  let s := if forward then 0 else pc.numPartitions - 1
  let e := if forward then pc.numPartitions - 1 else 0
  have ordered : InOrder scan.forward s e := by
    cases forward <;> simp [InOrder, scan, s, e, RangeScan.table]
  have inside : s < pc.numPartitions ∧ e < pc.numPartitions := by
    cases forward <;> simp [s, e, numPartitions] <;> omega
  obtain ⟨c, made, yields⟩ := yields_create key pc ordered
  have all := yields_rows scan wf unique
  refine ⟨c, made, _, yields, ?_⟩
  rwa [flatMap_visited inside.1 inside.2 fun i lt outside => ?_]
  refine absurd ?_ outside
  cases forward <;> simp [Visits, scan, s, e, RangeScan.table] <;> omega

theorem fits_of_yieldsUnion (union : pc.YieldsUnion key minKey (.rangeScan scan)) :
    pc.Fits key (.rangeScan scan) := by
  obtain ⟨c, made, rows, yields, yields'⟩ := union
  by_cases ordered : InOrder scan.forward (pc.partitionWithPK scan.startKey)
      (pc.partitionWithPK scan.endKey)
  · obtain ⟨c', made', visits⟩ := yields_create key pc ordered
    obtain rfl : c = c' := Except.ok.inj (made.symm.trans made')
    refine ⟨ordered, fun ⟨forward, noEnd⟩ row mem => ?_⟩
    rw [InOrder, if_pos forward] at ordered
    exact first_of_unbounded wf forward noEnd ordered
      ((visits.unique yields).trans (yields'.unique (yields_rows scan wf unique))) mem
  · rw [makeCursor_failed minKey ordered] at made
    cases made

theorem yieldsUnion_of_fits (fits : pc.Fits key (.rangeScan scan)) :
    pc.YieldsUnion key minKey (.rangeScan scan) := by
  obtain ⟨ordered, first⟩ := fits
  obtain ⟨c, made, yields⟩ := yields_create key pc ordered
  have all := yields_rows scan wf unique
  refine ⟨c, made, _, yields, ?_⟩
  rwa [flatMap_visited (partitionWithPK_lt wf _) (partitionWithPK_lt wf _) fun i lt outside => ?_]
  by_cases unbounded : scan.forward ∧ scan.endKey = ⊥
  · -- the first partition is visited, and the others are empty
    refine List.filter_eq_nil_iff.mpr fun row mem _ => ?_
    have at_i := mem_rowsAt.mp (RangeScan.perm_order.mem_iff.mp mem)
    have place := first unbounded row (mem_rows.mpr ⟨i, at_i⟩)
    rw [partitionWithPK_eq_rank wf, wf.placed i row at_i] at place
    rw [InOrder, if_pos unbounded.1] at ordered
    have bottom : rank pc.pivots scan.endKey = 0 := by simp [unbounded.2, rank]
    simp only [Visits, if_pos unbounded.1, partitionWithPK_eq_rank wf] at outside ordered
    omega
  · exact part_eq_nil wf (fun forward noEnd => unbounded ⟨forward, noEnd⟩) outside

/-- Iterating over a partitioned collection is iterating over one index with all its documents
just if the scan fits the partitions. -/
theorem yieldsUnion_iff (request : ScanRequest K) :
    pc.YieldsUnion key minKey request ↔ pc.Fits key request := by
  cases request with
  | tableScan forward =>
    exact ⟨fun _ => trivial, fun _ => yieldsUnion_tableScan wf unique minKey forward⟩
  | rangeScan scan =>
    exact ⟨fits_of_yieldsUnion wf unique minKey, yieldsUnion_of_fits wf unique minKey⟩

end Requests

omit wf

/-- The documents 3 and 1 up to 5, and 8 and 6 above it. The keys are the numbers below 11,
where 0 stands for the empty object. -/
def upToFive : PartitionedCollection (Fin 11) (Fin 11) where
  pivots := [5]
  partitions := [⟨0, 0, none, [3, 1]⟩, ⟨1, 0, none, [8, 6]⟩]

theorem upToFive_wellFormed : upToFive.WellFormed id where
  length := rfl
  pivots_lt := by decide
  ids_lt := by decide
  placed index row held := by
    obtain ⟨p, found, mem⟩ := held
    match index with
    | 0 =>
      obtain rfl := Option.some.inj found
      revert row
      decide
    | 1 =>
      obtain rfl := Option.some.inj found
      revert row
      decide
    | n + 2 => simp [upToFive] at found

/-- Backwards from 7 to 2. -/
theorem yieldsUnion_iff_backwards :
    upToFive.WellFormed id ∧ (upToFive.rows.map id).Nodup ∧
      upToFive.YieldsUnion id 1 (.rangeScan ⟨7, 2, true, false⟩) :=
  ⟨upToFive_wellFormed, by decide, (yieldsUnion_iff upToFive_wellFormed (by decide) 1 _).mpr
    ⟨by decide, by decide⟩⟩

/-- Forwards from 7 to 2, which is an empty range, a check fails. Forwards from 1 without an end,
for which the least key stands, the documents above 5 are not found. -/
theorem scan_fails :
    (upToFive.makeCursor id 1 (.rangeScan ⟨7, 2, true, true⟩) = .error .verifyFailed ∧
      Yields IndexCursor.current (.advance id ⟨7, 2, true, true⟩)
        (.create id ⟨7, 2, true, true⟩ upToFive.rows) []) ∧
    ∃ c, upToFive.makeCursor id 1 (.rangeScan ⟨1, 0, true, true⟩) = .ok c ∧
      Yields PartitionedCursor.current (.advance id upToFive ⟨1, 0, true, true⟩) c [1, 3] ∧
      Yields IndexCursor.current (.advance id ⟨1, 0, true, true⟩)
        (.create id ⟨1, 0, true, true⟩ upToFive.rows) [1, 3, 6, 8] := by
  refine ⟨⟨makeCursor_failed 1 (by decide), .done (by decide)⟩, ?_⟩
  let scan : RangeScan (Fin 11) := ⟨1, 0, true, true⟩
  have ordered : InOrder scan.forward (upToFive.partitionWithPK scan.startKey)
      (upToFive.partitionWithPK scan.endKey) := by decide
  obtain ⟨c, made, yields⟩ := yields_create id upToFive ordered
  exact ⟨c, made, yields, yields_rows scan upToFive_wellFormed (by decide)⟩

end PartitionedCollection

end TokuMX.Collection
