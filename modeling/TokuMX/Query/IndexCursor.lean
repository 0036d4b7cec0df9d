import Mathlib.Data.List.Lex
import TokuMX.Query.RangeAdvice

/-!
Skipping through an index (`db/indexcursor.cpp`, `skipToNextKey`).

The cursor turns the advice of the range iterator into seeks. A prefix is skipped by seeking it
with extreme values behind it, and in a secondary index with an extreme primary key; a row that
is not before that place stays where the cursor lands.
-/

namespace TokuMX.Query

open TokuMX.Lib

variable {V : Type} [ElementValues V]

/-- A stored key: the index key and, in a secondary index, the primary key. -/
structure Row (V : Type) where
  key : List V
  pk : List V

/-- The rows of an index in scan order. -/
structure Index (V : Type) where
  isSecondary : Bool
  rows : List (Row V)
  plain : isSecondary = false → ∀ row ∈ rows, row.pk = []

/-- `BSONObj::woCompare` of primary keys, all of whose fields ascend. -/
def comparePks (l r : List V) : Int := BSON.woCompareLoop woCompareValues ⟨0⟩ 1 l r

/-- What `skipToNextKey` returns: `-2`, `-1`, or `0` with the row the cursor is then at. -/
inductive Skipped (V : Type) where
  | finished
  | stay
  | moved (cursor : Option (Row V))

namespace FieldRangeVector

variable (v : FieldRangeVector V)

/-- Primary keys in the direction of the scan. -/
def scanPks (l r : List V) : Int := if v.direction < 0 then -comparePks l r else comparePks l r

/-- The scan meets the first row before the second. -/
def RowBefore (a b : Row V) : Prop :=
  v.PrefixBefore v.ranges.length a.key b.key ∨
    v.SamePrefix v.ranges.length a.key b.key ∧ v.scanPks a.pk b.pk < 0

instance (a b : Row V) : Decidable (v.RowBefore a b) := inferInstanceAs (Decidable (_ ∨ _))

/-- `setPosition`: the first stored row at or beyond the given one. -/
def setPosition (idx : Index V) (target : Row V) : Option (Row V) :=
  idx.rows.find? fun row => ¬ v.RowBefore row target

/-- The row that `findKey` seeks. -/
def findTarget (idx : Index V) (key : List V) : Row V where
  key := key
  pk :=
    if idx.isSecondary then
      [if v.direction < 0 then ElementValues.maxKey else ElementValues.minKey]
    else []

/-- The value that skips forward in a field. -/
def lastValue (i : Nat) : V :=
  if v.number i < 0 then
    if v.direction < 0 then ElementValues.maxKey else ElementValues.minKey
  else
    if v.direction < 0 then ElementValues.minKey else ElementValues.maxKey

/-- The row that `skipPrefix` seeks: the first `k` fields of the key and extreme values. -/
def skipTarget (idx : Index V) (key : List V) (k : Nat) : Row V where
  key := (List.range v.ranges.length).map fun i => if i < k then field key i else v.lastValue i
  pk :=
    if idx.isSecondary then
      [if v.direction < 0 then ElementValues.minKey else ElementValues.maxKey]
    else []

/-- The key to skip to: the first `r` fields of the current key and the bounds in `cmp`. -/
def positionKey (it : FieldRangeVectorIterator V) (r : Nat) (key : List V) : List V :=
  (List.range v.ranges.length).map fun i =>
    if i < r then field key i else (it.cmp i).bound.value

/-- The row that is sought first. -/
def sought (idx : Index V) (it : FieldRangeVectorIterator V) (r : Nat) (key : List V) : Row V :=
  v.findTarget idx (v.positionKey it r key)

/-- The first field of a row from `r` on that equals an exclusive bound. -/
def exclusiveField (it : FieldRangeVectorIterator V) (r : Nat) (row : Row V) : Option Nat :=
  (List.range v.ranges.length).find? fun i =>
    r ≤ i ∧ ¬ (it.cmp i).inclusive ∧ woCompareValues (field row.key i) (it.cmp i).bound.value = 0

/-- The loop at `again`, for at most `fuel` rounds. -/
def skipExclusive (idx : Index V) (it : FieldRangeVectorIterator V) (r : Nat) :
    (fuel : Nat) → (cursor : Option (Row V)) → Option (Option (Row V))
  | 0, _ => none
  | _ + 1, none => some none
  | fuel + 1, some row =>
    match v.exclusiveField it r row with
    | none => some (some row)
    | some i => skipExclusive idx it r fuel (v.setPosition idx (v.skipTarget idx row.key (i + 1)))

/-- The part of `skipToNextKey` that skips. -/
def skipFrom (idx : Index V) (it : FieldRangeVectorIterator V) (r : Nat) (key : List V)
    (fuel : Nat) : Option (Option (Row V)) :=
  if it.after then some (v.setPosition idx (v.skipTarget idx key r))
  else
    let cursor := v.setPosition idx (v.sought idx it r key)
    let allInclusive := (List.range v.ranges.length).all fun i => (it.cmp i).inclusive
    if allInclusive then some cursor else v.skipExclusive idx it r fuel cursor

/-- `skipToNextKey`; there is no result while the loop at `again` is still running. -/
def skipToNextKey (idx : Index V) (it : FieldRangeVectorIterator V) (currentKey : List V)
    (fuel : Nat) : Option (Skipped V × FieldRangeVectorIterator V) :=
  match v.advance it currentKey with
  | (.finished, it) => some (.finished, it)
  | (.next, it) => some (.stay, it)
  | (.skip r, it) => (v.skipFrom idx it r currentKey fuel).map fun cursor => (.moved cursor, it)

/-! ### What a skip has to do -/

/-- The row is passed over: it is not before the current one, and the cursor is beyond it. -/
def PassedOver (cursor : Option (Row V)) (current row : Row V) : Prop :=
  ¬ v.RowBefore row current ∧ ∀ landed, cursor = some landed → v.RowBefore row landed

/-- The cursor moves strictly forward and over no row whose key matches. -/
def MovesRight (idx : Index V) (current : Row V) (cursor : Option (Row V)) : Prop :=
  (∀ landed, cursor = some landed → v.RowBefore current landed) ∧
    ∀ row ∈ idx.rows, v.PassedOver cursor current row → v.matchesKey row.key = false

/-- `skipToNextKey` terminates, and if it moves the cursor it moves it right. -/
def SkipsRight (idx : Index V) (it : FieldRangeVectorIterator V) (current : Row V) : Prop :=
  ∃ fuel out it', v.skipToNextKey idx it current.key fuel = some (out, it') ∧
    ∀ cursor, out = .moved cursor → v.MovesRight idx current cursor

/-- Sound advice to skip: the current key is left behind, and neither a key that is passed over
nor one that has an exclusive bound of the position matches. -/
structure SoundAdvice (it : FieldRangeVectorIterator V) (r : Nat) (key : List V) : Prop where
  bounded : r ≤ v.ranges.length
  behind : ¬ v.Reached it r key key
  skipped : ∀ k, v.ScanLe key k → ¬ v.Reached it r key k → v.matchesKey k = false
  exclusive : it.after = false → ∀ j, r ≤ j → j < v.ranges.length → ¬ (it.cmp j).inclusive →
    ∀ k, woCompareValues (field k j) (it.cmp j).bound.value = 0 → v.matchesKey k = false

/-! ### When a skip does it -/

/-- Something comes behind the row in scan order that has the same first `k` fields: a field from
`k` on is not the last of its values, or in a secondary index the primary key leaves room. Forwards
it must not begin with `MaxKey`, backwards it must not be `MinKey` alone. -/
def Passable (idx : Index V) (row : Row V) (k : Nat) : Prop :=
  (∃ i, k ≤ i ∧ i < v.ranges.length ∧ woCompareValues (field row.key i) (v.scanLast i) ≠ 0) ∨
    idx.isSecondary ∧
      if v.direction < 0 then
        row.pk ≠ [] ∧ ∀ e, row.pk = [e] → woCompareValues e ElementValues.minKey ≠ 0
      else ∀ e ∈ row.pk.head?, woCompareValues e ElementValues.maxKey ≠ 0

/-- The row has a primary key outside those of one field: none forwards, or a compound one that
begins with `MaxKey` backwards. -/
def Hidden (idx : Index V) (row : Row V) : Prop :=
  idx.isSecondary ∧
    if v.direction < 0 then
      1 < row.pk.length ∧ ∀ e ∈ row.pk.head?, woCompareValues e ElementValues.maxKey = 0
    else row.pk = []

/-- The row is at or beyond the position of the advice. -/
def AtOrBeyond (idx : Index V) (it : FieldRangeVectorIterator V) (r : Nat) (key : List V)
    (row : Row V) : Prop :=
  ¬ v.PrefixBefore v.ranges.length row.key (v.positionKey it r key) ∧
    ¬ (v.SamePrefix v.ranges.length row.key (v.positionKey it r key) ∧ v.Hidden idx row)

/-- The field of the row, from `r` on, equals an exclusive bound. -/
def Excluded (it : FieldRangeVectorIterator V) (r : Nat) (row : Row V) (i : Nat) : Prop :=
  r ≤ i ∧ ¬ (it.cmp i).inclusive ∧ woCompareValues (field row.key i) (it.cmp i).bound.value = 0

/-- No row stands in the way of the seeks. -/
structure Clear (idx : Index V) (it : FieldRangeVectorIterator V) (r : Nat) (key : List V) :
    Prop where
  /-- where all rows from the position up to this one have an exclusive bound, something comes
  behind the rows with its fields up to the bound -/
  unstuck : ∀ row ∈ idx.rows, v.AtOrBeyond idx it r key row →
    (∀ other ∈ idx.rows, v.AtOrBeyond idx it r key other → ¬ v.RowBefore row other →
      ∃ i < v.ranges.length, Excluded it r other i) →
    ∀ i < v.ranges.length, Excluded it r row i → (∀ j < i, ¬ Excluded it r row j) →
      v.Passable idx row (i + 1)
  /-- no matching row with the key of the position is hidden -/
  sought : ∀ row ∈ idx.rows, v.SamePrefix v.ranges.length row.key (v.positionKey it r key) →
    v.Hidden idx row → v.matchesKey row.key = false

variable {v}

/-! ### Rows as positions -/

section Positions

variable {P L : Type} [LinearOrder P] [LinearOrder L]

/-- Positions of rows in scan order: those of the keys' fields come first. -/
structure Positions (v : FieldRangeVector V) (pos : Nat → V → P) (rowAt : Row V → L) : Prop where
  scanned : v.Scanned pos
  before_iff : ∀ a b, v.RowBefore a b ↔ rowAt a < rowAt b
  lt_of_prefix : ∀ a b, PrefixLt v.ranges.length (place pos a.key) (place pos b.key) →
    rowAt a < rowAt b
  eq_of_agree : ∀ a b, Agree v.ranges.length (place pos a.key) (place pos b.key) →
    a.pk = b.pk → rowAt a = rowAt b

/-- Where all rows from `base` up to a row have an exclusive bound, skipping that of the row
leads beyond it. -/
def Unstuck (v : FieldRangeVector V) (rowAt : Row V → L) (idx : Index V)
    (it : FieldRangeVectorIterator V) (r : Nat) (base : Row V) : Prop :=
  ∀ row ∈ idx.rows, rowAt base ≤ rowAt row →
    (∀ c ∈ idx.rows, rowAt base ≤ rowAt c → rowAt c ≤ rowAt row → v.exclusiveField it r c ≠ none) →
    ∀ i, v.exclusiveField it r row = some i → rowAt row < rowAt (v.skipTarget idx row.key (i + 1))

/-- The first row from `base` on without an exclusive bound. -/
def firstPlain (v : FieldRangeVector V) (idx : Index V) (it : FieldRangeVectorIterator V) (r : Nat)
    (base : Row V) : Option (Row V) :=
  idx.rows.find? fun c => ¬ v.RowBefore c base ∧ v.exclusiveField it r c = none

/-- In a list that ascends, `find?` gives the least element. -/
theorem find?_eq_some_iff_least {α : Type} {f : α → L} {l : List α}
    (sorted : l.Pairwise fun a b => f a < f b) {p : α → Bool} {a : α} :
    l.find? p = some a ↔ a ∈ l ∧ p a ∧ ∀ b ∈ l, p b → f a ≤ f b := by
  induction l with
  | nil => simp
  | cons b l ih =>
    obtain ⟨first, rest⟩ := List.pairwise_cons.mp sorted
    cases holds : p b
    · rw [List.find?_cons_of_neg (by simp [holds]), ih rest]
      constructor
      · rintro ⟨mem, here, least⟩
        refine ⟨List.mem_cons_of_mem _ mem, here, fun c at_c holds_c => ?_⟩
        rcases List.mem_cons.mp at_c with rfl | at_c
        · simp [holds] at holds_c
        · exact least c at_c holds_c
      · rintro ⟨mem, here, least⟩
        refine ⟨(List.mem_cons.mp mem).resolve_left ?_, here,
          fun c at_c => least c (List.mem_cons_of_mem _ at_c)⟩
        rintro rfl
        simp [holds] at here
    · rw [List.find?_cons_of_pos holds]
      constructor
      · intro eq
        obtain rfl := Option.some.inj eq
        refine ⟨List.mem_cons_self, holds, fun c at_c _ => ?_⟩
        rcases List.mem_cons.mp at_c with rfl | at_c
        · exact le_rfl
        · exact (first c at_c).le
      · rintro ⟨mem, _, least⟩
        rcases List.mem_cons.mp mem with rfl | mem
        · rfl
        · exact absurd (least b List.mem_cons_self holds) (not_le.mpr (first a mem))

theorem eq_of_sorted {α : Type} {f : α → L} {l : List α} (sorted : l.Pairwise fun a b => f a < f b)
    {a b : α} (mem : a ∈ l) (mem' : b ∈ l) (same : f a = f b) : a = b :=
  List.inj_on_of_nodup_map (List.pairwise_map.mpr (sorted.imp fun less => less.ne)) mem mem' same

omit [ElementValues V] in
theorem field_map_range [ElementValues V] {n i : Nat} (lt : i < n) (f : Nat → V) :
    field ((List.range n).map f) i = f i := by
  simp [field, List.getD, lt]

variable {pos : Nat → V → P} {rowAt : Row V → L} (positions : v.Positions pos rowAt)
  {idx : Index V} {it : FieldRangeVectorIterator V} {r k : Nat} {key : List V} {a b base : Row V}
include positions

theorem not_before_iff : ¬ v.RowBefore a b ↔ rowAt b ≤ rowAt a := by
  rw [positions.before_iff, not_lt]

theorem lt_of_prefixLt (le : k ≤ v.ranges.length)
    (less : PrefixLt k (place pos a.key) (place pos b.key)) : rowAt a < rowAt b :=
  positions.lt_of_prefix a b (less.mono le)

theorem setPosition_eq_some (sorted : idx.rows.Pairwise fun a b => rowAt a < rowAt b)
    (found : v.setPosition idx a = some b) :
    b ∈ idx.rows ∧ rowAt a ≤ rowAt b ∧ ∀ c ∈ idx.rows, rowAt a ≤ rowAt c → rowAt b ≤ rowAt c := by
  obtain ⟨mem, beyond, least⟩ := (find?_eq_some_iff_least sorted).mp found
  simp only [decide_eq_true_eq, not_before_iff positions] at beyond least
  exact ⟨mem, beyond, least⟩

theorem setPosition_eq_none (found : v.setPosition idx a = none) :
    ∀ c ∈ idx.rows, rowAt c < rowAt a := by
  intro c mem
  have before := List.find?_eq_none.mp found c mem
  rwa [decide_eq_true_eq, not_not, positions.before_iff] at before

theorem firstPlain_eq_some (sorted : idx.rows.Pairwise fun a b => rowAt a < rowAt b) :
    v.firstPlain idx it r base = some b ↔ b ∈ idx.rows ∧
      (rowAt base ≤ rowAt b ∧ v.exclusiveField it r b = none) ∧
      ∀ c ∈ idx.rows, rowAt base ≤ rowAt c ∧ v.exclusiveField it r c = none →
        rowAt b ≤ rowAt c := by
  simp only [firstPlain, find?_eq_some_iff_least sorted, decide_eq_true_eq,
    not_before_iff positions]

theorem firstPlain_eq_none : v.firstPlain idx it r base = none ↔
    ∀ c ∈ idx.rows, rowAt base ≤ rowAt c → v.exclusiveField it r c ≠ none := by
  simp only [firstPlain, List.find?_eq_none, decide_eq_true_eq, not_before_iff positions, not_and,
    ne_eq]

omit [LinearOrder P] positions in
theorem place_skipTarget (le : k ≤ v.ranges.length) :
    Agree k (place pos key) (place pos (v.skipTarget idx key k).key) := fun i lt => by
  rw [place, place, skipTarget, field_map_range (lt.trans_le le), if_pos lt]

/-- Between a row and the place that skipping its prefix seeks, rows have the prefix. -/
theorem agree_of_lt_skipTarget (le : k ≤ v.ranges.length) (from_a : rowAt a ≤ rowAt b)
    (short : rowAt b < rowAt (v.skipTarget idx a.key k)) :
    Agree k (place pos a.key) (place pos b.key) := by
  rcases prefix_trichotomy k (place pos a.key) (place pos b.key) with less | same | greater
  · refine absurd short (lt_asymm (lt_of_prefixLt positions le ?_))
    exact .agree_trans (place_skipTarget le).symm less
  · exact same
  · exact absurd (lt_of_prefixLt positions le greater) (not_lt.mpr from_a)

/-- So do rows between that place and the row. -/
theorem agree_of_skipTarget_le (le : k ≤ v.ranges.length)
    (beyond : rowAt (v.skipTarget idx a.key k) ≤ rowAt b) (to_a : rowAt b ≤ rowAt a) :
    Agree k (place pos a.key) (place pos b.key) := by
  rcases prefix_trichotomy k (place pos a.key) (place pos b.key) with less | same | greater
  · exact absurd (lt_of_prefixLt positions le less) (not_lt.mpr to_a)
  · exact same
  · refine absurd (lt_of_prefixLt positions le ?_) (not_lt.mpr beyond)
    exact greater.trans_agree (place_skipTarget le)

theorem skipTarget_congr (same : Agree k (place pos a.key) (place pos b.key)) :
    rowAt (v.skipTarget idx a.key k) = rowAt (v.skipTarget idx b.key k) := by
  refine positions.eq_of_agree _ _ (fun i lt => ?_) rfl
  rw [place, place, skipTarget, skipTarget, field_map_range lt, field_map_range lt]
  split_ifs with inside
  · exact same i inside
  · rfl

omit positions in
theorem exclusiveField_eq_some {i : Nat} : v.exclusiveField it r a = some i ↔
    i < v.ranges.length ∧ Excluded it r a i ∧ ∀ j < i, ¬ Excluded it r a j := by
  rw [exclusiveField, List.find?_range_eq_some]
  simp only [decide_eq_true_eq, List.mem_range, Bool.not_eq_true', decide_eq_false_iff_not]
  exact and_left_comm

omit positions in
theorem exclusiveField_eq_none : v.exclusiveField it r a = none ↔
    ∀ i < v.ranges.length, ¬ Excluded it r a i := by
  simp only [exclusiveField, List.find?_eq_none, List.mem_range, decide_eq_true_eq, Excluded]

/-- Rows with the prefix of a row up to its exclusive bound have the same one. -/
theorem exclusiveField_congr {i : Nat} (found : v.exclusiveField it r a = some i)
    (same : Agree (i + 1) (place pos a.key) (place pos b.key)) :
    v.exclusiveField it r b = some i := by
  have equal : ∀ j ≤ i, woCompareValues (field a.key j) (it.cmp j).bound.value = 0 ↔
      woCompareValues (field b.key j) (it.cmp j).bound.value = 0 := fun j le => by
    have same_j : pos j (field a.key j) = pos j (field b.key j) := same j (Nat.lt_succ_of_le le)
    rw [woCompareValues_eq_iff positions.scanned j, woCompareValues_eq_iff positions.scanned j,
      same_j]
  obtain ⟨lt, here, before⟩ := exclusiveField_eq_some.mp found
  rw [Excluded, equal i le_rfl] at here
  refine exclusiveField_eq_some.mpr ⟨lt, here, fun j less => ?_⟩
  rw [Excluded, ← equal j less.le]
  exact before j less

/-! ### The loop at `again` -/

omit positions in
theorem skipExclusive_unique {fuel fuel' : Nat} {cursor c c' : Option (Row V)}
    (one : v.skipExclusive idx it r fuel cursor = some c)
    (other : v.skipExclusive idx it r fuel' cursor = some c') : c = c' := by
  induction fuel generalizing fuel' cursor with
  | zero => cases one
  | succ fuel ih =>
    cases fuel' with
    | zero => cases other
    | succ fuel' =>
      cases cursor with
      | none => exact Option.some.inj (one.symm.trans other)
      | some row =>
        rw [skipExclusive] at one other
        cases found : v.exclusiveField it r row with
        | none =>
          rw [found] at one other
          exact Option.some.inj (one.symm.trans other)
        | some i =>
          rw [found] at one other
          exact ih one other

section Loop

variable (sorted : idx.rows.Pairwise fun a b => rowAt a < rowAt b)
include sorted

/-- Where no skipped row is stuck, the loop ends at the first row without an exclusive bound. -/
theorem skipExclusive_of_unstuck (unstuck : v.Unstuck rowAt idx it r base)
    (post pre : List (Row V)) (row : Row V) (split : idx.rows = pre ++ row :: post)
    (from_base : rowAt base ≤ rowAt row)
    (before : ∀ c ∈ idx.rows, rowAt base ≤ rowAt c → rowAt c < rowAt row →
      v.exclusiveField it r c ≠ none) :
    ∃ fuel, v.skipExclusive idx it r fuel (some row) = some (v.firstPlain idx it r base) := by
  have mem : row ∈ idx.rows := by simp [split]
  cases found : v.exclusiveField it r row with
  | none =>
    refine ⟨1, ?_⟩
    rw [skipExclusive, found]
    exact congrArg some ((firstPlain_eq_some positions sorted).mpr ⟨mem, ⟨from_base, found⟩,
      fun c at_c holds => not_lt.mp fun less => before c at_c holds.1 less holds.2⟩).symm
  | some i =>
    have inside : i + 1 ≤ v.ranges.length := (exclusiveField_eq_some.mp found).1
    have forward := unstuck row mem from_base (fun c at_c from_c to_row => by
      rcases to_row.lt_or_eq with less | same
      · exact before c at_c from_c less
      · obtain rfl := eq_of_sorted sorted at_c mem same
        rw [found]
        exact Option.some_ne_none i) i found
    -- up to the place sought every row has the prefix, and with it the exclusive bound
    have skimmed : ∀ c ∈ idx.rows, rowAt base ≤ rowAt c →
        rowAt c < rowAt (v.skipTarget idx row.key (i + 1)) → v.exclusiveField it r c ≠ none :=
      fun c at_c from_c short => by
        rcases lt_or_ge (rowAt c) (rowAt row) with less | beyond
        · exact before c at_c from_c less
        · rw [exclusiveField_congr positions found
            (agree_of_lt_skipTarget positions inside beyond short)]
          exact Option.some_ne_none i
    cases next : v.setPosition idx (v.skipTarget idx row.key (i + 1)) with
    | none =>
      have all := setPosition_eq_none positions next
      refine ⟨2, ?_⟩
      rw [skipExclusive, found]
      dsimp only
      rw [next, skipExclusive]
      exact congrArg some ((firstPlain_eq_none positions).mpr fun c at_c from_c =>
        skimmed c at_c from_c (all c at_c)).symm
    | some row' =>
      obtain ⟨mem', beyond, least⟩ := setPosition_eq_some positions sorted next
      have ahead : row' ∈ post := by
        rw [split] at sorted mem'
        rcases List.mem_append.mp mem' with early | late
        · have less := (List.pairwise_append.mp sorted).2.2 row' early row List.mem_cons_self
          exact absurd (forward.trans_le beyond) (lt_asymm less)
        · refine (List.mem_cons.mp late).resolve_left ?_
          rintro rfl
          exact absurd (forward.trans_le beyond) (lt_irrefl _)
      obtain ⟨mid, post', rfl⟩ := List.append_of_mem ahead
      obtain ⟨fuel, result⟩ := skipExclusive_of_unstuck unstuck post' (pre ++ row :: mid) row'
        (by simp [split]) (from_base.trans (forward.trans_le beyond).le)
        fun c at_c from_c less =>
          skimmed c at_c from_c (not_le.mp fun le => absurd (least c at_c le) (not_le.mpr less))
      refine ⟨fuel + 1, ?_⟩
      rw [skipExclusive, found]
      dsimp only
      rw [next, result]
termination_by post.length

/-- A stuck row on the way keeps the loop going for ever. -/
theorem skipExclusive_of_stuck {stuck : Row V} (mem : stuck ∈ idx.rows) {i : Nat}
    (found : v.exclusiveField it r stuck = some i)
    (stays : rowAt (v.skipTarget idx stuck.key (i + 1)) ≤ rowAt stuck) (fuel : Nat) (row : Row V)
    (to_stuck : rowAt row ≤ rowAt stuck)
    (between : ∀ c ∈ idx.rows, rowAt row ≤ rowAt c → rowAt c ≤ rowAt stuck →
      v.exclusiveField it r c ≠ none) (mem' : row ∈ idx.rows) :
    v.skipExclusive idx it r fuel (some row) = none := by
  induction fuel generalizing row with
  | zero => rfl
  | succ fuel ih =>
    obtain ⟨j, here⟩ := Option.ne_none_iff_exists'.mp (between row mem' le_rfl to_stuck)
    have inside : j + 1 ≤ v.ranges.length := (exclusiveField_eq_some.mp here).1
    -- the stuck row is not before the place sought
    have reached : rowAt (v.skipTarget idx row.key (j + 1)) ≤ rowAt stuck := by
      by_contra short
      have same := agree_of_lt_skipTarget positions inside to_stuck (not_le.mp short)
      have same_field := exclusiveField_congr positions here same
      rw [found] at same_field
      obtain rfl := Option.some.inj same_field
      rw [skipTarget_congr positions same] at short
      exact short stays
    rw [skipExclusive, here]
    dsimp only
    cases next : v.setPosition idx (v.skipTarget idx row.key (j + 1)) with
    | none => exact absurd reached (not_le.mpr (setPosition_eq_none positions next stuck mem))
    | some row' =>
      obtain ⟨at_row', beyond, least⟩ := setPosition_eq_some positions sorted next
      refine ih row' (least stuck mem reached) (fun c at_c from_row' to_c => ?_) at_row'
      rcases lt_or_ge (rowAt c) (rowAt row) with less | ge
      · rw [exclusiveField_congr positions here
          (agree_of_skipTarget_le positions inside (beyond.trans from_row') less.le)]
        exact Option.some_ne_none j
      · exact between c at_c ge to_c

/-- Without `after`, skipping ends exactly if no skipped row is stuck, and then at the first row
from the position on that has no exclusive bound. -/
theorem skipFrom_spec (r : Nat) (key : List V) (exact_ : it.after = false) :
    ((∃ fuel cursor, v.skipFrom idx it r key fuel = some cursor) ↔
      v.Unstuck rowAt idx it r (v.sought idx it r key)) ∧
    ∀ fuel cursor, v.skipFrom idx it r key fuel = some cursor →
      cursor = v.firstPlain idx it r (v.sought idx it r key) := by
  simp only [skipFrom, exact_, Bool.false_eq_true, if_false]
  split_ifs with inclusive
  · simp only [List.all_eq_true, List.mem_range] at inclusive
    have absent : ∀ c, v.exclusiveField it r c = none := fun c =>
      exclusiveField_eq_none.mpr fun i lt excluded => excluded.2.1 (inclusive i lt)
    refine ⟨⟨fun _ row _ _ _ i found => ?_, fun _ => ⟨0, _, rfl⟩⟩, fun _ cursor eq => ?_⟩
    · rw [absent row] at found
      cases found
    · rw [← Option.some.inj eq, setPosition]
      simp [firstPlain, absent]
  · have ends (unstuck : v.Unstuck rowAt idx it r (v.sought idx it r key)) :
        ∃ fuel, v.skipExclusive idx it r fuel (v.setPosition idx (v.sought idx it r key)) =
          some (v.firstPlain idx it r (v.sought idx it r key)) := by
      cases start : v.setPosition idx (v.sought idx it r key) with
      | none =>
        have all := setPosition_eq_none positions start
        exact ⟨1, congrArg some ((firstPlain_eq_none positions).mpr fun c at_c from_c =>
          absurd (all c at_c) (not_lt.mpr from_c)).symm⟩
      | some row =>
        obtain ⟨mem, beyond, least⟩ := setPosition_eq_some positions sorted start
        obtain ⟨pre, post, split⟩ := List.append_of_mem mem
        exact skipExclusive_of_unstuck positions sorted unstuck post pre row split beyond
          fun c at_c from_c less => absurd (least c at_c from_c) (not_le.mpr less)
    have unstuck_of_ends {fuel : Nat} {cursor : Option (Row V)} (result : v.skipExclusive idx it r
        fuel (v.setPosition idx (v.sought idx it r key)) = some cursor) :
        v.Unstuck rowAt idx it r (v.sought idx it r key) := by
      intro row mem from_base skims i found
      by_contra stuck
      cases start : v.setPosition idx (v.sought idx it r key) with
      | none => exact absurd (setPosition_eq_none positions start row mem) (not_lt.mpr from_base)
      | some first =>
        obtain ⟨mem', beyond, least⟩ := setPosition_eq_some positions sorted start
        rw [start, skipExclusive_of_stuck positions sorted mem found (not_lt.mp stuck) fuel first
          (least row mem from_base)
          (fun c at_c from_first => skims c at_c (beyond.trans from_first)) mem'] at result
        cases result
    refine ⟨⟨?_, fun unstuck => ?_⟩, fun fuel cursor result => ?_⟩
    · rintro ⟨fuel, cursor, result⟩
      exact unstuck_of_ends result
    · obtain ⟨fuel, result⟩ := ends unstuck
      exact ⟨fuel, _, result⟩
    · obtain ⟨fuel', result'⟩ := ends (unstuck_of_ends result)
      exact skipExclusive_unique result result'

end Loop

/-! ### The position to skip to -/

theorem scanLe_of_le (le : rowAt a ≤ rowAt b) : v.ScanLe a.key b.key := by
  rw [scanLe_iff positions.scanned]
  rcases prefix_trichotomy v.ranges.length (place pos a.key) (place pos b.key) with
    less | same | greater
  · exact .inr less
  · exact .inl same
  · exact absurd (positions.lt_of_prefix b a greater) (not_lt.mpr le)

omit [LinearOrder P] positions in
theorem place_positionKey_of_lt {i : Nat} (le : r ≤ v.ranges.length) (lt : i < r) :
    place pos (v.positionKey it r key) i = place pos key i := by
  rw [place, place, positionKey, field_map_range (lt.trans_le le), if_pos lt]

omit [LinearOrder P] positions in
theorem place_positionKey_of_ge {i : Nat} (lt : i < v.ranges.length) (le : r ≤ i) :
    place pos (v.positionKey it r key) i = pos i (it.cmp i).bound.value := by
  rw [place, positionKey, field_map_range lt, if_neg (not_lt.mpr le)]

/-- A key before the position's has not reached it. -/
theorem not_reached_of_lt (le : r ≤ v.ranges.length) {k : List V}
    (less : PrefixLt v.ranges.length (place pos k) (place pos (v.positionKey it r key))) :
    ¬ v.Reached it r key k := by
  have scanned := positions.scanned
  obtain ⟨m, small, same, lower⟩ := less
  rw [Reached, prefixBefore_iff scanned, samePrefix_iff scanned]
  rcases Nat.lt_or_ge m r with inside | outside
  · have behind : PrefixLt r (place pos k) (place pos key) := by
      refine ⟨m, inside, fun i lt => ?_, ?_⟩
      · rw [same i lt, place_positionKey_of_lt le (lt.trans inside)]
      · rwa [place_positionKey_of_lt le inside] at lower
    rintro (ahead | ⟨_, agree, _⟩)
    · exact PrefixLt.irrefl r _ (behind.trans ahead)
    · exact behind.not_agree agree.symm
  · have agree : Agree r (place pos key) (place pos k) := fun i lt => by
      rw [same i (lt.trans_le outside), place_positionKey_of_lt le lt]
    have bound : ∀ i < m, r ≤ i →
        scanCompare (v.reverse i) (field k i) (it.cmp i).bound.value = 0 := fun i lt ge => by
      have at_i : place pos (v.positionKey it r key) i = pos i (it.cmp i).bound.value :=
        place_positionKey_of_ge (lt.trans small) ge
      rw [scanned.eq_iff, ← at_i]
      exact same i lt
    rintro (ahead | ⟨_, _, beyond⟩)
    · exact ahead.not_agree agree
    · refine beyond ?_
      -- short at the first exclusive bound, or where the key is lower
      by_cases inclusive : ∀ i < m, r ≤ i → (it.cmp i).inclusive = true
      · refine ⟨m, small, outside, fun i lt ge => ⟨bound i lt ge, inclusive i lt ge⟩, .inl ?_⟩
        have at_m : place pos (v.positionKey it r key) m = pos m (it.cmp m).bound.value :=
          place_positionKey_of_ge small outside
        rw [scanned.lt_iff, ← at_m]
        exact lower
      · push Not at inclusive
        obtain ⟨lt, ge, excluded⟩ := Nat.find_spec inclusive
        refine ⟨Nat.find inclusive, lt.trans small, ge, fun i before from_r =>
          ⟨bound i (before.trans lt) from_r, ?_⟩, .inr ⟨bound _ lt ge, excluded⟩⟩
        by_contra excluded_i
        exact Nat.find_min inclusive before ⟨before.trans lt, from_r, excluded_i⟩

/-- The current key is before the position's, or they agree up to an exclusive bound. -/
theorem behind_cases (exact_ : it.after = false) (sound : v.SoundAdvice it r key) :
    PrefixLt v.ranges.length (place pos key) (place pos (v.positionKey it r key)) ∨
      ∃ j < v.ranges.length, r ≤ j ∧ ¬ (it.cmp j).inclusive ∧
        Agree (j + 1) (place pos key) (place pos (v.positionKey it r key)) := by
  have scanned := positions.scanned
  have short : v.ShortOf it r key := by
    by_contra reached
    exact sound.behind (.inr ⟨exact_, (samePrefix_iff scanned).mpr (.refl _ _), reached⟩)
  obtain ⟨j, small, from_r, equal, short⟩ := short
  have agree : Agree j (place pos key) (place pos (v.positionKey it r key)) := fun i lt => by
    rcases Nat.lt_or_ge i r with inside | outside
    · exact (place_positionKey_of_lt sound.bounded inside).symm
    · rw [place_positionKey_of_ge (lt.trans small) outside]
      exact (scanned.eq_iff i _ _).mp (equal i lt outside).1
  rcases short with lower | ⟨same, excluded⟩
  · refine .inl ⟨j, small, agree, ?_⟩
    rw [place_positionKey_of_ge small from_r]
    exact (scanned.lt_iff j _ _).mp lower
  · refine .inr ⟨j, small, from_r, excluded, fun i lt => ?_⟩
    rcases Nat.lt_succ_iff_lt_or_eq.mp lt with before | rfl
    · exact agree i before
    · rw [place_positionKey_of_ge small from_r]
      exact (scanned.eq_iff i _ _).mp same

/-- A key that agrees with the position's up to an exclusive bound has it. -/
theorem equal_of_agree {j : Nat} (small : j < v.ranges.length) (from_r : r ≤ j) {k : List V}
    (agree : Agree (j + 1) (place pos k) (place pos (v.positionKey it r key))) :
    woCompareValues (field k j) (it.cmp j).bound.value = 0 := by
  have same := agree j (Nat.lt_succ_self j)
  rw [place_positionKey_of_ge small from_r] at same
  exact (woCompareValues_eq_iff positions.scanned j _ _).mpr same

/-- A row from the position on without an exclusive bound is beyond the current row. -/
theorem lt_of_landed (exact_ : it.after = false) (sound : v.SoundAdvice it r a.key)
    (beyond : rowAt (v.sought idx it r a.key) ≤ rowAt b)
    (plain : v.exclusiveField it r b = none) : rowAt a < rowAt b := by
  rcases behind_cases positions exact_ sound with lower | ⟨j, small, from_r, excluded, agree⟩
  · exact (positions.lt_of_prefix a (v.sought idx it r a.key) lower).trans_le beyond
  · rcases prefix_trichotomy (j + 1) (place pos a.key) (place pos b.key) with
      less | same | greater
    · exact lt_of_prefixLt positions small less
    · exact absurd ⟨from_r, excluded, equal_of_agree positions small from_r (same.symm.trans agree)⟩
        (exclusiveField_eq_none.mp plain j small)
    · have before : rowAt b < rowAt (v.sought idx it r a.key) :=
        lt_of_prefixLt positions small (greater.trans_agree agree)
      exact absurd before (not_lt.mpr beyond)

/-- A row with the key of the position is beyond the current row, unless it has an exclusive
bound. -/
theorem lt_or_unmatched_of_sought (exact_ : it.after = false) (sound : v.SoundAdvice it r a.key)
    (same : v.SamePrefix v.ranges.length b.key (v.positionKey it r a.key)) :
    rowAt a < rowAt b ∨ v.matchesKey b.key = false := by
  rw [samePrefix_iff positions.scanned] at same
  rcases behind_cases positions exact_ sound with lower | ⟨j, small, from_r, excluded, _⟩
  · exact .inl (positions.lt_of_prefix a b (lower.trans_agree same.symm))
  · exact .inr (sound.exclusive exact_ j from_r small excluded b.key
      (equal_of_agree positions small from_r (same.mono small)))

/-! ### Skipping -/

section Skipping

variable {current : Row V} (sorted : idx.rows.Pairwise fun a b => rowAt a < rowAt b)
  (sound : v.SoundAdvice it r current.key)
include sorted sound

/-- Past a prefix: right exactly if the current row is before the place sought. -/
theorem skipFrom_after_iff (after : it.after = true) (mem : current ∈ idx.rows) :
    (∃ fuel cursor, v.skipFrom idx it r current.key fuel = some cursor ∧
      v.MovesRight idx current cursor) ↔ v.RowBefore current (v.skipTarget idx current.key r) := by
  simp only [skipFrom, after, if_true, MovesRight, PassedOver, positions.before_iff, not_lt]
  constructor
  · rintro ⟨_, cursor, result, beyond, _⟩
    obtain rfl := Option.some.inj result
    by_contra stuck
    cases landed : v.setPosition idx (v.skipTarget idx current.key r) with
    | none => exact stuck (setPosition_eq_none positions landed current mem)
    | some row =>
      obtain ⟨_, _, least⟩ := setPosition_eq_some positions sorted landed
      exact absurd (beyond row landed) (not_lt.mpr (least current mem (not_lt.mp stuck)))
  · intro forward
    refine ⟨0, _, rfl, fun landed found => ?_, fun row at_row ⟨from_current, passed⟩ => ?_⟩
    · exact forward.trans_le (setPosition_eq_some positions sorted found).2.1
    · have short : rowAt row < rowAt (v.skipTarget idx current.key r) := by
        cases landed : v.setPosition idx (v.skipTarget idx current.key r) with
        | none => exact setPosition_eq_none positions landed row at_row
        | some first =>
          obtain ⟨_, _, least⟩ := setPosition_eq_some positions sorted landed
          exact not_le.mp fun beyond =>
            absurd (least row at_row beyond) (not_le.mpr (passed first landed))
      have agree := agree_of_lt_skipTarget positions sound.bounded from_current short
      refine sound.skipped row.key (scanLe_of_le positions from_current) fun reached => ?_
      exact ((reached_after_iff positions.scanned after).mp reached).not_agree agree

/-- To the bounds: right exactly if no row stands in the way. -/
theorem skipFrom_exact_iff (exact_ : it.after = false) :
    (∃ fuel cursor, v.skipFrom idx it r current.key fuel = some cursor ∧
      v.MovesRight idx current cursor) ↔
    v.Unstuck rowAt idx it r (v.sought idx it r current.key) ∧
    ∀ row ∈ idx.rows, v.SamePrefix v.ranges.length row.key (v.positionKey it r current.key) →
      v.scanPks row.pk (v.sought idx it r current.key).pk < 0 → v.matchesKey row.key = false := by
  obtain ⟨ends_iff, lands⟩ := skipFrom_spec positions sorted r current.key exact_
  simp only [MovesRight, PassedOver, positions.before_iff, not_lt]
  constructor
  · rintro ⟨fuel, cursor, result, _, passes⟩
    refine ⟨ends_iff.mp ⟨fuel, cursor, result⟩, fun row at_row same below => ?_⟩
    rcases lt_or_unmatched_of_sought positions exact_ sound same with ahead | unmatched
    · refine passes row at_row ⟨ahead.le, fun landed eq => ?_⟩
      have short : rowAt row < rowAt (v.sought idx it r current.key) :=
        (positions.before_iff _ _).mp (.inr ⟨same, below⟩)
      obtain ⟨_, beyond, _⟩ := (firstPlain_eq_some positions sorted).mp
        ((lands fuel cursor result).symm.trans eq)
      exact short.trans_le beyond.1
    · exact unmatched
  · rintro ⟨unstuck, sought⟩
    obtain ⟨fuel, cursor, result⟩ := ends_iff.mpr unstuck
    have final := lands fuel cursor result
    refine ⟨fuel, cursor, result, fun landed eq => ?_, fun row at_row ⟨from_current, passed⟩ => ?_⟩
    · obtain ⟨_, beyond, _⟩ := (firstPlain_eq_some positions sorted).mp (final.symm.trans eq)
      exact lt_of_landed positions exact_ sound beyond.1 beyond.2
    · by_cases short : v.RowBefore row (v.sought idx it r current.key)
      · rcases short with less | ⟨same, below⟩
        · rw [prefixBefore_iff positions.scanned] at less
          exact sound.skipped row.key (scanLe_of_le positions from_current)
            (not_reached_of_lt positions sound.bounded less)
        · exact sought row at_row same below
      · have from_base := (not_before_iff positions).mp short
        cases found : v.exclusiveField it r row with
        | some i =>
          obtain ⟨lt, ⟨from_r, excluded, equal⟩, _⟩ := exclusiveField_eq_some.mp found
          exact sound.exclusive exact_ i from_r lt excluded row.key equal
        | none =>
          -- the cursor stops at this row at the latest
          cases eq : cursor with
          | none =>
            exact absurd found ((firstPlain_eq_none positions).mp (final.symm.trans eq) row at_row
              from_base)
          | some landed =>
            obtain ⟨_, _, least⟩ := (firstPlain_eq_some positions sorted).mp (final.symm.trans eq)
            exact absurd (least row at_row ⟨from_base, found⟩) (not_le.mpr (passed landed eq))

end Skipping

end Positions

/-! ### The order of the rows -/

section Ranked

variable {R : Type} [LinearOrder R] {rank : V → R} (ranked : Ranked rank) {idx : Index V}
  {row : Row V} {it : FieldRangeVectorIterator V} {r : Nat} {key : List V}
include ranked

theorem comparePks_signs (l r : List V) : Signs (comparePks l r) (l.map rank) (r.map rank) := by
  rw [comparePks, BSON.woCompareLoop_ascending]
  exact .compareLists (fun a b => ⟨ranked.lt_iff a b, ranked.gt_iff a b⟩) l r

theorem scanPks_lt_iff (l r : List V) : v.scanPks l r < 0 ↔
    scanRank (List.map rank) (v.direction < 0) l <
      scanRank (List.map rank) (v.direction < 0) r := by
  obtain ⟨lt, gt⟩ := comparePks_signs ranked l r
  by_cases backward : v.direction < 0 <;> simp [scanPks, scanRank, backward, lt, gt]

theorem positions_of_ranked :
    v.Positions (fun i => scanRank rank (v.reverse i)) fun row =>
      (toLex (toLex fun i : Fin v.ranges.length =>
        place (fun i => scanRank rank (v.reverse i)) row.key i,
        scanRank (List.map rank) (v.direction < 0) row.pk) :
        (Πₗ _ : Fin v.ranges.length, R ⊕ₗ Rᵒᵈ) ×ₗ (List R ⊕ₗ (List R)ᵒᵈ)) where
  scanned := scanned_of_ranked ranked
  before_iff a b := by
    have scanned := scanned_of_ranked (v := v) ranked
    rw [RowBefore, prefixBefore_iff scanned, samePrefix_iff scanned, scanPks_lt_iff ranked,
      Prod.Lex.lt_iff]
    exact (or_congr toLex_lt_iff (and_congr_left' toLex_eq_iff)).symm
  lt_of_prefix a b less := Prod.Lex.lt_iff.mpr (.inl (toLex_lt_iff.mpr less))
  eq_of_agree a b agree same := by rw [toLex_eq_iff.mpr agree, same]

/-! ### The places that are sought -/

omit [LinearOrder R] ranked in
theorem comparePks_cons (e b : V) (pk : List V) : comparePks (e :: pk) [b] =
    if woCompareValues e b ≠ 0 then woCompareValues e b else if pk = [] then 0 else 1 := by
  rw [comparePks, BSON.woCompareLoop_ascending, compareLists]
  cases pk <;> rfl

theorem ends (e : V) : 0 ≤ woCompareValues e ElementValues.minKey ∧
    woCompareValues e ElementValues.maxKey ≤ 0 :=
  ⟨not_lt.mp (mt (ranked.lt_iff e _).mp (not_lt.mpr (ranked.minKey_le e))),
    not_lt.mp (mt (ranked.gt_iff e _).mp (not_lt.mpr (ranked.le_maxKey e)))⟩

/-- The primary key that `skipPrefix` seeks. -/
theorem scanPks_skipTarget_iff (mem : row ∈ idx.rows) (key : List V) (k : Nat) :
    v.scanPks row.pk (v.skipTarget idx key k).pk < 0 ↔ idx.isSecondary ∧
      if v.direction < 0 then
        row.pk ≠ [] ∧ ∀ e, row.pk = [e] → woCompareValues e ElementValues.minKey ≠ 0
      else ∀ e ∈ row.pk.head?, woCompareValues e ElementValues.maxKey ≠ 0 := by
  rw [scanPks, skipTarget]
  cases kind : idx.isSecondary with
  | false => simp [idx.plain kind row mem, comparePks, BSON.woCompareLoop]
  | true =>
    cases row.pk with
    | nil => by_cases v.direction < 0 <;> simp [*, comparePks, BSON.woCompareLoop]
    | cons e pk =>
      have := ends ranked e
      by_cases v.direction < 0 <;> simp [*, comparePks_cons] <;> split_ifs <;> simp_all <;> omega

/-- The primary key that `findKey` seeks. -/
theorem scanPks_findTarget_iff (mem : row ∈ idx.rows) (key : List V) :
    v.scanPks row.pk (v.findTarget idx key).pk < 0 ↔ v.Hidden idx row := by
  rw [scanPks, findTarget, Hidden]
  cases kind : idx.isSecondary with
  | false => simp [idx.plain kind row mem, comparePks, BSON.woCompareLoop]
  | true =>
    cases row.pk with
    | nil => by_cases v.direction < 0 <;> simp [*, comparePks, BSON.woCompareLoop]
    | cons e pk =>
      have := ends ranked e
      cases pk <;> by_cases v.direction < 0 <;> simp [*, comparePks_cons] <;> split_ifs <;> omega

omit ranked [LinearOrder R] in
theorem lastValue_eq (i : Nat) : v.lastValue i = v.scanLast i := by
  by_cases v.number i < 0 <;> by_cases v.direction < 0 <;> simp [*, lastValue, scanLast, reverse]

/-- The place that `skipPrefix` seeks is behind the row. -/
theorem before_skipTarget_iff (mem : row ∈ idx.rows) (k : Nat) :
    v.RowBefore row (v.skipTarget idx row.key k) ↔ v.Passable idx row k := by
  have scanned := scanned_of_ranked (v := v) ranked
  have at_i : ∀ i < v.ranges.length, field (v.skipTarget idx row.key k).key i =
      if i < k then field row.key i else v.scanLast i := fun i lt => by
    rw [skipTarget, field_map_range lt, lastValue_eq]
  have same : v.SamePrefix v.ranges.length row.key (v.skipTarget idx row.key k).key ↔
      ¬ ∃ i, k ≤ i ∧ i < v.ranges.length ∧
        woCompareValues (field row.key i) (v.scanLast i) ≠ 0 := by
    push Not
    refine ⟨fun same i from_k lt => ?_, fun last i lt => ?_⟩
    · have equal := same i lt
      rw [at_i i lt, if_neg (not_lt.mpr from_k), scanned.eq_iff] at equal
      exact (woCompareValues_eq_iff scanned i _ _).mpr equal
    · rw [at_i i lt, scanned.eq_iff]
      split_ifs with inside
      · rfl
      · exact (woCompareValues_eq_iff scanned i _ _).mp (last i (not_lt.mp inside) lt)
  -- the values sought are the last ones, so the row is not behind them
  have le : v.ScanLe row.key (v.skipTarget idx row.key k).key := by
    rw [scanLe_iff scanned]
    refine .of_le fun i lt => ?_
    rw [place, place, at_i i lt]
    split_ifs
    · exact le_rfl
    · exact le_scanLast ranked i _
  rw [RowBefore, Passable, scanPks_skipTarget_iff ranked mem]
  by_cases last : v.SamePrefix v.ranges.length row.key (v.skipTarget idx row.key k).key
  · have notBefore : ¬ v.PrefixBefore v.ranges.length row.key (v.skipTarget idx row.key k).key := by
      rw [prefixBefore_iff scanned]
      exact fun less => less.not_agree ((samePrefix_iff scanned).mp last)
    simp only [notBefore, last, same.mp last, true_and, false_or]
  · exact iff_of_true (.inl (le.resolve_left last)) (.inl (not_not.mp (mt same.mpr last)))

theorem not_before_findTarget_iff (mem : row ∈ idx.rows) (r : Nat) (key : List V) :
    ¬ v.RowBefore row (v.sought idx it r key) ↔ v.AtOrBeyond idx it r key row := by
  rw [RowBefore, sought, scanPks_findTarget_iff ranked mem, not_or]
  rfl

theorem unstuck_iff_clear {P L : Type} [LinearOrder P] [LinearOrder L] {pos : Nat → V → P}
    {rowAt : Row V → L} (positions : v.Positions pos rowAt) :
    (v.Unstuck rowAt idx it r (v.sought idx it r key) ∧
    ∀ row ∈ idx.rows, v.SamePrefix v.ranges.length row.key (v.positionKey it r key) →
      v.scanPks row.pk (v.sought idx it r key).pk < 0 → v.matchesKey row.key = false) ↔
    v.Clear idx it r key := by
  have found : ∀ row, v.exclusiveField it r row ≠ none ↔
      ∃ i < v.ranges.length, Excluded it r row i := fun row => by
    rw [ne_eq, exclusiveField_eq_none]
    push Not
    rfl
  have beyond_iff : ∀ row ∈ idx.rows, (rowAt (v.sought idx it r key) ≤ rowAt row ↔
      v.AtOrBeyond idx it r key row) := fun row mem => by
    rw [← not_before_findTarget_iff ranked mem, not_before_iff positions]
  constructor
  · rintro ⟨unstuck, sought⟩
    refine ⟨fun row mem beyond all i lt here first => ?_, fun row mem same hidden =>
      sought row mem same ((scanPks_findTarget_iff ranked mem _).mpr hidden)⟩
    refine (before_skipTarget_iff ranked mem _).mp ((positions.before_iff _ _).mpr (unstuck row mem
      ((beyond_iff row mem).mpr beyond) (fun c at_c from_c to_row => ?_) i
      (exclusiveField_eq_some.mpr ⟨lt, here, first⟩)))
    exact (found c).mpr (all c at_c ((beyond_iff c at_c).mp from_c)
      ((not_before_iff positions).mpr to_row))
  · rintro ⟨unstuck, sought⟩
    refine ⟨fun row mem from_base skims i at_i => ?_, fun row mem same below =>
      sought row mem same ((scanPks_findTarget_iff ranked mem _).mp below)⟩
    obtain ⟨lt, here, first⟩ := exclusiveField_eq_some.mp at_i
    refine (positions.before_iff _ _).mp ((before_skipTarget_iff ranked mem _).mpr (unstuck row mem
      ((beyond_iff row mem).mp from_base) (fun other mem' beyond behind => ?_) i lt here first))
    exact (found other).mp (skims other mem' ((beyond_iff other mem').mpr beyond)
      ((not_before_iff positions).mp behind))

end Ranked

/-- The advice of the iterator is sound. -/
theorem soundAdvice_of_ready {P : Type} [LinearOrder P] {pos : Nat → V → P}
    (scanned : v.Scanned pos) (wellFormed : v.WellFormed) (searchable : v.Searchable)
    (universal : v.TrailingUniversal) {it it' : FieldRangeVectorIterator V} {key : List V} {r : Nat}
    (ready : v.Ready pos it key 0) (advice : v.advance it key = (.skip r, it')) :
    v.SoundAdvice it' r key := by
  have advised := advance_advised scanned wellFormed searchable universal ready
  rw [advice] at advised
  have unmatched : ∀ k, ¬ v.Admits k → v.matchesKey k = false := fun k rejected => by
    rw [← Bool.not_eq_true, v.matchesKey_iff searchable]
    exact rejected
  exact ⟨advised.bounded, advised.behind, fun k later short => unmatched k
    (advised.skipped k later short),
    fun exact_ j from_r small excluded k same =>
      unmatched k (advised.exclusive exact_ j from_r small excluded k same)⟩

/-- Given sound advice, `skipToNextKey` terminates, moves strictly forward and passes over no
matching row, exactly if something can come behind the rows that a prefix is skipped for, and no
matching row with the key sought is hidden. -/
theorem skipsRight_iff {p : BSON.Value → Prop} [Fact (p ElementValues.minKey)]
    [Fact (p ElementValues.maxKey)] (ordered : ComparesOn BSON.Value.woCompare {v | p v})
    {v : FieldRangeVector { v // p v }} {idx : Index { v // p v }}
    (sorted : idx.rows.Pairwise v.RowBefore) {it : FieldRangeVectorIterator { v // p v }}
    {current : Row { v // p v }} (mem : current ∈ idx.rows)
    (sound : ∀ r it', v.advance it current.key = (.skip r, it') → v.SoundAdvice it' r current.key) :
    v.SkipsRight idx it current ↔ ∀ r it', v.advance it current.key = (.skip r, it') →
      if it'.after then v.Passable idx current r else v.Clear idx it' r current.key := by
  obtain ⟨R, order, rank, ranked⟩ := exists_ranked ordered
  have positions := positions_of_ranked (v := v) ranked
  have ascending := sorted.imp fun {a b} before => (positions.before_iff a b).mp before
  rw [SkipsRight]
  simp only [skipToNextKey]
  revert sound
  generalize v.advance it current.key = advice
  obtain ⟨advice, it'⟩ := advice
  intro sound
  cases advice with
  | finished => simp
  | next => simp
  | skip r =>
    have advised := sound r it' rfl
    have iff : (if it'.after then v.Passable idx current r else v.Clear idx it' r current.key) ↔
        ∃ fuel cursor, v.skipFrom idx it' r current.key fuel = some cursor ∧
          v.MovesRight idx current cursor := by
      cases after : it'.after
      · rw [skipFrom_exact_iff positions ascending advised after,
          unstuck_iff_clear ranked positions]
        rfl
      · rw [skipFrom_after_iff positions ascending advised after mem,
          before_skipTarget_iff ranked mem]
        rfl
    constructor
    · rintro ⟨fuel, out, _, result, right⟩ r' it'' eq
      cases eq
      obtain ⟨cursor, moved, eq⟩ := Option.map_eq_some_iff.mp result
      cases eq
      exact iff.mpr ⟨fuel, cursor, moved, right cursor rfl⟩
    · intro clear
      obtain ⟨fuel, cursor, moved, right⟩ := iff.mp (clear r it' rfl)
      refine ⟨fuel, _, _, Option.map_eq_some_iff.mpr ⟨cursor, moved, rfl⟩, fun cursor' eq => ?_⟩
      cases eq
      exact right

/-- Between 1 and 9, but not 5. -/
def notFive : FieldRangeVector RegularValue where
  keyPattern := [1]
  direction := 1
  ranges := [.ofIntervals [
    ⟨⟨⟨[], regularInt 1⟩, true⟩, ⟨⟨[], regularInt 5⟩, false⟩⟩,
    ⟨⟨⟨[], regularInt 5⟩, false⟩, ⟨⟨[], regularInt 9⟩, true⟩⟩]]

theorem notFive_wellFormed : notFive.WellFormed := by
  constructor <;> intro i lt <;> obtain rfl : i = 0 := Nat.lt_one_iff.mp lt
  · decide
  · exact List.cons_ne_nil _ _

theorem notFive_searchable : notFive.Searchable := by
  obtain ⟨R, order, rank, ranked⟩ := exists_ranked BSON.regular_ordered
  exact searchable_of_apart (scanned_of_ranked ranked) notFive_wellFormed (by decide)

theorem notFive_trailingUniversal : notFive.TrailingUniversal := fun _ _ i trailing lt => by
  have one : notFive.ranges.length = 1 := rfl
  have ends : notFive.endNonUniversalRanges = 1 := by decide
  omega

theorem notFive_sound {P : Type} [LinearOrder P] {pos : Nat → RegularValue → P}
    (scanned : notFive.Scanned pos) {it it' : FieldRangeVectorIterator RegularValue}
    {key : List RegularValue} {r : Nat} (ready : notFive.Ready pos it key 0)
    (advice : notFive.advance it key = (.skip r, it')) : notFive.SoundAdvice it' r key :=
  soundAdvice_of_ready scanned notFive_wellFormed notFive_searchable notFive_trailingUniversal
    ready advice

/-- The rows 4, 5, 5 and 6 of a secondary index, each with a primary key. -/
def secondaryRows : Index RegularValue where
  isSecondary := true
  rows := [⟨[regularInt 4], [regularInt 1]⟩, ⟨[regularInt 5], [regularInt 2]⟩,
    ⟨[regularInt 5], [regularInt 3]⟩, ⟨[regularInt 6], [regularInt 4]⟩]
  plain := nofun

theorem skipsRight_iff_secondary :
    notFive.SkipsRight secondaryRows (notFive.prepDive .create)
      ⟨[regularInt 5], [regularInt 2]⟩ := by
  obtain ⟨R, order, rank, ranked⟩ := exists_ranked BSON.regular_ordered
  refine (skipsRight_iff BSON.regular_ordered (by decide) (by simp [secondaryRows])
    fun r it' => notFive_sound (scanned_of_ranked ranked) ready_create).mpr fun r it' _ => ?_
  have passable : ∀ row ∈ secondaryRows.rows, ∀ k, notFive.Passable secondaryRows row k := by
    have room : ∀ row ∈ secondaryRows.rows, ∀ e ∈ row.pk.head?,
        woCompareValues e ElementValues.maxKey ≠ 0 := by decide
    exact fun row mem k => .inr ⟨rfl, room row mem⟩
  have shown : ∀ row ∈ secondaryRows.rows, row.pk ≠ [] := by decide
  split_ifs
  · exact passable _ (by simp [secondaryRows]) r
  · exact ⟨fun row mem _ _ i _ _ _ => passable row mem (i + 1),
      fun row mem _ hidden => absurd hidden.2 (shown row mem)⟩

/-- The rows 4, 5 and 6 of the primary key's index. -/
def primaryRows : Index RegularValue where
  isSecondary := false
  rows := [⟨[regularInt 4], []⟩, ⟨[regularInt 5], []⟩, ⟨[regularInt 6], []⟩]
  plain _ := by decide

/-- In the index of the primary key, skipping the row 5 seeks the row 5. At a fresh iterator the
loop does not end; after the row 4 has been taken the cursor stays where it is. -/
theorem primary_stuck :
    primaryRows.rows.Pairwise notFive.RowBefore ∧
    (∀ fuel, notFive.skipToNextKey primaryRows (notFive.prepDive .create) [regularInt 5] fuel =
      none) ∧
    (notFive.advance (notFive.prepDive .create) [regularInt 4]).1 = .next ∧
    ¬ notFive.SkipsRight primaryRows
      (notFive.advance (notFive.prepDive .create) [regularInt 4]).2 ⟨[regularInt 5], []⟩ := by
  obtain ⟨R, order, rank, ranked⟩ := exists_ranked BSON.regular_ordered
  have positions := positions_of_ranked (v := notFive) ranked
  have sorted : primaryRows.rows.Pairwise notFive.RowBefore := by decide
  have ascending := sorted.imp fun {a b} before => (positions.before_iff a b).mp before
  have stuck : ¬ notFive.RowBefore ⟨[regularInt 5], []⟩
      (notFive.skipTarget primaryRows [regularInt 5] 1) := by decide
  have taken : (notFive.advance (notFive.prepDive .create) [regularInt 4]).1 = .next := by
    decide +kernel
  refine ⟨sorted, fun fuel => ?_, taken, fun right => ?_⟩
  · have advice : notFive.advance (notFive.prepDive .create) [regularInt 5] = (.skip 0,
        (notFive.advance (notFive.prepDive .create) [regularInt 5]).2) :=
      Prod.ext (by decide +kernel) rfl
    have found : notFive.exclusiveField
        (notFive.advance (notFive.prepDive .create) [regularInt 5]).2 0
        ⟨[regularInt 5], []⟩ = some 0 := by decide +kernel
    have reached : ¬ notFive.RowBefore ⟨[regularInt 5], []⟩ (notFive.sought primaryRows
        (notFive.advance (notFive.prepDive .create) [regularInt 5]).2 0 [regularInt 5]) := by
      decide +kernel
    have skims : ∀ c ∈ primaryRows.rows, ¬ notFive.RowBefore c (notFive.sought primaryRows
        (notFive.advance (notFive.prepDive .create) [regularInt 5]).2 0 [regularInt 5]) →
        ¬ notFive.RowBefore ⟨[regularInt 5], []⟩ c → notFive.exclusiveField
          (notFive.advance (notFive.prepDive .create) [regularInt 5]).2 0 c ≠ none := by
      decide +kernel
    simp only [not_before_iff positions] at reached skims
    have ends := (skipFrom_spec positions ascending 0 [regularInt 5] (by decide +kernel :
      (notFive.advance (notFive.prepDive .create) [regularInt 5]).2.after = false)).1
    rw [skipToNextKey, advice]
    refine Option.map_eq_none_iff.mpr (Option.eq_none_iff_forall_ne_some.mpr
      fun cursor result => stuck ((positions.before_iff _ _).mpr ?_))
    exact ends.mp ⟨fuel, cursor, result⟩ _ (by simp [primaryRows]) reached skims 0 found
  · have advised := advance_advised positions.scanned notFive_wellFormed
      notFive_searchable notFive_trailingUniversal (ready_create (k := [regularInt 4]))
    have advice : notFive.advance (notFive.prepDive .create) [regularInt 4] = (.next,
        (notFive.advance (notFive.prepDive .create) [regularInt 4]).2) := Prod.ext taken rfl
    rw [advice] at advised
    have next : notFive.advance (notFive.advance (notFive.prepDive .create) [regularInt 4]).2
        [regularInt 5] = (.skip 1, (notFive.advance
          (notFive.advance (notFive.prepDive .create) [regularInt 4]).2 [regularInt 5]).2) :=
      Prod.ext (by decide +kernel) rfl
    have sound := notFive_sound positions.scanned (advised.2 [regularInt 5] (by decide)) next
    obtain ⟨fuel, _, _, result, right⟩ := right
    rw [skipToNextKey, next] at result
    obtain ⟨cursor, moved, eq⟩ := Option.map_eq_some_iff.mp result
    cases eq
    exact stuck ((skipFrom_after_iff positions ascending sound (by decide +kernel)
      (by simp [primaryRows])).mp ⟨fuel, cursor, moved, right cursor rfl⟩)

end FieldRangeVector

end TokuMX.Query
