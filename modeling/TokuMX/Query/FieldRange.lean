import Mathlib.Data.String.Basic
import TokuMX.BSON.Value
import TokuMX.Lib.Intervals

/-!
Field ranges (`db/queryutil.h`, `db/queryutil.cpp`).

A `FieldRange` is a list of intervals with open or closed ends; it stands for the values a
query admits for one field. The bounds are elements, which carry a field name besides their
value.
-/

namespace TokuMX.Query

open TokuMX.Lib

/-! ### Elements -/

/-- What `woCompare` reads of the values of elements. -/
class ElementValues (V : Type) where
  canonicalType : V → Int
  isNumber : V → Bool
  compareElementValues : V → V → Int
  minKey : V
  maxKey : V

instance : ElementValues BSON.Value where
  canonicalType := BSON.Value.canonicalType
  isNumber := BSON.Value.isNumber
  compareElementValues := BSON.compareElementValues
  minKey := .minKey
  maxKey := .maxKey

/-- A set of values, with the comparison of all of them. -/
instance {V : Type} [ElementValues V] {p : V → Prop} [Fact (p ElementValues.minKey)]
    [Fact (p ElementValues.maxKey)] : ElementValues { v : V // p v } where
  canonicalType v := ElementValues.canonicalType v.val
  isNumber v := ElementValues.isNumber v.val
  compareElementValues l r := ElementValues.compareElementValues l.val r.val
  minKey := ⟨ElementValues.minKey, Fact.out⟩
  maxKey := ⟨ElementValues.maxKey, Fact.out⟩

variable {V : Type} [ElementValues V]

/-- `BSONElement::woCompare` without field names. -/
def woCompareValues (l r : V) : Int :=
  let x := ElementValues.canonicalType l - ElementValues.canonicalType r
  if x ≠ 0 ∧ ¬ (ElementValues.isNumber l ∧ ElementValues.isNumber r) then x
  else ElementValues.compareElementValues l r

structure Element (V : Type) where
  fieldName : List UInt8
  value : V

/-- `BSONElement::woCompare`: the types, then the names if they are to be considered, then the
values. -/
def Element.woCompare (l r : Element V) (considerFieldName : Bool) : Int :=
  let x := ElementValues.canonicalType l.value - ElementValues.canonicalType r.value
  if x ≠ 0 ∧ ¬ (ElementValues.isNumber l.value ∧ ElementValues.isNumber r.value) then x
  else if considerFieldName ∧ BSON.strcmp l.fieldName r.fieldName ≠ 0 then
    BSON.strcmp l.fieldName r.fieldName
  else ElementValues.compareElementValues l.value r.value

theorem Element.woCompareValues_of_woCompare {l r : Element V} (same : l.woCompare r true = 0) :
    woCompareValues l.value r.value = 0 := by
  rw [woCompare] at same
  rw [woCompareValues]
  split_ifs at same ⊢ with types names
  · exact same
  · exact absurd same names.2
  · exact same

theorem Element.woCompare_self {e : Element V} (same : woCompareValues e.value e.value = 0)
    (considerFieldName : Bool) : e.woCompare e considerFieldName = 0 := by
  have name : BSON.strcmp e.fieldName e.fieldName = 0 := memcmp_self _
  simpa [woCompare, woCompareValues, name] using same

@[simp] theorem Element.woCompare_false (l r : Element V) :
    l.woCompare r false = woCompareValues l.value r.value := by
  simp [woCompare, woCompareValues]

/-! ### Bounds and intervals -/

structure FieldBound (V : Type) where
  bound : Element V
  inclusive : Bool

def FieldBound.flipInclusive (b : FieldBound V) : FieldBound V :=
  { b with inclusive := !b.inclusive }

/-- `operator==`, which considers the field names. -/
def FieldBound.equals (a b : FieldBound V) : Bool :=
  a.bound.woCompare b.bound true = 0 ∧ a.inclusive = b.inclusive

structure FieldInterval (V : Type) where
  lower : FieldBound V
  upper : FieldBound V

/-- The interval of one value. -/
def FieldInterval.point (e : Element V) : FieldInterval V := ⟨⟨e, true⟩, ⟨e, true⟩⟩

/-- `isStrictValid`: the bounds leave room between them, or are one value that is included. -/
def FieldInterval.isStrictValid (i : FieldInterval V) : Bool :=
  let cmp := i.lower.bound.woCompare i.upper.bound false
  cmp < 0 ∨ cmp = 0 ∧ i.lower.inclusive ∧ i.upper.inclusive

/-- `equality()`, without its cache. -/
def FieldInterval.equality (i : FieldInterval V) : Bool :=
  i.lower.inclusive ∧ i.upper.inclusive ∧ i.lower.bound.woCompare i.upper.bound false = 0

def maxLowerBound (a b : FieldBound V) : FieldBound V :=
  let cmp := a.bound.woCompare b.bound false
  if cmp = 0 ∧ ¬ b.inclusive ∨ cmp < 0 then b else a

def minUpperBound (a b : FieldBound V) : FieldBound V :=
  let cmp := a.bound.woCompare b.bound false
  if cmp = 0 ∧ ¬ b.inclusive ∨ cmp > 0 then b else a

/-- The overlap of two intervals, if it is a valid interval. -/
def fieldIntervalOverlap (one two : FieldInterval V) : Option (FieldInterval V) :=
  let result : FieldInterval V :=
    ⟨maxLowerBound one.lower two.lower, minUpperBound one.upper two.upper⟩
  if result.isStrictValid then some result else none

/-! ### Ranges -/

/-- The special indexes that operators of the query ask for, with whether they need one. -/
abbrev SpecialIndices := OrderedMap String Bool

def SpecialIndices.combineWith (s other : SpecialIndices) : SpecialIndices :=
  other.entries.foldl (fun ret e => ret.set e.1 ((ret.find? e.1).getD false || e.2)) s

structure FieldRange (V : Type) where
  intervals : List (FieldInterval V)
  special : SpecialIndices
  exactMatchRepresentation : Bool
  /-- the `$elemMatch` the range stems from, by its place in the query -/
  elemMatchContext : Option Nat

namespace FieldRange

def empty (r : FieldRange V) : Bool := r.intervals.isEmpty

/-- The loop of `universal`: neighbours leave no gap. -/
def adjoining : List (FieldInterval V) → Bool
  | prev :: curr :: rest =>
    (prev.upper.inclusive || curr.lower.inclusive) &&
      !(prev.upper.bound.woCompare curr.lower.bound true < 0) && adjoining (curr :: rest)
  | _ => true

def minKeyElement : Element V := ⟨[], ElementValues.minKey⟩

def maxKeyElement : Element V := ⟨[], ElementValues.maxKey⟩

/-- `universal()`. -/
def universal (r : FieldRange V) : Bool :=
  match r.intervals.head?, r.intervals.getLast? with
  | some first, some last =>
    minKeyElement.woCompare first.lower.bound false = 0 &&
      maxKeyElement.woCompare last.upper.bound false = 0 && adjoining r.intervals
  | _, _ => false

/-- `equality()`. -/
def equality (r : FieldRange V) : Bool :=
  match r.intervals.head?, r.intervals.getLast? with
  | some first, some last =>
    first.lower.bound.woCompare last.upper.bound false = 0 && last.upper.inclusive &&
      first.lower.inclusive
  | _, _ => false

def finishOperation (r : FieldRange V) (newIntervals : List (FieldInterval V))
    (other : FieldRange V) (exactMatchRepresentation : Bool) : FieldRange V where
  intervals := newIntervals
  special := if r.special.entries.isEmpty then other.special else r.special
  exactMatchRepresentation := exactMatchRepresentation
  elemMatchContext := none

/-- The loop of `operator-=`. -/
def subtractLoop : List (FieldInterval V) → List (FieldInterval V) → List (FieldInterval V)
  | [], _ => []
  | is, [] => is
  | i :: is, j :: js =>
    let cmp := i.lower.bound.woCompare j.lower.bound false
    let cmp3 := i.upper.bound.woCompare j.upper.bound false
    if cmp < 0 ∨ cmp = 0 ∧ i.lower.inclusive ∧ ¬ j.lower.inclusive then
      let cmp2 := i.upper.bound.woCompare j.lower.bound false
      if cmp2 < 0 then i :: subtractLoop is (j :: js)
      else if cmp2 = 0 then
        (if i.upper.inclusive ∧ j.lower.inclusive then
          { i with upper := { i.upper with inclusive := false } } else i) ::
          subtractLoop is (j :: js)
      else if cmp3 < 0 ∨ cmp3 = 0 ∧ (¬ i.upper.inclusive ∨ j.upper.inclusive) then
        { i with upper := j.lower.flipInclusive } :: subtractLoop is (j :: js)
      else
        { i with upper := j.lower.flipInclusive } ::
          subtractLoop ({ i with lower := j.upper.flipInclusive } :: is) js
    else
      let cmp2 := i.lower.bound.woCompare j.upper.bound false
      if cmp2 > 0 ∨ cmp2 = 0 ∧ (¬ i.lower.inclusive ∨ ¬ j.upper.inclusive) then
        subtractLoop (i :: is) js
      else if cmp3 < 0 ∨ cmp3 = 0 ∧ (¬ i.upper.inclusive ∨ j.upper.inclusive) then
        subtractLoop is (j :: js)
      else subtractLoop ({ i with lower := j.upper.flipInclusive } :: is) js
termination_by is js => is.length + js.length

/-- `operator-=`. -/
def subtract (r other : FieldRange V) : FieldRange V :=
  r.finishOperation (subtractLoop r.intervals other.intervals) other false

/-- `operator<=`. -/
def subsetOf (r other : FieldRange V) : Bool := (r.subtract other).empty

/-- The loop of `intersect`. -/
def intersectLoop : List (FieldInterval V) → List (FieldInterval V) → List (FieldInterval V)
  | [], _ => []
  | _, [] => []
  | i :: is, j :: js =>
    if i.upper.equals (minUpperBound i.upper j.upper) then
      (fieldIntervalOverlap i j).toList ++ intersectLoop is (j :: js)
    else (fieldIntervalOverlap i j).toList ++ intersectLoop (i :: is) js
termination_by is js => is.length + js.length

/-- `intersect`. -/
def intersect (r other : FieldRange V) (singleKey : Bool) : FieldRange V :=
  if r.universal then { other with special := r.special.combineWith other.special }
  else if !singleKey then
    { (if other.subsetOf r then other else r) with
      exactMatchRepresentation := false
      special := r.special.combineWith other.special }
  else
    r.finishOperation (intersectLoop r.intervals other.intervals) other
      (r.exactMatchRepresentation && other.exactMatchRepresentation)

end FieldRange

/-- The interval that may still grow, and the finished ones. -/
structure RangeUnionBuilder (V : Type) where
  tail : Option (FieldInterval V)
  unionIntervals : List (FieldInterval V)

namespace RangeUnionBuilder

/-- `handleDisjoint`: the next interval leaves a gap behind the tail. -/
def disjoint (tail next : FieldInterval V) : Bool :=
  let cmp := tail.upper.bound.woCompare next.lower.bound false
  cmp < 0 ∨ cmp = 0 ∧ ¬ tail.upper.inclusive ∧ ¬ next.lower.inclusive

/-- `handleExtend`. -/
def handleExtend (tail next : FieldInterval V) : FieldInterval V :=
  let cmp := tail.upper.bound.woCompare next.upper.bound false
  if cmp < 0 ∨ cmp = 0 ∧ ¬ tail.upper.inclusive ∧ next.upper.inclusive then
    { tail with upper := next.upper }
  else tail

def nextOrderedInterval (b : RangeUnionBuilder V) (next : FieldInterval V) : RangeUnionBuilder V :=
  match b.tail with
  | none => { b with tail := some next }
  | some tail =>
    if disjoint tail next then ⟨some next, b.unionIntervals ++ [tail]⟩
    else { b with tail := some (handleExtend tail next) }

def done (b : RangeUnionBuilder V) : List (FieldInterval V) := b.unionIntervals ++ b.tail.toList

end RangeUnionBuilder

namespace FieldRange

/-- The loops of `operator|=`. -/
def unionLoop (b : RangeUnionBuilder V) :
    List (FieldInterval V) → List (FieldInterval V) → RangeUnionBuilder V
  | [], js => js.foldl .nextOrderedInterval b
  | is, [] => is.foldl .nextOrderedInterval b
  | i :: is, j :: js =>
    let cmp := i.lower.bound.woCompare j.lower.bound false
    if cmp < 0 ∨ cmp = 0 ∧ i.lower.inclusive then
      unionLoop (b.nextOrderedInterval i) is (j :: js)
    else unionLoop (b.nextOrderedInterval j) (i :: is) js
termination_by is js => is.length + js.length

/-- `operator|=`. -/
def union (r other : FieldRange V) : FieldRange V :=
  r.finishOperation (unionLoop ⟨none, []⟩ r.intervals other.intervals).done other false

end FieldRange

/-! ### What a range stands for -/

/-- The value lies between the bounds. -/
def FieldInterval.Contains (i : FieldInterval V) (v : V) : Prop :=
  (woCompareValues i.lower.bound.value v < 0 ∨
    woCompareValues i.lower.bound.value v = 0 ∧ i.lower.inclusive) ∧
  (woCompareValues v i.upper.bound.value < 0 ∨
    woCompareValues v i.upper.bound.value = 0 ∧ i.upper.inclusive)

instance (i : FieldInterval V) (v : V) : Decidable (i.Contains v) :=
  inferInstanceAs (Decidable (_ ∧ _))

/-- The interval goes on above the value, whether or not there is a value there. -/
def FieldInterval.Exceeds (i : FieldInterval V) (v : V) : Prop :=
  woCompareValues i.lower.bound.value v ≤ 0 ∧ woCompareValues v i.upper.bound.value < 0

/-- The first interval ends before the second begins. They may touch, but have no value in
common. -/
def FieldInterval.Before (a b : FieldInterval V) : Prop :=
  woCompareValues a.upper.bound.value b.lower.bound.value < 0 ∨
    woCompareValues a.upper.bound.value b.lower.bound.value = 0 ∧
      ¬ (a.upper.inclusive ∧ b.lower.inclusive)

instance (a b : FieldInterval V) : Decidable (a.Before b) :=
  inferInstanceAs (Decidable (_ ∨ _))

namespace FieldRange

def Contains (r : FieldRange V) (v : V) : Prop := ∃ i ∈ r.intervals, i.Contains v

instance (r : FieldRange V) (v : V) : Decidable (r.Contains v) :=
  inferInstanceAs (Decidable (∃ i ∈ r.intervals, i.Contains v))

def Exceeds (r : FieldRange V) (v : V) : Prop := ∃ i ∈ r.intervals, i.Exceeds v

/-- Sorted, disjoint, valid intervals. -/
structure WellFormed (r : FieldRange V) : Prop where
  sorted : r.intervals.Pairwise FieldInterval.Before
  valid : ∀ i ∈ r.intervals, i.isStrictValid

instance (r : FieldRange V) : Decidable r.WellFormed :=
  decidable_of_iff (r.intervals.Pairwise FieldInterval.Before ∧
    ∀ i ∈ r.intervals, i.isStrictValid) ⟨fun h => ⟨h.1, h.2⟩, fun h => ⟨h.1, h.2⟩⟩

/-- A range of the given intervals and nothing else. -/
def ofIntervals (intervals : List (FieldInterval V)) : FieldRange V :=
  ⟨intervals, .empty, false, none⟩

end FieldRange

end TokuMX.Query
