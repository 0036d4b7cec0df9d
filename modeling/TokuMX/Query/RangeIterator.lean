import TokuMX.Query.RangeVector

/-!
Iterating through the keys that a vector of ranges admits (`db/queryutil.cpp`,
`FieldRangeVectorIterator`).

The iterator keeps for each field the interval it stands in. From the key at hand `advance`
works out whether the key is to be taken, where to look for the next one, or that there are
no more. A counter is only of use below a prefix that cannot change any more, that is, as long
as the fields in front stand in intervals of one value.
-/

namespace TokuMX.Query

open TokuMX.Lib

variable {V : Type} [ElementValues V]

/-- `_i`, whose unknown counters are `-1` in the source, `_cmp` together with `_inc`, and
`_after`. -/
structure FieldRangeVectorIterator (V : Type) where
  i : Nat → Option Nat
  cmp : Nat → FieldBound V
  after : Bool

/-- What `advance` returns: `-2`, `-1`, or how much of the key is kept when skipping. -/
inductive Advance where
  | finished
  | next
  | skip (r : Nat)
deriving DecidableEq

namespace FieldRangeVectorIterator

/-- The constructor. The pointers in `_cmp` are not set yet. -/
def create : FieldRangeVectorIterator V where
  i _ := none
  cmp _ := ⟨FieldRange.minKeyElement, true⟩
  after := false

variable (it : FieldRangeVectorIterator V)

def set (i newVal : Nat) : FieldRangeVectorIterator V :=
  { it with i := fun j => if j = i then some newVal else it.i j }

def setZeroes (i : Nat) : FieldRangeVectorIterator V :=
  { it with i := fun j => if i ≤ j then some 0 else it.i j }

def setUnknowns (i : Nat) : FieldRangeVectorIterator V :=
  { it with i := fun j => if i ≤ j then none else it.i j }

/-- `advancePast`, apart from the parameter it returns. -/
def advancePast : FieldRangeVectorIterator V := { it with after := true }

def advancePastZeroed (i : Nat) : FieldRangeVectorIterator V := (it.setZeroes i).advancePast

end FieldRangeVectorIterator

/-- What the intervals of a field say about a value: it lies in one, perhaps at its inclusive
upper bound; it lies past all of them; or keys are to be skipped. -/
inductive Found where
  | inside (eqInclusiveUpperBound : Bool)
  | past
  | skip (r : Nat)

/-- One round of the loop over the fields: it ends the loop, or goes on with the last field
that is not at the end of its values. -/
inductive FieldStep where
  | stop (advance : Advance)
  | go (latestNonEndpoint : Option Nat)

namespace FieldRangeVector

variable (v : FieldRangeVector V)

/-- `intervals().front()._lower`. -/
def frontLower (j : Nat) : FieldBound V :=
  ((v.range j).intervals.head?.map (·.lower)).getD ⟨FieldRange.minKeyElement, true⟩

def prepDive (it : FieldRangeVectorIterator V) : FieldRangeVectorIterator V :=
  { it with cmp := v.frontLower }

/-- `advanceToLowerBound`, apart from the parameter it returns. -/
def advanceToLowerBound (it : FieldRangeVectorIterator V) (i : Nat) (lower : FieldBound V) :
    FieldRangeVectorIterator V :=
  { it with
    cmp := fun j => if j < i then it.cmp j else if j = i then lower else v.frontLower j
    after := false }

/-- `validateCurrentInterval`. -/
def validateCurrentInterval (it : FieldRangeVectorIterator V) (intervalIdx : Nat)
    (interval : FieldInterval V) (currElt : V) (first : Bool) :
    Found × FieldRangeVectorIterator V :=
  let upperCmp := scanCompare (v.reverse intervalIdx) currElt interval.upper.bound.value
  let lowerCmp := scanCompare (v.reverse intervalIdx) currElt interval.lower.bound.value
  if upperCmp = 0 ∧ interval.upper.inclusive then (.inside true, it)
  else if upperCmp ≥ 0 then (.past, it)
  -- the value of the first field does not go backward
  else if intervalIdx = 0 ∧ first then (.inside false, it)
  else if lowerCmp = 0 ∧ ¬ interval.lower.inclusive then
    (.skip (intervalIdx + 1), it.advancePastZeroed (intervalIdx + 1))
  else if lowerCmp < 0 then
    (.skip intervalIdx,
      v.advanceToLowerBound (it.setZeroes (intervalIdx + 1)) intervalIdx interval.lower)
  else (.inside false, it)

/-- The loop of `advance` over the intervals of a field, from the one its counter stands at. -/
def findInterval (i : Nat) (jj : V) : (intervals : List (FieldInterval V)) → (first : Bool) →
    FieldRangeVectorIterator V → Found × FieldRangeVectorIterator V
  | [], _, it => (.past, it)
  | interval :: rest, first, it =>
    match v.validateCurrentInterval it i interval jj first with
    | (.past, it) =>
      findInterval i jj rest false
        ((it.set i ((it.i i).getD 0 + 1)).setZeroes (i + 1))
    | found => found

/-- Past the last interval of a field: back to the last field that has more values. -/
def pastLast (it : FieldRangeVectorIterator V) :
    (latestNonEndpoint : Option Nat) → FieldStep × FieldRangeVectorIterator V
  | none => (.stop .finished, it)
  | some latest => (.stop (.skip (latest + 1)), it.advancePastZeroed (latest + 1))

/-- The part of the loop over the fields where the counter is unknown. -/
def searchField (it : FieldRangeVectorIterator V) (i : Nat) (jj : V)
    (latestNonEndpoint : Option Nat) : FieldStep × FieldRangeVectorIterator V :=
  let intervals := (v.range i).intervals
  let (l, lowEquality) := matchingLowElement intervals (!v.reverse i) jj
  if l % 2 = 0 then
    let c := (l / 2).toNat
    let more := intervals.length - c > 1 ∨ intervals.length - c = 1 ∧
      (intervals[c]?.any fun interval => woCompareValues interval.upper.bound.value jj ≠ 0)
    (.go (if more then some i else latestNonEndpoint), it.set i c)
  else if l = intervals.length * 2 - 1 then pastLast it latestNonEndpoint
  else
    let c := ((l + 1) / 2).toNat
    if lowEquality then (.stop (.skip (i + 1)), (it.set i c).advancePast)
    else (.stop (.skip i), v.advanceToLowerBound (it.set i c) i
      ((intervals[c]?.map (·.lower)).getD (v.frontLower i)))

/-- The part of the loop over the fields where the counter is known. -/
def followField (it : FieldRangeVectorIterator V) (i c : Nat) (jj : V)
    (latestNonEndpoint : Option Nat) : FieldStep × FieldRangeVectorIterator V :=
  let intervals := (v.range i).intervals
  match v.findInterval i jj (intervals.drop c) true it with
  | (.skip r, it) => (.stop (.skip r), it)
  | (.past, it) => pastLast it latestNonEndpoint
  | (.inside eq, it) =>
    let diff := intervals.length - (it.i i).getD 0
    (.go (if diff > 1 ∨ ¬ eq ∧ diff = 1 then some i else latestNonEndpoint), it)

/-- The interval a field stands in is an equality. -/
def equalityAt (it : FieldRangeVectorIterator V) (i : Nat) : Bool :=
  match it.i i with
  | some c => (v.range i).intervals[c]?.any FieldInterval.equality
  | none => false

/-- One round of the loop over the fields. -/
def advanceField (curr : List V) (i : Nat) (latestNonEndpoint : Option Nat)
    (it : FieldRangeVectorIterator V) : FieldStep × FieldRangeVectorIterator V :=
  let it := if i > 0 ∧ ¬ v.equalityAt it (i - 1) then it.setUnknowns i else it
  match it.i i with
  | none => v.searchField it i (field curr i) latestNonEndpoint
  | some c => v.followField it i c (field curr i) latestNonEndpoint

/-- The loop over the fields, with the number of rounds that are left. -/
def advanceLoop (curr : List V) : (rounds i : Nat) → (latestNonEndpoint : Option Nat) →
    FieldRangeVectorIterator V → Advance × FieldRangeVectorIterator V
  | 0, _, _, it => (.next, it)
  | rounds + 1, i, latestNonEndpoint, it =>
    match v.advanceField curr i latestNonEndpoint it with
    | (.stop advance, it) => (advance, it)
    | (.go latestNonEndpoint, it) => advanceLoop curr rounds (i + 1) latestNonEndpoint it

/-- `advance`, with `singleIntervalLimit` 0. -/
def advance (it : FieldRangeVectorIterator V) (curr : List V) :
    Advance × FieldRangeVectorIterator V :=
  v.advanceLoop curr v.endNonUniversalRanges 0 none it

/-! ### Following the advice -/

/-- The key falls short of the bounds in `cmp` from field `r` on: up to some field it is the
bounds, all of them inclusive, and there it is below the bound or at an exclusive one. -/
def ShortOf (it : FieldRangeVectorIterator V) (r : Nat) (key : List V) : Prop :=
  ∃ j < v.ranges.length, r ≤ j ∧
    (∀ i < j, r ≤ i → scanCompare (v.reverse i) (field key i) (it.cmp i).bound.value = 0 ∧
      (it.cmp i).inclusive) ∧
    (scanCompare (v.reverse j) (field key j) (it.cmp j).bound.value < 0 ∨
      scanCompare (v.reverse j) (field key j) (it.cmp j).bound.value = 0 ∧
        ¬ (it.cmp j).inclusive)

/-- The key is at or beyond the position to skip to from `curr`: past the prefix of `r` fields,
or, unless `after`, at the bounds below that prefix. -/
def Reached (it : FieldRangeVectorIterator V) (r : Nat) (curr key : List V) : Prop :=
  v.PrefixBefore r curr key ∨
    it.after = false ∧ v.SamePrefix r curr key ∧ ¬ v.ShortOf it r key

instance (it : FieldRangeVectorIterator V) (r : Nat) (key : List V) :
    Decidable (v.ShortOf it r key) := inferInstanceAs (Decidable (∃ j < _, _))

instance (it : FieldRangeVectorIterator V) (r : Nat) (curr key : List V) :
    Decidable (v.Reached it r curr key) := inferInstanceAs (Decidable (_ ∨ _))

/-- The keys taken by the loop that follows the advice. -/
def scan (it : FieldRangeVectorIterator V) : List (List V) → List (List V)
  | [] => []
  | key :: rest =>
    match v.advance it key with
    | (.next, it) => key :: scan it rest
    | (.finished, _) => []
    | (.skip r, it) => scan it (rest.dropWhile fun k => ¬ v.Reached it r key k)
termination_by keys => keys.length
decreasing_by
  · simp
  · exact Nat.lt_succ_of_le (List.dropWhile_suffix _).length_le

end FieldRangeVector

end TokuMX.Query
