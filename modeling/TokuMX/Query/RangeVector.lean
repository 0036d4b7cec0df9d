import Mathlib.Data.Sum.Order
import TokuMX.Lib.KeyPrefix
import TokuMX.Query.RangeAlgebra

/-!
Vectors of field ranges and the keys they admit (`db/queryutil.cpp`, `FieldRangeVector`).

A vector has one range for each field of an index, turned round where the scan goes through
the field's values from high to low. In scan order every range is sorted.
-/

namespace TokuMX.Query

open TokuMX.Lib

variable {V : Type} [ElementValues V]

def FieldInterval.exchanged (i : FieldInterval V) : FieldInterval V := ⟨i.upper, i.lower⟩

/-- `reverse`: the intervals from high to low, each with its bounds exchanged. -/
def FieldRange.reverse (r : FieldRange V) : FieldRange V :=
  { r with intervals := (r.intervals.map .exchanged).reverse }

/-- `woCompare` of values in the order in which a scan meets them. -/
def scanCompare (reverse : Bool) (l r : V) : Int :=
  if reverse then -woCompareValues l r else woCompareValues l r

/-- The bound with number `m`: each interval has a lower bound, then an upper one. -/
def boundAt (intervals : List (FieldInterval V)) (m : Nat) : Option (FieldBound V) :=
  intervals[m / 2]?.map fun i => if m % 2 = 0 then i.lower else i.upper

/-- The loop of `matchingLowElement` while `l = low - 1`. The result is the number of the
bound, and whether the element equals a lower bound. -/
def matchingLowLoop (intervals : List (FieldInterval V)) (forward : Bool) (e : V)
    (low h : Nat) : Int × Bool :=
  if room : low < h then
    let m := (low + h - 1) / 2
    match boundAt intervals m with
    | none => ((low : Int) - 1, false)
    | some b =>
      let cmp := scanCompare (!forward) b.bound.value e
      if cmp < 0 then matchingLowLoop intervals forward e (m + 1) h
      else if cmp > 0 then matchingLowLoop intervals forward e low m
      else if m % 2 = 0 ∧ ¬ b.inclusive ∨ m % 2 = 1 ∧ b.inclusive then ((m : Int) - 1, m % 2 = 0)
      else (m, m % 2 = 0)
  else ((low : Int) - 1, false)
termination_by h - low

/-- `matchingLowElement`: a binary search; an even result says that the element lies in an
interval. -/
def matchingLowElement (intervals : List (FieldInterval V)) (forward : Bool) (e : V) : Int × Bool :=
  matchingLowLoop intervals forward e 0 (intervals.length * 2)

/-- `_keyPattern`, by the numbers of its fields, `_direction` and `_ranges`. -/
structure FieldRangeVector (V : Type) where
  keyPattern : List Int
  direction : Int
  ranges : List (FieldRange V)

/-- The `i`-th field of a key. Keys have a field for each range. -/
def field (key : List V) (i : Nat) : V := key.getD i ElementValues.minKey

namespace FieldRangeVector

variable (v : FieldRangeVector V)

def number (i : Nat) : Int := v.keyPattern.getD i 0

def range (i : Nat) : FieldRange V := v.ranges.getD i (.ofIntervals [])

/-- `forward` in `matchesKey`. -/
def forward (i : Nat) : Bool :=
  (if v.number i ≥ 0 then (1 : Int) else -1) * (if v.direction ≥ 0 then 1 else -1) > 0

/-- `reverse` in `advance`. -/
def reverse (i : Nat) : Bool := xor (v.number i < 0) (v.direction < 0)

omit [ElementValues V] in
theorem forward_eq (i : Nat) : v.forward i = !v.reverse i := by
  rw [forward, reverse]
  rcases lt_or_ge (v.number i) 0 with number | number <;>
    rcases lt_or_ge v.direction 0 with direction | direction <;>
    simp [number, direction, not_le.mpr, not_lt.mpr]

def matchesElement (e : V) (i : Nat) (forward : Bool) : Bool :=
  (matchingLowElement (v.range i).intervals forward e).1 % 2 = 0

def matchesKey (key : List V) : Bool :=
  (List.range v.ranges.length).all fun i => v.matchesElement (field key i) i (v.forward i)

/-- `universalOrReverseUniversalRange`. -/
def universalOrReverseUniversalRange (range : FieldRange V) : Bool :=
  range.universal ||
    match range.intervals with
    | [i] => woCompareValues i.lower.bound.value ElementValues.maxKey = 0 &&
        woCompareValues i.upper.bound.value ElementValues.minKey = 0
    | _ => false

/-- `endNonUniversalRanges`: one past the last range that is not seen to be universal. -/
def endNonUniversalRanges : Nat :=
  (v.ranges.reverse.dropWhile universalOrReverseUniversalRange).length

/-! ### What a vector stands for -/

/-- The range of a field in the order of the values. -/
def oriented (i : Nat) : FieldRange V :=
  if v.reverse i then (v.range i).reverse else v.range i

/-- The ranges are sorted in scan order and none is empty, as the constructor verifies. -/
structure WellFormed : Prop where
  wellFormed : ∀ i < v.ranges.length, (v.oriented i).WellFormed
  nonempty : ∀ i < v.ranges.length, (v.range i).intervals ≠ []

/-- Every field of the key lies in its range. -/
def Admits (key : List V) : Prop := ∀ i < v.ranges.length, (v.oriented i).Contains (field key i)

/-- The binary search finds the interval of each value that lies in one. -/
def Searchable : Prop := ∀ i < v.ranges.length, ∀ e : V,
  v.matchesElement e i (v.forward i) ↔ (v.oriented i).Contains e

theorem matchesKey_iff (searchable : v.Searchable) (key : List V) :
    v.matchesKey key ↔ v.Admits key := by
  simp only [matchesKey, List.all_eq_true, List.mem_range, Admits]
  exact forall₂_congr fun i lt => searchable i lt (field key i)

/-! ### Scan order -/

/-- The first `r` fields of the keys are the same. -/
def SamePrefix (r : Nat) (a b : List V) : Prop :=
  ∀ i < r, scanCompare (v.reverse i) (field a i) (field b i) = 0

/-- A scan meets the first `r` fields of one key before those of the other. -/
def PrefixBefore (r : Nat) (a b : List V) : Prop :=
  ∃ m < r, v.SamePrefix m a b ∧ scanCompare (v.reverse m) (field a m) (field b m) < 0

/-- A scan does not meet the second key before the first. -/
def ScanLe (a b : List V) : Prop :=
  v.SamePrefix v.ranges.length a b ∨ v.PrefixBefore v.ranges.length a b

instance (r : Nat) (a b : List V) : Decidable (v.SamePrefix r a b) :=
  inferInstanceAs (Decidable (∀ i < r, _))

instance (r : Nat) (a b : List V) : Decidable (v.PrefixBefore r a b) :=
  inferInstanceAs (Decidable (∃ m < r, _))

instance (a b : List V) : Decidable (v.ScanLe a b) := inferInstanceAs (Decidable (_ ∨ _))

/-- The first and the last value of a field in scan order. -/
def scanFirst (i : Nat) : V :=
  if v.reverse i then ElementValues.maxKey else ElementValues.minKey

def scanLast (i : Nat) : V :=
  if v.reverse i then ElementValues.minKey else ElementValues.maxKey

/-- Positions of the values of each field in scan order. -/
structure Scanned {P : Type} [LinearOrder P] (pos : Nat → V → P) : Prop where
  lt_iff : ∀ i a b, scanCompare (v.reverse i) a b < 0 ↔ pos i a < pos i b
  gt_iff : ∀ i a b, 0 < scanCompare (v.reverse i) a b ↔ pos i b < pos i a

end FieldRangeVector

/-- Ranks in the order of a scan. Ranks of fields scanned upwards and downwards are never
compared. -/
def scanRank {R : Type} (rank : V → R) (reverse : Bool) (value : V) : R ⊕ₗ Rᵒᵈ :=
  if reverse then Sum.inrₗ (OrderDual.toDual (rank value)) else Sum.inlₗ (rank value)

namespace FieldRangeVector

variable {v : FieldRangeVector V}

theorem scanned_of_ranked {R : Type} [LinearOrder R] {rank : V → R} (ranked : Ranked rank) :
    v.Scanned fun i => scanRank rank (v.reverse i) where
  lt_iff i a b := by
    cases v.reverse i <;> simp [scanCompare, scanRank, ranked.lt_iff, ranked.gt_iff]
  gt_iff i a b := by
    cases v.reverse i <;> simp [scanCompare, scanRank, ranked.lt_iff, ranked.gt_iff]

section Ends

variable {R : Type} [LinearOrder R] {rank : V → R} (ranked : Ranked rank)
include ranked

theorem scanFirst_le (i : Nat) (e : V) :
    scanRank rank (v.reverse i) (v.scanFirst i) ≤ scanRank rank (v.reverse i) e := by
  rw [scanFirst]
  cases v.reverse i
  · simpa [scanRank] using ranked.minKey_le e
  · simpa [scanRank] using ranked.le_maxKey e

theorem le_scanLast (i : Nat) (e : V) :
    scanRank rank (v.reverse i) e ≤ scanRank rank (v.reverse i) (v.scanLast i) := by
  rw [scanLast]
  cases v.reverse i
  · simpa [scanRank] using ranked.le_maxKey e
  · simpa [scanRank] using ranked.minKey_le e

end Ends

variable {P : Type} [LinearOrder P] {pos : Nat → V → P}

theorem Scanned.eq_iff (scanned : v.Scanned pos) (i : Nat) (a b : V) :
    scanCompare (v.reverse i) a b = 0 ↔ pos i a = pos i b := by
  have lt := scanned.lt_iff i a b
  have gt := scanned.gt_iff i a b
  rcases lt_trichotomy (pos i a) (pos i b) with less | same | greater
  · have := lt.mpr less
    exact ⟨fun zero => by omega, fun same => absurd same less.ne⟩
  · have not_lt : ¬ scanCompare (v.reverse i) a b < 0 := fun below => (lt.mp below).ne same
    have not_gt : ¬ 0 < scanCompare (v.reverse i) a b := fun above => (gt.mp above).ne' same
    exact ⟨fun _ => same, fun _ => by omega⟩
  · have := gt.mpr greater
    exact ⟨fun zero => by omega, fun same => absurd same greater.ne'⟩

/-- The positions of a key's fields. -/
def place (pos : Nat → V → P) (key : List V) (i : Nat) : P := pos i (field key i)

/-- The range of a field as ranges of cuts in scan order. -/
def scanCuts (v : FieldRangeVector V) (pos : Nat → V → P) (i : Nat) :
    List ((P ×ₗ Bool) × (P ×ₗ Bool)) :=
  (v.range i).intervals.map (cuts (pos i))

section Scanned

variable (scanned : v.Scanned pos)
include scanned

variable {a b : List V}

theorem samePrefix_iff {r : Nat} : v.SamePrefix r a b ↔ Agree r (place pos a) (place pos b) := by
  simp only [SamePrefix, scanned.eq_iff, Agree, place]

theorem prefixBefore_iff {r : Nat} :
    v.PrefixBefore r a b ↔ PrefixLt r (place pos a) (place pos b) := by
  simp only [PrefixBefore, samePrefix_iff scanned, scanned.lt_iff, PrefixLt, place]

theorem scanLe_iff : v.ScanLe a b ↔ PrefixLe v.ranges.length (place pos a) (place pos b) := by
  simp only [ScanLe, samePrefix_iff scanned, prefixBefore_iff scanned, PrefixLe]

/-- Comparing values in their own order is comparing positions, the other way round in a field
that is scanned downwards. -/
theorem woCompareValues_lt_iff (i : Nat) (a b : V) : woCompareValues a b < 0 ↔
    if v.reverse i then pos i b < pos i a else pos i a < pos i b := by
  have lt := scanned.lt_iff i a b
  have gt := scanned.gt_iff i a b
  cases reverse : v.reverse i <;> simp_all [scanCompare]

theorem woCompareValues_eq_iff (i : Nat) (a b : V) :
    woCompareValues a b = 0 ↔ pos i a = pos i b := by
  rw [← scanned.eq_iff i a b, scanCompare]
  split_ifs <;> omega

theorem valid_iff (i : Nat) (f : FieldInterval V) :
    (if v.reverse i then f.exchanged else f).isStrictValid ↔
      (cuts (pos i) f).1 < (cuts (pos i) f).2 := by
  have lt := woCompareValues_lt_iff scanned i
  have eq := woCompareValues_eq_iff scanned i
  cases reverse : v.reverse i <;>
    simp [FieldInterval.isStrictValid, FieldInterval.exchanged, cuts, lowerCut, upperCut,
      cut_lt_iff, lt, eq, reverse]
  grind

theorem before_iff_cuts (i : Nat) (a b : FieldInterval V) :
    (if v.reverse i then b.exchanged.Before a.exchanged else a.Before b) ↔
      (cuts (pos i) a).2 ≤ (cuts (pos i) b).1 := by
  have lt := woCompareValues_lt_iff scanned i
  have eq := woCompareValues_eq_iff scanned i
  cases reverse : v.reverse i <;>
    simp [FieldInterval.Before, FieldInterval.exchanged, cuts, lowerCut, upperCut, cut_le_iff,
      lt, eq, reverse]
  grind

theorem contains_iff_cuts (i : Nat) (f : FieldInterval V) (e : V) :
    (if v.reverse i then f.exchanged else f).Contains e ↔
      InRange (cuts (pos i) f) (below (pos i) e) := by
  have lt := woCompareValues_lt_iff scanned i
  have eq := woCompareValues_eq_iff scanned i
  cases reverse : v.reverse i <;>
    simp [FieldInterval.Contains, FieldInterval.exchanged, InRange, below, cuts, lowerCut,
      upperCut, cut_le_iff, cut_lt_iff, lt, eq, reverse]
  grind

theorem oriented_wellFormed_iff (i : Nat) :
    (v.oriented i).WellFormed ↔ Ascending (v.scanCuts pos i) := by
  have valid := valid_iff scanned i
  have before := before_iff_cuts scanned i
  have parts : (v.oriented i).WellFormed ↔
      (v.range i).intervals.Pairwise (fun a b => (cuts (pos i) a).2 ≤ (cuts (pos i) b).1) ∧
        ∀ f ∈ (v.range i).intervals, (cuts (pos i) f).1 < (cuts (pos i) f).2 := by
    simp only [← valid, ← before]
    rw [oriented]
    cases v.reverse i
    · exact ⟨fun h => ⟨h.sorted, h.valid⟩, fun h => ⟨h.1, h.2⟩⟩
    · constructor
      · intro h
        have sorted := h.sorted
        have each := h.valid
        simp only [FieldRange.reverse, if_true, List.pairwise_reverse, List.pairwise_map,
          List.mem_reverse, List.forall_mem_map] at sorted each
        exact ⟨sorted, each⟩
      · rintro ⟨sorted, each⟩
        refine ⟨?_, ?_⟩ <;>
          simp only [FieldRange.reverse, if_true, List.pairwise_reverse, List.pairwise_map,
            List.mem_reverse, List.forall_mem_map]
        · exact sorted
        · exact each
  rw [parts, ← List.pairwise_map (f := cuts (pos i)) (R := fun a b => a.2 ≤ b.1)]
  constructor
  · rintro ⟨sorted, proper⟩
    exact ⟨List.forall_mem_map.mpr proper, sorted⟩
  · rintro ⟨proper, sorted⟩
    exact ⟨sorted, List.forall_mem_map.mp proper⟩

theorem oriented_contains_iff (i : Nat) (e : V) :
    (v.oriented i).Contains e ↔ Covers (v.scanCuts pos i) (below (pos i) e) := by
  have inside := contains_iff_cuts scanned i
  simp only [Covers, scanCuts, List.mem_map, exists_exists_and_eq_and, ← inside]
  rw [oriented]
  cases v.reverse i
  · rfl
  · simp [FieldRange.Contains, FieldRange.reverse]

end Scanned

end FieldRangeVector

/-! ### The binary search -/

variable {e : V}

section Search

variable {P : Type} [LinearOrder P] {pos : V → P} {intervals : List (FieldInterval V)}

/-- Where a value lies among the intervals: in one of them, or before the interval `t` and past
those that come first. It may then be the bound at which `t` starts. -/
inductive Located (pos : V → P) (intervals : List (FieldInterval V)) (e : V) : Int × Bool → Prop
  | inside {t : Nat} {f : FieldInterval V} {lowEquality : Bool} (at_t : intervals[t]? = some f)
      (mem : InRange (cuts pos f) (below pos e)) : Located pos intervals e (2 * t, lowEquality)
  | before {t : Nat} {lowEquality : Bool} (le : t ≤ intervals.length)
      (past : ∀ s < t, ∀ f, intervals[s]? = some f → (cuts pos f).2 ≤ below pos e)
      (next : ∀ f, intervals[t]? = some f → below pos e < (cuts pos f).1)
      (low : lowEquality → ∃ f, intervals[t]? = some f ∧ (cuts pos f).1 = above pos e) :
      Located pos intervals e (2 * t - 1, lowEquality)

/-- The search says that a value lies in no interval although it does: the value is where one
interval ends and another begins. -/
def Missed (pos : V → P) (intervals : List (FieldInterval V)) (e : V) (l : Int) : Prop :=
  l % 2 ≠ 0 ∧ Covers (intervals.map (cuts pos)) (below pos e) ∧
    ∃ f ∈ intervals, ∃ g ∈ intervals, (cuts pos f).2 = (cuts pos g).1

variable {m : Nat}

omit [ElementValues V] in
theorem boundAt_eq_some {b : FieldBound V} :
    boundAt intervals m = some b ↔ ∃ f, intervals[m / 2]? = some f ∧
      (if m % 2 = 0 then f.lower else f.upper) = b := by
  simp [boundAt]

omit [ElementValues V] in
theorem le_of_cut_le {x y : P} {p q : Bool} (le : toLex (x, p) ≤ toLex (y, q)) : x ≤ y := by
  rcases cut_le_iff.mp le with less | ⟨same, _⟩
  · exact less.le
  · exact same.le

omit [ElementValues V] in
/-- The bounds ascend with their numbers. -/
theorem boundAt_mono (ascending : Ascending (intervals.map (cuts pos))) {n : Nat}
    {b c : FieldBound V} (le : m ≤ n) (first : boundAt intervals m = some b)
    (second : boundAt intervals n = some c) : pos b.bound.value ≤ pos c.bound.value := by
  obtain ⟨f, at_m, rfl⟩ := boundAt_eq_some.mp first
  obtain ⟨g, at_n, rfl⟩ := boundAt_eq_some.mp second
  have cut_m : (intervals.map (cuts pos))[m / 2]? = some (cuts pos f) := by simp [at_m]
  have cut_n : (intervals.map (cuts pos))[n / 2]? = some (cuts pos g) := by simp [at_n]
  have proper_f : pos f.lower.bound.value ≤ pos f.upper.bound.value :=
    le_of_cut_le (ascending.proper_at cut_m).le
  have proper_g : pos g.lower.bound.value ≤ pos g.upper.bound.value :=
    le_of_cut_le (ascending.proper_at cut_n).le
  rcases Nat.lt_or_ge (m / 2) (n / 2) with before | after
  · have apart : pos f.upper.bound.value ≤ pos g.lower.bound.value :=
      le_of_cut_le (ascending.le_of_lt before cut_m cut_n)
    split_ifs
    · exact proper_f.trans apart
    · exact proper_f.trans (apart.trans proper_g)
    · exact apart
    · exact apart.trans proper_g
  · have same : m / 2 = n / 2 := by omega
    obtain rfl : f = g := by rw [same, at_n] at at_m; exact (Option.some.inj at_m).symm
    split_ifs
    · exact le_refl _
    · exact proper_f
    · omega
    · exact le_refl _

omit [ElementValues V] in
theorem boundAt_lower {t : Nat} {f : FieldInterval V} (at_t : intervals[t]? = some f) :
    boundAt intervals (2 * t) = some f.lower :=
  boundAt_eq_some.mpr ⟨f, by simpa using at_t, by simp⟩

omit [ElementValues V] in
theorem boundAt_upper {t : Nat} {f : FieldInterval V} (at_t : intervals[t]? = some f) :
    boundAt intervals (2 * t + 1) = some f.upper :=
  boundAt_eq_some.mpr ⟨f, by rw [← at_t]; congr 1; omega, by simp⟩

omit [ElementValues V] in
/-- Between the bounds below and those above the value. -/
theorem located_between {low : Nat} (le : low ≤ intervals.length * 2)
    (lower : ∀ m < low, ∀ b, boundAt intervals m = some b → pos b.bound.value < pos e)
    (upper : ∀ m ≥ low, ∀ b, boundAt intervals m = some b → pos e < pos b.bound.value) :
    Located pos intervals e ((low : Int) - 1, false) := by
  rcases Nat.even_or_odd' low with ⟨t, rfl | rfl⟩
  · have before : Located pos intervals e (2 * (t : Int) - 1, false) := by
      refine .before (by omega) (fun s lt f at_s => ?_) (fun f at_t => ?_) (by simp)
      · exact cut_le_iff.mpr (.inl (lower _ (by omega) _ (boundAt_upper at_s)))
      · exact cut_lt_iff.mpr (.inl (upper _ (by omega) _ (boundAt_lower at_t)))
    simpa using before
  · obtain ⟨f, at_t⟩ : ∃ f, intervals[t]? = some f :=
      ⟨intervals[t], List.getElem?_eq_getElem (by omega)⟩
    have inside : Located pos intervals e (2 * (t : Int), false) :=
      .inside at_t ⟨cut_le_iff.mpr (.inl (lower _ (by omega) _ (boundAt_lower at_t))),
        cut_lt_iff.mpr (.inl (upper _ (by omega) _ (boundAt_upper at_t)))⟩
    simpa using inside

omit [ElementValues V] in
/-- There is no cut between the two of one value. -/
theorem le_below_of_lt_above {c : P ×ₗ Bool} (lt : c < above pos e) : c ≤ below pos e := by
  obtain ⟨x, p⟩ := c
  rcases cut_lt_iff.mp lt with less | ⟨rfl, off, _⟩
  · exact cut_le_iff.mpr (.inl less)
  · exact cut_le_iff.mpr (.inr ⟨rfl, by simp [off]⟩)

omit [ElementValues V] in
theorem below_lt_above (e : V) : below pos e < above pos e := cut_lt_iff.mpr (.inr ⟨rfl, rfl, rfl⟩)

variable {l : Int}

section Bound

variable (ascending : Ascending (intervals.map (cuts pos))) {e : V} {t : Nat} {f : FieldInterval V}
  (at_t : intervals[t]? = some f)
include ascending at_t

omit [ElementValues V] in
/-- At the lower bound of an interval. If the bound is excluded the value lies before the
interval, unless a neighbour ends with it. -/
theorem located_at_lower (same : pos f.lower.bound.value = pos e)
    (result : l = if f.lower.inclusive then 2 * (t : Int) else 2 * (t : Int) - 1) :
    Located pos intervals e (l, true) ∨ Missed pos intervals e l := by
  have cut_t : (intervals.map (cuts pos))[t]? = some (cuts pos f) := by simp [at_t]
  have proper := ascending.proper_at cut_t
  have start : (cuts pos f).1 = toLex (pos e, !f.lower.inclusive) := by rw [← same]; rfl
  cases inclusive : f.lower.inclusive
  · rw [inclusive] at start result
    obtain rfl : l = 2 * (t : Int) - 1 := result
    by_cases past : ∀ s < t, ∀ g, intervals[s]? = some g → (cuts pos g).2 ≤ below pos e
    · refine .inl (.before (List.getElem?_eq_some_iff.mp at_t).1.le past (fun g at_g => ?_)
        fun _ => ⟨f, at_t, start⟩)
      obtain rfl : f = g := Option.some.inj (at_t.symm.trans at_g)
      exact (below_lt_above e).trans_eq start.symm
    · push Not at past
      obtain ⟨s, lt, g, at_s, beyond⟩ := past
      have cut_s : (intervals.map (cuts pos))[s]? = some (cuts pos g) := by simp [at_s]
      have ends : (cuts pos g).2 ≤ above pos e := (ascending.le_of_lt lt cut_s cut_t).trans_eq start
      have meets : (cuts pos g).2 = above pos e :=
        ends.eq_of_not_lt fun less => absurd (le_below_of_lt_above less) (not_le.mpr beyond)
      refine .inr ⟨by omega, ⟨cuts pos g, List.mem_of_getElem? cut_s,
        le_below_of_lt_above ((ascending.proper_at cut_s).trans_le ends), beyond⟩,
        g, List.mem_of_getElem? at_s, f, List.mem_of_getElem? at_t, meets.trans start.symm⟩
  · rw [inclusive] at start result
    obtain rfl : l = 2 * (t : Int) := result
    exact .inl (.inside at_t ⟨start.le, start.symm.trans_lt proper⟩)

omit [ElementValues V] in
/-- At the upper bound of an interval. If the bound is excluded the value lies before the next
interval, unless that one starts with it. -/
theorem located_at_upper (same : pos f.upper.bound.value = pos e)
    (result : l = if f.upper.inclusive then 2 * (t : Int) else 2 * (t : Int) + 1) :
    Located pos intervals e (l, false) ∨ Missed pos intervals e l := by
  have cut_t : (intervals.map (cuts pos))[t]? = some (cuts pos f) := by simp [at_t]
  have proper := ascending.proper_at cut_t
  have stop : (cuts pos f).2 = toLex (pos e, f.upper.inclusive) := by rw [← same]; rfl
  cases inclusive : f.upper.inclusive
  · rw [inclusive] at stop result
    obtain rfl : l = 2 * ((t + 1 : Nat) : Int) - 1 := by
      rw [result, if_neg Bool.false_ne_true]
      omega
    by_cases next : ∀ g, intervals[t + 1]? = some g → below pos e < (cuts pos g).1
    · refine .inl (.before (List.getElem?_eq_some_iff.mp at_t).1 (fun s lt g at_s => ?_) next
        (by simp))
      have cut_s : (intervals.map (cuts pos))[s]? = some (cuts pos g) := by simp [at_s]
      rcases Nat.lt_succ_iff_lt_or_eq.mp lt with before | rfl
      · exact (ascending.le_of_lt before cut_s cut_t).trans (proper.le.trans_eq stop)
      · obtain rfl : f = g := Option.some.inj (at_t.symm.trans at_s)
        exact stop.le
    · push Not at next
      obtain ⟨g, at_g, starts⟩ := next
      have cut_g : (intervals.map (cuts pos))[t + 1]? = some (cuts pos g) := by simp [at_g]
      have meets : (cuts pos f).2 = (cuts pos g).1 :=
        le_antisymm (ascending.le_of_lt (Nat.lt_succ_self t) cut_t cut_g)
          (starts.trans_eq stop.symm)
      refine .inr ⟨by omega, ⟨cuts pos g, List.mem_of_getElem? cut_g, starts, ?_⟩,
        f, List.mem_of_getElem? at_t, g, List.mem_of_getElem? at_g, meets⟩
      exact (stop.symm.trans meets).trans_lt (ascending.proper_at cut_g)
  · rw [inclusive] at stop result
    obtain rfl : l = 2 * (t : Int) := result
    exact .inl (.inside at_t ⟨le_below_of_lt_above (proper.trans_eq stop),
      (below_lt_above e).trans_eq stop.symm⟩)

end Bound

omit [ElementValues V] in
theorem located_at (ascending : Ascending (intervals.map (cuts pos))) {b : FieldBound V}
    (at_m : boundAt intervals m = some b) (same : pos b.bound.value = pos e)
    (result : l = if m % 2 = 0 ∧ ¬ b.inclusive ∨ m % 2 = 1 ∧ b.inclusive then
      (m : Int) - 1 else m) :
    Located pos intervals e (l, m % 2 = 0) ∨ Missed pos intervals e l := by
  obtain ⟨f, at_t, rfl⟩ := boundAt_eq_some.mp at_m
  rcases Nat.even_or_odd' m with ⟨t, rfl | rfl⟩
  · have half : 2 * t / 2 = t := by omega
    have even : 2 * t % 2 = 0 := by omega
    rw [half] at at_t
    simp only [even, if_true] at same result ⊢
    refine located_at_lower ascending at_t same ?_
    cases inclusive : f.lower.inclusive <;> simp [inclusive] at result ⊢ <;> exact result
  · have half : (2 * t + 1) / 2 = t := by omega
    have odd : (2 * t + 1) % 2 = 1 := by omega
    rw [half] at at_t
    simp only [odd, one_ne_zero, if_false] at same result ⊢
    refine located_at_upper ascending at_t same ?_
    cases inclusive : f.upper.inclusive <;> simp [inclusive] at result ⊢ <;> exact result

theorem located_matchingLowLoop (ascending : Ascending (intervals.map (cuts pos)))
    {forward : Bool} (lt_iff : ∀ a b : V, scanCompare (!forward) a b < 0 ↔ pos a < pos b)
    (gt_iff : ∀ a b : V, 0 < scanCompare (!forward) a b ↔ pos b < pos a) (low h : Nat)
    (room : low ≤ h) (bounded : h ≤ intervals.length * 2)
    (lower : ∀ m < low, ∀ b, boundAt intervals m = some b → pos b.bound.value < pos e)
    (upper : ∀ m ≥ h, ∀ b, boundAt intervals m = some b → pos e < pos b.bound.value) :
    Located pos intervals e (matchingLowLoop intervals forward e low h) ∨
      Missed pos intervals e (matchingLowLoop intervals forward e low h).1 := by
  fun_induction matchingLowLoop intervals forward e low h with
  | case1 low h open_ m absent =>
    have here : m / 2 < intervals.length := by omega
    simp [boundAt, List.getElem?_eq_getElem here] at absent
  | case2 low h open_ m b at_m cmp less ih =>
    refine ih (by omega) bounded (fun n le c at_n => ?_) upper
    exact (boundAt_mono ascending (Nat.lt_succ_iff.mp le) at_n at_m).trans_lt ((lt_iff _ _).mp less)
  | case3 low h open_ m b at_m cmp _ greater ih =>
    refine ih (by omega) (by omega) lower (fun n le c at_n => ?_)
    exact ((gt_iff _ _).mp greater).trans_le (boundAt_mono ascending le at_m at_n)
  | case4 low h open_ m b at_m cmp not_less not_greater side
  | case5 low h open_ m b at_m cmp not_less not_greater side =>
    have same : pos b.bound.value = pos e := le_antisymm
      (not_lt.mp fun above => not_greater ((gt_iff _ _).mpr above))
      (not_lt.mp fun below => not_less ((lt_iff _ _).mpr below))
    first
      | exact located_at ascending at_m same (if_pos side).symm
      | exact located_at ascending at_m same (if_neg side).symm
  | case6 low h closed =>
    obtain rfl : low = h := by omega
    exact .inl (located_between bounded lower upper)

end Search

namespace FieldRangeVector

variable {v : FieldRangeVector V} {P : Type} [LinearOrder P] {pos : Nat → V → P}

variable {i : Nat}

theorem located_or_missed (scanned : v.Scanned pos) (wellFormed : v.WellFormed)
    (lt : i < v.ranges.length) (e : V) :
    Located (pos i) (v.range i).intervals e
      (matchingLowElement (v.range i).intervals (!v.reverse i) e) ∨
    Missed (pos i) (v.range i).intervals e
      (matchingLowElement (v.range i).intervals (!v.reverse i) e).1 := by
  have ascending := (oriented_wellFormed_iff scanned i).mp (wellFormed.wellFormed i lt)
  refine located_matchingLowLoop ascending ?_ ?_ 0 _ (Nat.zero_le _) le_rfl
    (fun m lt => absurd lt (Nat.not_lt_zero m)) (fun m le b at_m => ?_)
  · simpa using scanned.lt_iff i
  · simpa using scanned.gt_iff i
  · obtain ⟨f, at_m, _⟩ := boundAt_eq_some.mp at_m
    have := (List.getElem?_eq_some_iff.mp at_m).1
    omega

/-- Where the search is right about a value lying in the range, it finds the place. -/
theorem Searchable.located (searchable : v.Searchable) (scanned : v.Scanned pos)
    (wellFormed : v.WellFormed) (lt : i < v.ranges.length) (e : V) :
    Located (pos i) (v.range i).intervals e
      (matchingLowElement (v.range i).intervals (!v.reverse i) e) := by
  have right := searchable i lt e
  rw [oriented_contains_iff scanned, matchesElement, v.forward_eq, decide_eq_true_eq] at right
  rcases located_or_missed scanned wellFormed lt e with located | ⟨odd, covered, _⟩
  · exact located
  · exact absurd (right.mpr covered) odd

/-- A value that the search finds in an interval lies in one. -/
theorem contains_of_matchesElement (scanned : v.Scanned pos) (wellFormed : v.WellFormed)
    (lt : i < v.ranges.length) (found : v.matchesElement e i (v.forward i)) :
    (v.oriented i).Contains e := by
  rw [matchesElement, v.forward_eq, decide_eq_true_eq] at found
  rw [oriented_contains_iff scanned]
  rcases located_or_missed scanned wellFormed lt e with located | ⟨odd, _⟩
  · revert located found
    generalize matchingLowElement (v.range i).intervals (!v.reverse i) e = result
    intro even located
    cases located with
    | @inside t f lowEquality at_t mem =>
      exact ⟨cuts (pos i) f, List.mem_map_of_mem (List.mem_of_getElem? at_t), mem⟩
    | @before t lowEquality le past next low =>
      dsimp only at even
      omega
  · exact absurd found odd

/-- The search is right about a field if no interval ends just where another begins. -/
theorem matchesElement_iff_of_apart (scanned : v.Scanned pos) (wellFormed : v.WellFormed)
    (lt : i < v.ranges.length)
    (apart : ∀ f ∈ (v.range i).intervals, ∀ g ∈ (v.range i).intervals,
      woCompareValues f.upper.bound.value g.lower.bound.value = 0 → f.upper.inclusive =
      g.lower.inclusive)
    (e : V) : v.matchesElement e i (v.forward i) ↔ (v.oriented i).Contains e := by
  refine ⟨contains_of_matchesElement scanned wellFormed lt, ?_⟩
  rw [oriented_contains_iff scanned, matchesElement, v.forward_eq, decide_eq_true_eq]
  rcases located_or_missed scanned wellFormed lt e with located | ⟨_, _, f, at_f, g, at_g, meets⟩
  · have ascending := (oriented_wellFormed_iff scanned i).mp (wellFormed.wellFormed i lt)
    revert located
    generalize matchingLowElement (v.range i).intervals (!v.reverse i) e = result
    intro located
    cases located with
    | @inside t f lowEquality at_t mem =>
      intro _
      dsimp only
      omega
    | @before t lowEquality le past next low =>
      rintro ⟨_, mem, start, stop⟩
      obtain ⟨s, at_s⟩ := List.mem_iff_getElem?.mp mem
      obtain ⟨f, here, rfl⟩ : ∃ f, (v.range i).intervals[s]? = some f ∧ cuts (pos i) f = _ := by
        simpa [scanCuts] using at_s
      rcases Nat.lt_or_ge s t with before | after
      · exact absurd stop (not_lt.mpr (past s before f here))
      · obtain ⟨g, at_t⟩ : ∃ g, (v.range i).intervals[t]? = some g :=
          ⟨_, List.getElem?_eq_getElem (after.trans_lt (List.getElem?_eq_some_iff.mp here).1)⟩
        have first : (v.scanCuts pos i)[t]? = some (cuts (pos i) g) := by simp [scanCuts, at_t]
        have starts : (cuts (pos i) g).1 ≤ (cuts (pos i) f).1 := by
          rcases after.eq_or_lt with rfl | later
          · exact (Option.some.inj (at_t.symm.trans here)) ▸ le_rfl
          · exact (ascending.proper_at first).le.trans (ascending.le_of_lt later first at_s)
        exact absurd (starts.trans start) (not_le.mpr (next g at_t))
  · simp only [cuts, upperCut, lowerCut, EmbeddingLike.apply_eq_iff_eq, Prod.mk.injEq] at meets
    have same := apart f at_f g at_g ((woCompareValues_eq_iff scanned i _ _).mpr meets.1)
    have differ := meets.2
    rw [same] at differ
    cases inclusive : g.lower.inclusive <;> simp [inclusive] at differ

/-- The search is right about all values if no interval ends just where another begins. -/
theorem searchable_of_apart (scanned : v.Scanned pos) (wellFormed : v.WellFormed)
    (apart : ∀ i < v.ranges.length, ∀ f ∈ (v.range i).intervals, ∀ g ∈ (v.range i).intervals,
      woCompareValues f.upper.bound.value g.lower.bound.value = 0 →
        f.upper.inclusive = g.lower.inclusive) : v.Searchable :=
  fun i lt e => matchesElement_iff_of_apart scanned wellFormed lt (apart i lt) e

end FieldRangeVector

end TokuMX.Query
