import TokuMX.Query.RangeVector

/-!
The start and end keys of a field range vector (`FieldRangeVector::startKey`, `endKey`,
`isSingleInterval` and their like in `db/queryutil.cpp`).

A scan for a vector runs between two keys. Each is made of one bound for each field, up to the
first exclusive bound, and of extreme values behind it. Where `isSingleInterval` is true the keys
between them are taken to be just those that match.

There are two flaws. `endKey` takes the upper bounds of the last intervals, but `endKeyInclusive`
looks at those of the first ones. And the ranges behind the first one that is not an equality only
have to be universal, which `universal` also says of a range that leaves out `MinKey` or `MaxKey`.

* `bounds_exact` — when the two keys bound what they should.
-/

namespace TokuMX.Query

open TokuMX.Lib

variable {V : Type} [ElementValues V]

namespace FieldRange

/-- `min()` and `minInclusive()`. -/
def firstLower (r : FieldRange V) : Option (FieldBound V) := r.intervals.head?.map (·.lower)

/-- `max()` and `maxInclusive()`. -/
def lastUpper (r : FieldRange V) : Option (FieldBound V) := r.intervals.getLast?.map (·.upper)

end FieldRange

namespace FieldRangeVector

variable (v : FieldRangeVector V)

/-- `forward` in `startKey` and `endKey`. The constructor has made `_direction` 1 or -1. -/
def keyForward (i : Nat) : Bool := (if v.number i ≥ 0 then (1 : Int) else -1) * v.direction > 0

omit [ElementValues V] in
/-- The second loop of `startKey` and `endKey`. -/
def extremes (extreme : Nat → V) : Nat → List (FieldRange V) → List V
  | _, [] => []
  | i, _ :: ranges => extreme i :: extremes extreme (i + 1) ranges

omit [ElementValues V] in
/-- `startKey` and `endKey`: the bounds up to the first exclusive one, then extreme values. -/
def boundKey (bound : FieldRange V → Option (FieldBound V)) (extreme : Nat → V) :
    Nat → List (FieldRange V) → List V
  | _, [] => []
  | i, r :: ranges =>
    match bound r with
    | none => []
    | some b =>
      b.bound.value ::
        if b.inclusive then boundKey bound extreme (i + 1) ranges
        else extremes extreme (i + 1) ranges

def startKey : List V :=
  boundKey FieldRange.firstLower
    (fun i => if v.keyForward i then ElementValues.maxKey else ElementValues.minKey) 0 v.ranges

def startKeyInclusive : Bool :=
  v.ranges.all fun r => r.intervals.head?.all (·.lower.inclusive)

def endKey : List V :=
  boundKey FieldRange.lastUpper
    (fun i => if v.keyForward i then ElementValues.minKey else ElementValues.maxKey) 0 v.ranges

/-- `endKeyInclusive`, which looks at the first intervals. -/
def endKeyInclusive : Bool :=
  v.ranges.all fun r => r.intervals.head?.all (·.upper.inclusive)

def isSingleInterval : Bool :=
  match v.ranges.dropWhile (·.equality) with
  | [] => true
  | r :: rest => r.intervals.length = 1 && rest.all universalOrReverseUniversalRange

/-! ### What they are for -/

/-- A key is not before the start key, nor at it if that is not included. -/
def FromStart (key : List V) : Prop :=
  if v.startKeyInclusive then v.ScanLe v.startKey key
  else v.PrefixBefore v.ranges.length v.startKey key

/-- A key is not behind the end key, nor at it if that is not included. -/
def ToEnd (key : List V) : Prop :=
  if v.endKeyInclusive then v.ScanLe key v.endKey
  else v.PrefixBefore v.ranges.length key v.endKey

def InInterval (key : List V) : Prop := v.FromStart key ∧ v.ToEnd key

instance (key : List V) : Decidable (v.FromStart key) := inferInstanceAs (Decidable (ite _ _ _))

instance (key : List V) : Decidable (v.ToEnd key) := inferInstanceAs (Decidable (ite _ _ _))

instance (key : List V) : Decidable (v.InInterval key) := inferInstanceAs (Decidable (_ ∧ _))

def lowerBound (i : Nat) : FieldBound V := (v.range i).firstLower.getD ⟨⟨[], v.scanFirst i⟩, true⟩

def upperBound (i : Nat) : FieldBound V := (v.range i).lastUpper.getD ⟨⟨[], v.scanLast i⟩, true⟩

/-- The number of equalities at the beginning. -/
def equalities : Nat := (v.ranges.takeWhile (·.equality)).length

/-- The value lies strictly between the bounds of a field. -/
def Between (i : Nat) (e : V) : Prop :=
  scanCompare (v.reverse i) (v.lowerBound i).bound.value e < 0 ∧
    scanCompare (v.reverse i) e (v.upperBound i).bound.value < 0

/-- A key with the values of the equalities, a value for the first range that is not one, and
another value for a range behind it. -/
def keyWith (w : V) (i : Nat) (e : V) : List V :=
  (List.range v.ranges.length).map fun j =>
    if j = v.equalities then w else if j = i then e else (v.lowerBound j).bound.value

/-- If every range takes in the upper bound of its last interval, then the upper bounds of all
first intervals are inclusive. -/
def EndAgrees : Prop :=
  (∀ i < v.ranges.length, v.matchesElement (v.upperBound i).bound.value i (v.forward i)) →
    ∀ r ∈ v.ranges, ∀ first ∈ r.intervals.head?, first.upper.inclusive

/-- The ranges behind the first one that is not an equality take in every value. -/
def TrailingFull : Prop :=
  ∀ i, v.equalities < i → i < v.ranges.length → ∀ e : V, v.matchesElement e i (v.forward i)

end FieldRangeVector

/-! ### The fields of the two keys -/

section Fields

omit [ElementValues V] in
theorem getElem?_extremes (extreme : Nat → V) (i : Nat) (ranges : List (FieldRange V)) {k : Nat}
    (lt : k < ranges.length) :
    (FieldRangeVector.extremes extreme i ranges)[k]? = some (extreme (i + k)) := by
  induction ranges generalizing i k with
  | nil => exact absurd lt (Nat.not_lt_zero k)
  | cons r ranges ih =>
    cases k with
    | zero => rfl
    | succ k =>
      rw [FieldRangeVector.extremes, List.getElem?_cons_succ, ih (i + 1) (by simpa using lt)]
      congr 2
      omega

omit [ElementValues V] in
theorem getElem?_boundKey {bound : FieldRange V → Option (FieldBound V)} (extreme : Nat → V)
    (b : Nat → FieldBound V) (i : Nat) {ranges : List (FieldRange V)}
    (given : ∀ k r, ranges[k]? = some r → bound r = some (b (i + k))) {k : Nat}
    (lt : k < ranges.length) :
    (FieldRangeVector.boundKey bound extreme i ranges)[k]? =
      some (padded (fun j => (b (i + j)).bound.value) (fun j => (b (i + j)).inclusive)
        (fun j => extreme (i + j)) k) := by
  induction ranges generalizing i k with
  | nil => exact absurd lt (Nat.not_lt_zero k)
  | cons r ranges ih =>
    have here : bound r = some (b i) := given 0 r rfl
    rw [FieldRangeVector.boundKey, here]
    cases k with
    | zero => rfl
    | succ k =>
      have shift : ∀ j, i + 1 + j = i + (j + 1) := fun j => by omega
      have inside : k < ranges.length := by simpa using lt
      have later := ih (i + 1) (fun k r at_k => shift k ▸ given (k + 1) r at_k) inside
      simp only [shift] at later
      simp only [List.getElem?_cons_succ, padded_succ, Nat.add_zero]
      split_ifs
      · exact later
      · rw [getElem?_extremes extreme (i + 1) ranges inside, shift]

end Fields

namespace FieldRangeVector

variable {v : FieldRangeVector V}

omit [ElementValues V] in
theorem keyForward_ite (directed : v.direction = 1 ∨ v.direction = -1) (i : Nat) (e e' : V) :
    (if v.keyForward i then e else e') = if v.reverse i then e' else e := by
  have turned : v.keyForward i = !v.reverse i := by
    rw [← v.forward_eq, keyForward, forward]
    rcases directed with forwards | backwards
    · simp [forwards]
    · simp [backwards]
  rw [turned]
  cases v.reverse i <;> rfl

variable {i : Nat}

omit [ElementValues V] in
theorem range_eq {r : FieldRange V} (at_i : v.ranges[i]? = some r) : v.range i = r := by
  simp [range, List.getD_eq_getElem?_getD, at_i]

theorem field_boundKey {bound : FieldRange V → Option (FieldBound V)} (extreme : Nat → V)
    {b : Nat → FieldBound V} (given : ∀ k < v.ranges.length, bound (v.range k) = some (b k))
    (lt : i < v.ranges.length) :
    field (boundKey bound extreme 0 v.ranges) i =
      padded (fun j => (b j).bound.value) (fun j => (b j).inclusive) extreme i := by
  have at_i := getElem?_boundKey extreme b 0 (fun k r at_k => by
    rw [Nat.zero_add, ← given k (List.getElem?_eq_some_iff.mp at_k).1, range_eq at_k]) lt
  rw [field, List.getD_eq_getElem?_getD, at_i]
  simp

section WellFormed

variable (wellFormed : v.WellFormed)
include wellFormed

theorem firstLower_eq (lt : i < v.ranges.length) :
    ∃ f, (v.range i).intervals.head? = some f ∧ v.lowerBound i = f.lower := by
  obtain ⟨f, rest, split⟩ := List.exists_cons_of_ne_nil (wellFormed.nonempty i lt)
  exact ⟨f, by simp [split], by simp [lowerBound, FieldRange.firstLower, split]⟩

theorem lastUpper_eq (lt : i < v.ranges.length) :
    ∃ f, (v.range i).intervals.getLast? = some f ∧ v.upperBound i = f.upper := by
  have last := List.getLast?_eq_some_getLast (wellFormed.nonempty i lt)
  exact ⟨_, last, by simp [upperBound, FieldRange.lastUpper, last]⟩

theorem field_startKey (directed : v.direction = 1 ∨ v.direction = -1) (lt : i < v.ranges.length) :
    field v.startKey i =
      padded (fun j => (v.lowerBound j).bound.value) (fun j => (v.lowerBound j).inclusive)
        v.scanLast i := by
  simp only [startKey, keyForward_ite directed]
  refine field_boundKey v.scanLast (fun k inside => ?_) lt
  obtain ⟨f, first, lower⟩ := firstLower_eq wellFormed inside
  simp [FieldRange.firstLower, first, lower]

theorem field_endKey (directed : v.direction = 1 ∨ v.direction = -1) (lt : i < v.ranges.length) :
    field v.endKey i =
      padded (fun j => (v.upperBound j).bound.value) (fun j => (v.upperBound j).inclusive)
        v.scanFirst i := by
  simp only [endKey, keyForward_ite directed]
  refine field_boundKey v.scanFirst (fun k inside => ?_) lt
  obtain ⟨f, last, upper⟩ := lastUpper_eq wellFormed inside
  simp [FieldRange.lastUpper, last, upper]

theorem startKeyInclusive_iff :
    v.startKeyInclusive ↔ ∀ i < v.ranges.length, (v.lowerBound i).inclusive := by
  rw [startKeyInclusive, List.all_eq_true, List.forall_mem_iff_getElem]
  refine forall₂_congr fun i lt => ?_
  obtain ⟨f, first, lower⟩ := firstLower_eq wellFormed lt
  rw [range_eq (List.getElem?_eq_getElem lt)] at first
  simp [first, lower]

theorem equality_iff (lt : i < v.ranges.length) : (v.range i).equality ↔
    woCompareValues (v.lowerBound i).bound.value (v.upperBound i).bound.value = 0 ∧
      (v.upperBound i).inclusive ∧ (v.lowerBound i).inclusive := by
  obtain ⟨f, first, lower⟩ := firstLower_eq wellFormed lt
  obtain ⟨l, last, upper⟩ := lastUpper_eq wellFormed lt
  simp only [FieldRange.equality, first, last, lower, upper, Bool.and_eq_true, decide_eq_true_eq,
    and_assoc, Element.woCompare_false]

end WellFormed

theorem bounds_of_single (single : (v.range i).intervals.length = 1) :
    ∃ f, (v.range i).intervals = [f] ∧ v.lowerBound i = f.lower ∧ v.upperBound i = f.upper := by
  obtain ⟨f, only⟩ := List.length_eq_one_iff.mp single
  refine ⟨f, only, ?_, ?_⟩
  · simp [lowerBound, FieldRange.firstLower, only]
  · simp [upperBound, FieldRange.lastUpper, only]

omit [ElementValues V] in
/-- For a range of one interval `endKeyInclusive` looks at the right bound. -/
theorem not_endKeyInclusive (lt : i < v.ranges.length) {f : FieldInterval V}
    (only : (v.range i).intervals = [f]) (exclusive : f.upper.inclusive = false) :
    v.endKeyInclusive = false := by
  rw [endKeyInclusive, List.all_eq_false]
  refine ⟨v.ranges[i], List.getElem_mem lt, ?_⟩
  rw [range_eq (List.getElem?_eq_getElem lt)] at only
  simp [only, exclusive]

/-- The search only sees how a value compares with the bounds. -/
theorem matchingLowElement_congr {intervals : List (FieldInterval V)} {forward : Bool} {e e' : V}
    (same : ∀ b : V, (scanCompare (!forward) b e < 0 ↔ scanCompare (!forward) b e' < 0) ∧
      (0 < scanCompare (!forward) b e ↔ 0 < scanCompare (!forward) b e')) :
    matchingLowElement intervals forward e = matchingLowElement intervals forward e' := by
  rw [matchingLowElement, matchingLowElement]
  generalize intervals.length * 2 = h
  generalize 0 = low
  fun_induction matchingLowLoop intervals forward e low h with
  | case1 low h room | case6 low h room =>
    rw [matchingLowLoop]
    grind
  | case2 low h _ _ _ _ _ _ ih | case3 low h _ _ _ _ _ _ _ ih =>
    rw [ih, matchingLowLoop.eq_def _ _ e' low h]
    grind
  | case4 low h room m b at_m cmp less greater side
  | case5 low h room m b at_m cmp less greater side =>
    rw [matchingLowLoop, dif_pos room]
    simp only [show boundAt intervals ((low + h - 1) / 2) = some b from at_m, gt_iff_lt,
      mt (same _).2.mpr greater, mt (same _).1.mpr less, if_false, m]
    first | rw [if_pos side] | rw [if_neg side]

/-! ### The leading equalities -/

theorem equality_of_lt (lt : i < v.equalities) : (v.range i).equality := by
  have inside : i < (v.ranges.takeWhile (·.equality)).length := lt
  have equal := List.all_takeWhile (l := v.ranges) (p := (·.equality))
  have at_i : v.ranges[i]? = some (v.ranges.takeWhile (·.equality))[i] := by
    conv_lhs => rw [← List.takeWhile_append_dropWhile (p := (·.equality)) (l := v.ranges)]
    rw [List.getElem?_append_left inside, List.getElem?_eq_getElem inside]
  rw [range_eq at_i]
  exact List.all_eq_true.mp equal _ (List.getElem_mem inside)

theorem single_of_isSingleInterval (single : v.isSingleInterval)
    (lt : v.equalities < v.ranges.length) :
    (v.range v.equalities).intervals.length = 1 ∧ (v.range v.equalities).equality = false := by
  have split := List.takeWhile_append_dropWhile (p := (·.equality)) (l := v.ranges)
  cases rest : v.ranges.dropWhile (·.equality) with
  | nil =>
    rw [rest, List.append_nil] at split
    rw [equalities, split] at lt
    exact absurd lt (lt_irrefl _)
  | cons r later =>
    have at_i : v.ranges[v.equalities]? = some r := by
      rw [← split, equalities, List.getElem?_append_right le_rfl, rest]
      simp
    have unequal : ¬ r.equality := by
      have head := List.head?_dropWhile_not (·.equality) v.ranges
      rw [rest] at head
      simpa using head
    rw [isSingleInterval, rest] at single
    rw [range_eq at_i]
    simp only [Bool.and_eq_true, decide_eq_true_eq] at single
    exact ⟨single.1, by simpa using unequal⟩

/-! ### Keys and bounds in scan order -/

section Scanned

variable {P : Type} [LinearOrder P] {pos : Nat → V → P} (scanned : v.Scanned pos)
  (wellFormed : v.WellFormed)

/-- The positions of the bounds of each field. -/
def lowerPlace (v : FieldRangeVector V) (pos : Nat → V → P) (i : Nat) : P :=
  pos i (v.lowerBound i).bound.value

def upperPlace (v : FieldRangeVector V) (pos : Nat → V → P) (i : Nat) : P :=
  pos i (v.upperBound i).bound.value

omit [LinearOrder P] in
include wellFormed in
/-- The bounds of a field are those of its first and its last interval. -/
theorem scanCuts_ends (pos : Nat → V → P) (lt : i < v.ranges.length) :
    ∃ f l, v.lowerBound i = f.lower ∧ v.upperBound i = l.upper ∧
      (v.scanCuts pos i)[0]? = some (cuts (pos i) f) ∧
      (v.scanCuts pos i)[(v.scanCuts pos i).length - 1]? = some (cuts (pos i) l) := by
  obtain ⟨f, first, lower⟩ := firstLower_eq wellFormed lt
  obtain ⟨l, last, upper⟩ := lastUpper_eq wellFormed lt
  refine ⟨f, l, lower, upper, ?_, ?_⟩
  · rw [← List.head?_eq_getElem?, scanCuts, List.head?_map, first]
    rfl
  · rw [← List.getLast?_eq_getElem?, scanCuts, List.getLast?_map, last]
    rfl

include scanned wellFormed

section

variable (lt : i < v.ranges.length)
include lt

/-- The cuts of all values in a range are between those of its bounds. -/
theorem within_of_contains {e : V} (inside : (v.oriented i).Contains e) :
    InRange (lowerCut (pos i) (v.lowerBound i), upperCut (pos i) (v.upperBound i))
      (below (pos i) e) := by
  have ascending := (oriented_wellFormed_iff scanned i).mp (wellFormed.wellFormed i lt)
  obtain ⟨f, l, lower, upper, at_first, at_last⟩ := scanCuts_ends wellFormed pos lt
  rw [oriented_contains_iff scanned] at inside
  obtain ⟨_, mem, start, stop⟩ := inside
  obtain ⟨t, at_t⟩ := List.mem_iff_getElem?.mp mem
  have bounded := (List.getElem?_eq_some_iff.mp at_t).1
  constructor
  · rw [lower]
    refine le_trans ?_ start
    rcases Nat.eq_zero_or_pos t with rfl | later
    · exact (Option.some.inj (at_first.symm.trans at_t)) ▸ le_rfl
    · exact (ascending.proper_at at_first).le.trans (ascending.le_of_lt later at_first at_t)
  · rw [upper]
    refine stop.trans_le ?_
    rcases Nat.lt_or_ge t ((v.scanCuts pos i).length - 1) with earlier | final
    · exact (ascending.le_of_lt earlier at_t at_last).trans (ascending.proper_at at_last).le
    · obtain rfl : t = (v.scanCuts pos i).length - 1 := by omega
      exact (Option.some.inj (at_last.symm.trans at_t)) ▸ le_rfl

/-- The search is right about a range of one interval. -/
theorem matchesElement_iff_of_single (single : (v.range i).intervals.length = 1) (e : V) :
    v.matchesElement e i (v.forward i) ↔
      InRange (lowerCut (pos i) (v.lowerBound i), upperCut (pos i) (v.upperBound i))
        (below (pos i) e) := by
  obtain ⟨f, only, lower, upper⟩ := bounds_of_single single
  have ascending := (oriented_wellFormed_iff scanned i).mp (wellFormed.wellFormed i lt)
  have proper : lowerCut (pos i) f.lower < upperCut (pos i) f.upper :=
    ascending.proper (cuts (pos i) f) (by simp [scanCuts, only])
  rw [matchesElement_iff_of_apart scanned wellFormed lt, oriented_contains_iff scanned]
  · simp [scanCuts, only, Covers, cuts, lower, upper]
  · intro g at_g h at_h same
    simp only [only, List.mem_singleton] at at_g at_h
    subst at_g at_h
    rw [woCompareValues_eq_iff scanned i] at same
    rcases cut_lt_iff.mp proper with less | ⟨_, lower, upper⟩
    · exact absurd same less.ne'
    · simp_all

/-- An equality is one interval of one position. -/
theorem single_of_equality (equal : (v.range i).equality) :
    (v.range i).intervals.length = 1 ∧ v.lowerPlace pos i = v.upperPlace pos i ∧
      (v.lowerBound i).inclusive ∧ (v.upperBound i).inclusive := by
  have ascending := (oriented_wellFormed_iff scanned i).mp (wellFormed.wellFormed i lt)
  obtain ⟨f, l, lower, upper, at_first, at_last⟩ := scanCuts_ends wellFormed pos lt
  have parts : woCompareValues (v.lowerBound i).bound.value (v.upperBound i).bound.value = 0 ∧
      (v.upperBound i).inclusive ∧ (v.lowerBound i).inclusive :=
    (equality_iff wellFormed lt).mp equal
  obtain ⟨same, included, included'⟩ := parts
  rw [woCompareValues_eq_iff scanned i] at same
  refine ⟨?_, same, included', included⟩
  have nonempty : (v.range i).intervals.length ≠ 0 :=
    fun none => wellFormed.nonempty i lt (List.length_eq_zero_iff.mp none)
  by_contra several
  -- two intervals would need a cut between the two of the one position
  have count : (v.scanCuts pos i).length = (v.range i).intervals.length := List.length_map _
  have apart := ascending.le_of_lt (by omega) at_first at_last
  rw [lower] at same included'
  rw [upper] at same included
  have stop : (cuts (pos i) l).1 < above (pos i) f.lower.bound.value := by
    have proper := ascending.proper_at at_last
    simpa [cuts, upperCut, above, included, ← same] using proper
  have start : below (pos i) f.lower.bound.value < (cuts (pos i) f).2 := by
    have proper := ascending.proper_at at_first
    simpa [cuts, lowerCut, below, included'] using proper
  exact absurd (start.trans_le apart) (not_lt.mpr (le_below_of_lt_above stop))

end

/-- The positions of the start key and of the end key. -/
def startPlace (v : FieldRangeVector V) (pos : Nat → V → P) : Nat → P :=
  padded (v.lowerPlace pos) (fun i => (v.lowerBound i).inclusive) fun i => pos i (v.scanLast i)

def endPlace (v : FieldRangeVector V) (pos : Nat → V → P) : Nat → P :=
  padded (v.upperPlace pos) (fun i => (v.upperBound i).inclusive) fun i => pos i (v.scanFirst i)

variable (directed : v.direction = 1 ∨ v.direction = -1)
include directed

omit scanned [LinearOrder P] in
theorem place_startKey : Agree v.ranges.length (place pos v.startKey) (v.startPlace pos) := by
  intro i lt
  rw [place, field_startKey wellFormed directed lt]
  exact map_padded pos i

omit scanned [LinearOrder P] in
theorem place_endKey : Agree v.ranges.length (place pos v.endKey) (v.endPlace pos) := by
  intro i lt
  rw [place, field_endKey wellFormed directed lt]
  exact map_padded pos i

variable {key : List V}

theorem fromStart_iff : v.FromStart key ↔
    if v.startKeyInclusive then PrefixLe v.ranges.length (v.startPlace pos) (place pos key)
    else PrefixLt v.ranges.length (v.startPlace pos) (place pos key) := by
  have start : Agree _ (place pos v.startKey) _ := place_startKey wellFormed directed
  simp only [FromStart, scanLe_iff scanned, prefixBefore_iff scanned]
  split_ifs
  · exact ⟨.trans (.inl start.symm), .trans (.inl start)⟩
  · exact ⟨.agree_trans start.symm, .agree_trans start⟩

theorem toEnd_iff : v.ToEnd key ↔
    if v.endKeyInclusive then PrefixLe v.ranges.length (place pos key) (v.endPlace pos)
    else PrefixLt v.ranges.length (place pos key) (v.endPlace pos) := by
  have stop : Agree _ (place pos v.endKey) _ := place_endKey wellFormed directed
  simp only [ToEnd, scanLe_iff scanned, prefixBefore_iff scanned]
  split_ifs
  · exact ⟨fun le => le.trans (.inl stop), fun le => le.trans (.inl stop.symm)⟩
  · exact ⟨fun less => less.trans_agree stop, fun less => less.trans_agree stop.symm⟩

/-! ### Keys that match are between the two keys -/

theorem fromStart_of_matchesKey (found : v.matchesKey key) : v.FromStart key := by
  simp only [matchesKey, List.all_eq_true, List.mem_range] at found
  have within : ∀ i < v.ranges.length,
      lowerCut (pos i) (v.lowerBound i) ≤ below (pos i) (field key i) := fun i lt =>
    (within_of_contains scanned wellFormed lt
      (contains_of_matchesElement scanned wellFormed lt (found i lt))).1
  have lower : ∀ i < v.ranges.length, v.lowerPlace pos i ≤ place pos key i :=
    fun i lt => le_of_cut_le (within i lt)
  rw [fromStart_iff scanned wellFormed directed]
  split_ifs with inclusive
  · exact padded_le lower ((startKeyInclusive_iff wellFormed).mp inclusive)
  · refine padded_lt lower (fun i lt exclusive => ?_) ?_
    · rcases cut_le_iff.mp (within i lt) with less | ⟨_, impossible⟩
      · exact less
      · simp [exclusive] at impossible
    · rw [startKeyInclusive_iff wellFormed] at inclusive
      push Not at inclusive
      obtain ⟨i, lt, exclusive⟩ := inclusive
      exact ⟨i, lt, by simpa using exclusive⟩

omit directed in
/-- On the other side a key is before the end key or at it. -/
theorem le_endPlace_of_matchesKey (found : v.matchesKey key) :
    PrefixLe v.ranges.length (place pos key) (v.endPlace pos) := by
  simp only [matchesKey, List.all_eq_true, List.mem_range] at found
  have within : ∀ i < v.ranges.length,
      below (pos i) (field key i) < upperCut (pos i) (v.upperBound i) := fun i lt =>
    (within_of_contains scanned wellFormed lt
      (contains_of_matchesElement scanned wellFormed lt (found i lt))).2
  have upper : ∀ i < v.ranges.length, place pos key i ≤ v.upperPlace pos i :=
    fun i lt => le_of_cut_le (within i lt).le
  by_cases inclusive : ∀ i < v.ranges.length, (v.upperBound i).inclusive
  · exact le_padded upper inclusive
  · push Not at inclusive
    obtain ⟨i, lt, exclusive⟩ := inclusive
    refine .inr (lt_padded upper (fun j inside exclusive => ?_) ⟨i, lt, by simpa using exclusive⟩)
    rcases cut_lt_iff.mp (within j inside) with less | ⟨_, _, impossible⟩
    · exact less
    · simp [exclusive] at impossible

omit wellFormed directed in
theorem matchesElement_congr {e e' : V} (same : pos i e = pos i e') :
    v.matchesElement e i (v.forward i) = v.matchesElement e' i (v.forward i) := by
  have alike : matchingLowElement (v.range i).intervals (!v.reverse i) e =
      matchingLowElement (v.range i).intervals (!v.reverse i) e' :=
    matchingLowElement_congr fun b => by
      simp only [Bool.not_not, scanned.lt_iff, scanned.gt_iff, same, and_self]
  rw [matchesElement, matchesElement, v.forward_eq, alike]

omit directed in
/-- An upper bound that its range takes in is inclusive. -/
theorem inclusive_of_matchesElement (lt : i < v.ranges.length)
    (found : v.matchesElement (v.upperBound i).bound.value i (v.forward i)) :
    (v.upperBound i).inclusive := by
  have within := (within_of_contains scanned wellFormed lt
    (contains_of_matchesElement scanned wellFormed lt found)).2
  rcases cut_lt_iff.mp within with less | ⟨_, _, inclusive⟩
  · exact absurd less (lt_irrefl _)
  · exact inclusive

/-- The end key matches if and only if every range takes in the upper bound of its last
interval. Then it is made of these bounds. -/
theorem matchesKey_endKey_iff : v.matchesKey v.endKey ↔
    ∀ i < v.ranges.length, v.matchesElement (v.upperBound i).bound.value i (v.forward i) := by
  simp only [matchesKey, List.all_eq_true, List.mem_range]
  have step : ∀ i < v.ranges.length, (∀ j < i, (v.upperBound j).inclusive) →
      field v.endKey i = (v.upperBound i).bound.value := fun i lt before => by
    rw [field_endKey wellFormed directed lt, padded_of_inclusive before]
  constructor
  · intro found i
    -- up to the first exclusive bound the end key has the bounds
    induction i using Nat.strong_induction_on with
    | _ i ih =>
      intro lt
      have before : ∀ j < i, (v.upperBound j).inclusive := fun j earlier =>
        inclusive_of_matchesElement scanned wellFormed (earlier.trans lt)
          (ih j earlier (earlier.trans lt))
      exact step i lt before ▸ found i lt
  · intro found i lt
    rw [step i lt fun j earlier => inclusive_of_matchesElement scanned wellFormed
      (earlier.trans lt) (found j (earlier.trans lt))]
    exact found i lt

omit [ElementValues V] scanned wellFormed directed in
theorem endKeyInclusive_iff :
    v.endKeyInclusive ↔ ∀ r ∈ v.ranges, ∀ first ∈ r.intervals.head?, first.upper.inclusive := by
  simp only [endKeyInclusive, List.all_eq_true, Option.all_eq_true, Option.mem_def]

/-- Keys that match are not behind the end just if that is included when it matches. -/
theorem toEnd_iff_endAgrees : (∀ key, v.matchesKey key → v.ToEnd key) ↔ v.EndAgrees := by
  rw [EndAgrees, ← matchesKey_endKey_iff scanned wellFormed directed, ← endKeyInclusive_iff]
  constructor
  · intro bounded found
    by_contra exclusive
    have before := bounded _ found
    rw [ToEnd, if_neg exclusive, prefixBefore_iff scanned] at before
    exact before.irrefl _ _
  · intro included key found
    have le := le_endPlace_of_matchesKey scanned wellFormed found
    rw [toEnd_iff scanned wellFormed directed]
    split_ifs with inclusive
    · exact le
    · rcases le with same | less
      · -- a key at the end key matches as that does
        have at_end := same.trans (place_endKey wellFormed directed).symm
        refine absurd (included ?_) inclusive
        simp only [matchesKey, List.all_eq_true, List.mem_range] at found ⊢
        exact fun i lt => matchesElement_congr scanned (at_end i lt) ▸ found i lt
      · exact less

/-! ### Keys between the two keys match -/

section Ends

variable (first : ∀ i e, pos i (v.scanFirst i) ≤ pos i e)
  (last : ∀ i e, pos i e ≤ pos i (v.scanLast i))

theorem startPlace_le (start : v.FromStart key) :
    PrefixLe v.ranges.length (v.startPlace pos) (place pos key) := by
  rw [fromStart_iff scanned wellFormed directed] at start
  split_ifs at start
  · exact start
  · exact .inr start

theorem le_endPlace (stop : v.ToEnd key) :
    PrefixLe v.ranges.length (place pos key) (v.endPlace pos) := by
  rw [toEnd_iff scanned wellFormed directed] at stop
  split_ifs at stop
  · exact stop
  · exact .inr stop

omit directed in
/-- The bounds of the equalities are the same from both sides. -/
theorem bounds_of_equalities (le : i ≤ v.equalities) (bounded : i ≤ v.ranges.length) :
    Agree i (v.lowerPlace pos) (v.upperPlace pos) ∧ (∀ j < i, (v.lowerBound j).inclusive) ∧
      ∀ j < i, (v.upperBound j).inclusive := by
  have equal : ∀ j < i, _ := fun j before => single_of_equality scanned wellFormed
    (before.trans_le bounded) (equality_of_lt (before.trans_le le))
  exact ⟨fun j before => (equal j before).2.1, fun j before => (equal j before).2.2.1,
    fun j before => (equal j before).2.2.2⟩

/-- Keys between the start and the end have the values of the equalities. -/
theorem agree_of_inInterval (between : v.InInterval key) (le : i ≤ v.equalities)
    (bounded : i ≤ v.ranges.length) : Agree i (v.lowerPlace pos) (place pos key) := by
  induction i with
  | zero => exact fun j before => absurd before (Nat.not_lt_zero j)
  | succ i ih =>
    have before := ih (Nat.le_of_succ_le le) (Nat.le_of_succ_le bounded)
    obtain ⟨same, lower, upper⟩ := bounds_of_equalities scanned wellFormed
      (Nat.le_of_succ_le le) (Nat.le_of_succ_le bounded)
    have at_i := (single_of_equality scanned wellFormed bounded (equality_of_lt le)).2.1
    have above := le_of_padded (startPlace_le scanned wellFormed directed between.1) bounded
      lower before
    have below := le_of_le_padded (le_endPlace scanned wellFormed directed between.2) bounded
      upper (same.symm.trans before)
    intro j inside
    rcases Nat.lt_succ_iff_lt_or_eq.mp inside with earlier | rfl
    · exact before j earlier
    · exact le_antisymm above (below.trans_eq at_i.symm)

include first last

/-- They match up to the first range that is not an equality. -/
theorem matchesElement_of_inInterval (single : v.isSingleInterval) (between : v.InInterval key)
    (le : i ≤ v.equalities) (lt : i < v.ranges.length) :
    v.matchesElement (field key i) i (v.forward i) := by
  have one : (v.range i).intervals.length = 1 := by
    rcases le.lt_or_eq with before | rfl
    · exact (single_of_equality scanned wellFormed lt (equality_of_lt before)).1
    · exact (single_of_isSingleInterval single lt).1
  obtain ⟨f, only, lower_eq, upper_eq⟩ := bounds_of_single one
  obtain ⟨same, lower, upper⟩ := bounds_of_equalities scanned wellFormed le lt.le
  have before := agree_of_inInterval scanned wellFormed directed between le lt.le
  have start := (fromStart_iff scanned wellFormed directed).mp between.1
  have stop := (toEnd_iff scanned wellFormed directed).mp between.2
  rw [matchesElement_iff_of_single scanned wellFormed lt one]
  constructor
  · have le := le_of_padded (startPlace_le scanned wellFormed directed between.1) lt lower before
    rcases le.lt_or_eq with less | equal
    · exact cut_le_iff.mpr (.inl less)
    · refine cut_le_iff.mpr (.inr ⟨equal, fun exclusive => ?_⟩)
      have excluded : (v.lowerBound i).inclusive = false := by simpa using exclusive
      have off : ¬ v.startKeyInclusive := fun all => by
        simp [(startKeyInclusive_iff wellFormed).mp all i lt] at excluded
      rw [if_neg off] at start
      exact absurd (lt_of_padded start (fun j _ => last j _) lt lower excluded before)
        (not_lt.mpr equal.ge)
  · have le := le_of_le_padded (le_endPlace scanned wellFormed directed between.2) lt upper
      (same.symm.trans before)
    rcases le.lt_or_eq with less | equal
    · exact cut_lt_iff.mpr (.inl less)
    · refine cut_lt_iff.mpr (.inr ⟨equal, rfl, ?_⟩)
      by_contra exclusive
      have excluded : (v.upperBound i).inclusive = false := by simpa using exclusive
      have off := not_endKeyInclusive lt only (upper_eq ▸ excluded)
      rw [off, if_neg Bool.false_ne_true] at stop
      exact absurd (lt_of_lt_padded stop (fun j _ => first j _) lt upper excluded
        (same.symm.trans before)) (not_lt.mpr equal.ge)

end Ends

/-- A key that exceeds the lower bound of the first non-equality comes after the start. -/
theorem fromStart_of_lt (lt : v.equalities < v.ranges.length)
    (same : Agree v.equalities (v.lowerPlace pos) (place pos key))
    (above : v.lowerPlace pos v.equalities < place pos key v.equalities) : v.FromStart key := by
  obtain ⟨_, lower, _⟩ := bounds_of_equalities scanned wellFormed le_rfl lt.le
  have bounds : ∀ j ≤ v.equalities, v.startPlace pos j = v.lowerPlace pos j :=
    fun j le => padded_of_inclusive fun k before => lower k (before.trans_le le)
  have less : PrefixLt v.ranges.length (v.startPlace pos) (place pos key) :=
    ⟨v.equalities, lt, fun j before => (bounds j before.le).trans (same j before),
      (bounds _ le_rfl).trans_lt above⟩
  rw [fromStart_iff scanned wellFormed directed]
  split_ifs
  · exact .inr less
  · exact less

theorem toEnd_of_lt (lt : v.equalities < v.ranges.length)
    (same : Agree v.equalities (v.lowerPlace pos) (place pos key))
    (below : place pos key v.equalities < v.upperPlace pos v.equalities) : v.ToEnd key := by
  obtain ⟨equal, _, upper⟩ := bounds_of_equalities scanned wellFormed le_rfl lt.le
  have bounds : ∀ j ≤ v.equalities, v.endPlace pos j = v.upperPlace pos j :=
    fun j le => padded_of_inclusive fun k before => upper k (before.trans_le le)
  have less : PrefixLt v.ranges.length (place pos key) (v.endPlace pos) := by
    refine ⟨v.equalities, lt, fun j before => ?_, below.trans_eq (bounds _ le_rfl).symm⟩
    rw [bounds j before.le, ← equal j before, same j before]
  rw [toEnd_iff scanned wellFormed directed]
  split_ifs
  · exact .inr less
  · exact less

/-- A value that a trailing range does not take in is in a key between the two keys, if the first
range that is not an equality has a value strictly between its bounds. -/
theorem trailingFull_of_between {w : V} (between : v.Between v.equalities w)
    (exact : ∀ key, v.InInterval key → v.matchesKey key) : v.TrailingFull := by
  intro i behind lt e
  have inside := behind.trans lt
  have at_j : ∀ j < v.ranges.length, field (v.keyWith w i e) j =
      if j = v.equalities then w else if j = i then e else (v.lowerBound j).bound.value :=
    fun j inside => by simp [field, keyWith, List.getD_eq_getElem?_getD, inside]
  have at_w : field (v.keyWith w i e) v.equalities = w := (at_j _ inside).trans (if_pos rfl)
  have same : Agree v.equalities (v.lowerPlace pos) (place pos (v.keyWith w i e)) :=
    fun j before => by
      rw [place, at_j j (before.trans inside), if_neg before.ne, if_neg (before.trans behind).ne]
      rfl
  have all := exact (v.keyWith w i e) ⟨fromStart_of_lt scanned wellFormed directed inside same (by
      rw [place, at_w]
      exact (scanned.lt_iff _ _ _).mp between.1),
    toEnd_of_lt scanned wellFormed directed inside same (by
      rw [place, at_w]
      exact (scanned.lt_iff _ _ _).mp between.2)⟩
  simp only [matchesKey, List.all_eq_true, List.mem_range] at all
  have here := all i lt
  rwa [at_j i lt, if_neg behind.ne', if_pos rfl] at here

end Scanned

/-- All keys that match are between the start and the end key, just if the upper bounds of the
first intervals are inclusive where the ranges take in those of the last ones. For a vector that is
taken for a single interval the keys between the two match if the ranges behind the first one that
is not an equality take in every value, and only then if a value lies strictly between the bounds
of that first one. -/
theorem bounds_exact {p : BSON.Value → Prop} [Fact (p ElementValues.minKey)]
    [Fact (p ElementValues.maxKey)] (ordered : ComparesOn BSON.Value.woCompare {v | p v})
    {v : FieldRangeVector { v // p v }} (wellFormed : v.WellFormed)
    (directed : v.direction = 1 ∨ v.direction = -1) :
    ((∀ key, v.matchesKey key → v.InInterval key) ↔ v.EndAgrees) ∧
      (v.isSingleInterval →
        (v.TrailingFull → ∀ key, v.InInterval key → v.matchesKey key) ∧
        ((∃ w, v.Between v.equalities w) → (∀ key, v.InInterval key → v.matchesKey key) →
          v.TrailingFull)) := by
  obtain ⟨R, order, rank, ranked⟩ := exists_ranked ordered
  have scanned : v.Scanned fun i => scanRank rank (v.reverse i) := scanned_of_ranked ranked
  refine ⟨?_, fun single => ⟨fun trailing key between => ?_, ?_⟩⟩
  · rw [← toEnd_iff_endAgrees scanned wellFormed directed]
    exact forall₂_congr fun key found =>
      and_iff_right (fromStart_of_matchesKey scanned wellFormed directed found)
  · simp only [matchesKey, List.all_eq_true, List.mem_range]
    intro i lt
    rcases Nat.lt_or_ge v.equalities i with behind | upto
    · exact trailing i behind lt (field key i)
    · exact matchesElement_of_inInterval scanned wellFormed directed (scanFirst_le ranked)
        (le_scanLast ranked) single between upto lt
  · rintro ⟨w, between⟩ exact
    exact trailingFull_of_between scanned wellFormed directed between exact

/-- A field that is 3 and a descending one from 9 down to 5, without 5. -/
def threeThenDown : FieldRangeVector RegularValue where
  keyPattern := [1, -1]
  direction := 1
  ranges := [.ofIntervals [.closed (regularInt 3) (regularInt 3)], .ofIntervals
    [⟨⟨⟨[], regularInt 9⟩, true⟩, ⟨⟨[], regularInt 5⟩, false⟩⟩]]

theorem bounds_exact_threeThenDown : threeThenDown.WellFormed ∧
    threeThenDown.isSingleInterval ∧
    (∀ key, threeThenDown.matchesKey key → threeThenDown.InInterval key) ∧
    ∀ key, threeThenDown.InInterval key → threeThenDown.matchesKey key := by
  have wellFormed : threeThenDown.WellFormed := by
    refine ⟨by decide, fun i lt => ?_⟩
    have cases : i = 0 ∨ i = 1 := by
      have : threeThenDown.ranges.length = 2 := rfl
      omega
    rcases cases with rfl | rfl <;> exact List.cons_ne_nil _ _
  have single : threeThenDown.isSingleInterval := by decide
  have trailing : threeThenDown.TrailingFull := fun i behind lt => by
    have one : threeThenDown.equalities = 1 := by decide
    have : threeThenDown.ranges.length = 2 := rfl
    omega
  -- the range of the second field does not take in its bound 5
  have agrees : threeThenDown.EndAgrees := fun taken =>
    absurd (taken 1 (by decide)) (by decide +kernel)
  obtain ⟨bounded, exact⟩ := bounds_exact BSON.regular_ordered wellFormed (.inl rfl)
  exact ⟨wellFormed, single, bounded.mpr agrees, (exact single).1 trailing⟩

/-- From 1 up to 2, without 2, or between 3 and 4. -/
def twoSteps : FieldRangeVector BSON.Value where
  keyPattern := [1]
  direction := 1
  ranges := [.ofIntervals [⟨⟨⟨[], .numberInt 1⟩, true⟩, ⟨⟨[], .numberInt 2⟩, false⟩⟩,
    ⟨⟨⟨[], .numberInt 3⟩, true⟩, ⟨⟨[], .numberInt 4⟩, true⟩⟩]]

/-- Between 1 and 5, and in the second field all values above `MinKey`. -/
def thenAboveMinKey : FieldRangeVector BSON.Value where
  keyPattern := [1, 1]
  direction := 1
  ranges := [.ofIntervals [⟨⟨⟨[], .numberInt 1⟩, true⟩, ⟨⟨[], .numberInt 5⟩, true⟩⟩],
    .ofIntervals [⟨⟨⟨[], .minKey⟩, false⟩, ⟨⟨[], .maxKey⟩, true⟩⟩]]

/-- The key 4 matches and is at the end key, which is taken to be excluded. The key 3 with `MinKey`
is between the start and the end of what is taken for a single interval, but does not match. -/
theorem bounds_fail :
    (twoSteps.WellFormed ∧ twoSteps.matchesKey [.numberInt 4] ∧
      ¬ twoSteps.InInterval [.numberInt 4]) ∧
    thenAboveMinKey.WellFormed ∧ thenAboveMinKey.isSingleInterval ∧
      thenAboveMinKey.InInterval [.numberInt 3, .minKey] ∧
      thenAboveMinKey.matchesKey [.numberInt 3, .minKey] = false := by
  refine ⟨⟨⟨by decide, by decide⟩, ?_⟩, ⟨by decide, by decide⟩, ?_⟩
  · decide +kernel
  · decide +kernel

end FieldRangeVector

end TokuMX.Query
