import Mathlib.Data.List.Chain
import Mathlib.Data.Prod.Lex
import TokuMX.BSON.RegularValues
import TokuMX.Query.FieldRange

/-!
The algebra of field ranges.

A bound is a cut of the ordered values, just below or just above one, and an interval is a
half-open range of cuts. Read this way the operations on ranges are the merges of
`TokuMX.Lib.Intervals`, and a value lies in an interval when the cut just below it does.
-/

namespace TokuMX.Query

open TokuMX.Lib ElementValues Element RangeUnionBuilder

/-! ### Cuts -/

section Cuts

variable {V R : Type}

/-- Where a lower bound cuts the values: below an inclusive bound, above an exclusive one. -/
def lowerCut (rank : V → R) (b : FieldBound V) : R ×ₗ Bool :=
  toLex (rank b.bound.value, !b.inclusive)

/-- Where an upper bound cuts the values: above an inclusive bound, below an exclusive one. -/
def upperCut (rank : V → R) (b : FieldBound V) : R ×ₗ Bool :=
  toLex (rank b.bound.value, b.inclusive)

def cuts (rank : V → R) (i : FieldInterval V) : (R ×ₗ Bool) × (R ×ₗ Bool) :=
  (lowerCut rank i.lower, upperCut rank i.upper)

/-- The cut just below a value. -/
def below (rank : V → R) (v : V) : R ×ₗ Bool := toLex (rank v, false)

/-- The cut just above a value. -/
def above (rank : V → R) (v : V) : R ×ₗ Bool := toLex (rank v, true)

@[simp] theorem upperCut_flipInclusive (rank : V → R) (b : FieldBound V) :
    upperCut rank b.flipInclusive = lowerCut rank b := rfl

@[simp] theorem lowerCut_flipInclusive (rank : V → R) (b : FieldBound V) :
    lowerCut rank b.flipInclusive = upperCut rank b := by
  simp [lowerCut, upperCut, FieldBound.flipInclusive]

theorem cut_le_iff [LinearOrder R] {x y : R} {p q : Bool} :
    toLex (x, p) ≤ toLex (y, q) ↔ x < y ∨ x = y ∧ (p = true → q = true) := by
  rw [Prod.Lex.le_iff]
  simp only [ofLex_toLex, Bool.le_iff_imp]

theorem cut_lt_iff [LinearOrder R] {x y : R} {p q : Bool} :
    toLex (x, p) < toLex (y, q) ↔ x < y ∨ x = y ∧ p = false ∧ q = true := by
  rw [Prod.Lex.lt_iff]
  simp only [ofLex_toLex, Bool.lt_iff]

theorem ends_before_iff [LinearOrder R] {rank : V → R} {i j : FieldInterval V} :
    (cuts rank i).2 ≤ (cuts rank j).1 ↔ rank i.upper.bound.value < rank j.lower.bound.value ∨
      rank i.upper.bound.value = rank j.lower.bound.value ∧
        (i.upper.inclusive = true → j.lower.inclusive = false) := by
  simp only [cuts, lowerCut, upperCut, cut_le_iff, Bool.not_eq_true']

end Cuts

variable {V : Type} [ElementValues V] {R : Type} [LinearOrder R]

/-- The values are ordered: `woCompare` compares ranks, and `MinKey` and `MaxKey` are the ends. -/
structure Ranked (rank : V → R) : Prop where
  lt_iff : ∀ a b, woCompareValues a b < 0 ↔ rank a < rank b
  gt_iff : ∀ a b, 0 < woCompareValues a b ↔ rank b < rank a
  minKey_le : ∀ v, rank ElementValues.minKey ≤ rank v
  le_maxKey : ∀ v, rank v ≤ rank ElementValues.maxKey

/-- The values of a set that `woCompare` orders have ranks. -/
theorem exists_ranked {p : BSON.Value → Prop} [Fact (p ElementValues.minKey)]
    [Fact (p ElementValues.maxKey)] (ordered : ComparesOn BSON.Value.woCompare {v | p v}) :
    ∃ (R : Type) (_ : LinearOrder R) (rank : { v // p v } → R), Ranked rank := by
  obtain ⟨R, order, rank, signs⟩ := ordered.exists_rank
  refine ⟨R, order, rank, fun a b => (signs a b).lt_iff, fun a b => (signs a b).gt_iff,
    fun v => ?_, fun v => ?_⟩
  · rw [← not_lt, ← (signs v (minKey : { v // p v })).lt_iff, not_lt]
    exact BSON.woCompare_minKey v.val
  · rw [← not_lt, ← (signs v (maxKey : { v // p v })).gt_iff, not_lt]
    exact BSON.woCompare_maxKey v.val

theorem Ranked.eq_iff {rank : V → R} (ranked : Ranked rank) (a b : V) :
    woCompareValues a b = 0 ↔ rank a = rank b := by
  have lt := ranked.lt_iff a b
  have gt := ranked.gt_iff a b
  constructor
  · intro same
    exact le_antisymm (not_lt.mp fun above => by have := gt.mpr above; omega)
      (not_lt.mp fun below => by have := lt.mpr below; omega)
  · intro same
    have not_lt : ¬ woCompareValues a b < 0 := fun below => (lt.mp below).ne same
    have not_gt : ¬ 0 < woCompareValues a b := fun above => (gt.mp above).ne' same
    omega

section Ranked

variable {rank : V → R} (ranked : Ranked rank)
include ranked

theorem contains_iff (i : FieldInterval V) (v : V) :
    i.Contains v ↔ InRange (cuts rank i) (below rank v) := by
  simp only [FieldInterval.Contains, InRange, cuts, lowerCut, upperCut, below, cut_le_iff,
    cut_lt_iff, ranked.lt_iff, ranked.eq_iff]
  simp

theorem exceeds_iff (i : FieldInterval V) (v : V) :
    i.Exceeds v ↔ InRange (cuts rank i) (above rank v) := by
  have le : woCompareValues i.lower.bound.value v ≤ 0 ↔ rank i.lower.bound.value ≤ rank v := by
    rw [← not_lt, ranked.gt_iff, not_lt]
  simp only [FieldInterval.Exceeds, InRange, cuts, lowerCut, upperCut, above, cut_le_iff,
    cut_lt_iff, ranked.lt_iff, le]
  simp [le_iff_lt_or_eq]

theorem isStrictValid_iff (i : FieldInterval V) :
    i.isStrictValid ↔ (cuts rank i).1 < (cuts rank i).2 := by
  simp only [FieldInterval.isStrictValid, woCompare_false, cuts, lowerCut, upperCut,
    cut_lt_iff, ranked.lt_iff, ranked.eq_iff, decide_eq_true_eq]
  simp

theorem before_iff (a b : FieldInterval V) :
    a.Before b ↔ (cuts rank a).2 ≤ (cuts rank b).1 := by
  simp only [FieldInterval.Before, cuts, lowerCut, upperCut, cut_le_iff, ranked.lt_iff,
    ranked.eq_iff]
  simp

theorem wellFormed_iff (r : FieldRange V) :
    r.WellFormed ↔ Ascending (r.intervals.map (cuts rank)) := by
  constructor
  · rintro ⟨sorted, valid⟩
    refine ⟨?_, List.pairwise_map.mpr (sorted.imp fun {a b} => (before_iff ranked a b).mp)⟩
    simp only [List.forall_mem_map]
    exact fun i mem => (isStrictValid_iff ranked i).mp (valid i mem)
  · rintro ⟨proper, sorted⟩
    refine ⟨(List.pairwise_map.mp sorted).imp fun {a b} => (before_iff ranked a b).mpr, ?_⟩
    simp only [List.forall_mem_map] at proper
    exact fun i mem => (isStrictValid_iff ranked i).mpr (proper i mem)

theorem range_contains_iff (r : FieldRange V) (v : V) :
    r.Contains v ↔ Covers (r.intervals.map (cuts rank)) (below rank v) := by
  simp [FieldRange.Contains, Covers, contains_iff ranked]

theorem range_exceeds_iff (r : FieldRange V) (v : V) :
    r.Exceeds v ↔ Covers (r.intervals.map (cuts rank)) (above rank v) := by
  simp [FieldRange.Exceeds, Covers, exceeds_iff ranked]

/-! ### Intersection -/

theorem lowerCut_maxLowerBound (a b : FieldBound V) :
    lowerCut rank (maxLowerBound a b) = max (lowerCut rank a) (lowerCut rank b) := by
  simp only [maxLowerBound, woCompare_false, ranked.lt_iff, ranked.eq_iff]
  split_ifs with later
  · refine (max_eq_right ?_).symm
    rw [lowerCut, lowerCut, cut_le_iff]
    grind
  · refine (max_eq_left ?_).symm
    rw [lowerCut, lowerCut, cut_le_iff]
    grind

theorem upperCut_minUpperBound (a b : FieldBound V) :
    upperCut rank (minUpperBound a b) = min (upperCut rank a) (upperCut rank b) := by
  simp only [minUpperBound, woCompare_false, gt_iff_lt, ranked.gt_iff, ranked.eq_iff]
  split_ifs with earlier
  · refine (min_eq_right ?_).symm
    rw [upperCut, upperCut, cut_le_iff]
    grind
  · refine (min_eq_left ?_).symm
    rw [upperCut, upperCut, cut_le_iff]
    grind

theorem cuts_fieldIntervalOverlap (i j : FieldInterval V) :
    (fieldIntervalOverlap i j).toList.map (cuts rank) = overlap (cuts rank i) (cuts rank j) := by
  have same : cuts rank ⟨maxLowerBound i.lower j.lower, minUpperBound i.upper j.upper⟩ =
      (max (cuts rank i).1 (cuts rank j).1, min (cuts rank i).2 (cuts rank j).2) := by
    simp only [cuts, lowerCut_maxLowerBound ranked, upperCut_minUpperBound ranked]
  have valid := isStrictValid_iff ranked
    ⟨maxLowerBound i.lower j.lower, minUpperBound i.upper j.upper⟩
  rw [same] at valid
  rw [fieldIntervalOverlap, overlap]
  split_ifs with code cut cut
  · rw [Option.toList_some, List.map_singleton, same]
  · exact absurd (valid.mp code) cut
  · exact absurd (valid.mpr cut) code
  · rfl

/-- The interval that is dropped ends first. The field names in `operator==` only matter
between bounds that are the same cut. -/
theorem intersectLoop_advances (i j : FieldInterval V) :
    if i.upper.equals (minUpperBound i.upper j.upper) then (cuts rank i).2 ≤ (cuts rank j).2
    else (cuts rank j).2 ≤ (cuts rank i).2 := by
  have least := upperCut_minUpperBound ranked i.upper j.upper
  split_ifs with same
  · have cut : upperCut rank i.upper = upperCut rank (minUpperBound i.upper j.upper) := by
      simp only [FieldBound.equals, decide_eq_true_eq] at same
      have value := (ranked.eq_iff _ _).mp (woCompareValues_of_woCompare same.1)
      rw [upperCut, upperCut, value, same.2]
    rw [cuts, cuts, cut, least]
    exact min_le_right ..
  · have self : i.upper.equals i.upper := by
      have value := (ranked.eq_iff i.upper.bound.value i.upper.bound.value).mpr rfl
      simp [FieldBound.equals, woCompare_self value]
    have other : minUpperBound i.upper j.upper = j.upper := by
      rw [minUpperBound] at same ⊢
      split_ifs at same ⊢
      · rfl
      · exact absurd self same
    rw [other] at least
    rw [cuts, cuts, least]
    exact min_le_left ..

open FieldRange

theorem inter_intersectLoop (is js : List (FieldInterval V)) :
    Inter (is.map (cuts rank)) (js.map (cuts rank)) ((intersectLoop is js).map (cuts rank)) := by
  fun_induction intersectLoop is js with
  | case1 js => exact .nil_left _
  | case2 is => exact .nil_right _
  | case3 i is j js same ih =>
    have first := intersectLoop_advances ranked i j
    rw [if_pos same] at first
    rw [List.map_append, cuts_fieldIntervalOverlap ranked]
    exact .left first ih
  | case4 i is j js other ih =>
    have first := intersectLoop_advances ranked i j
    rw [if_neg other] at first
    rw [List.map_append, cuts_fieldIntervalOverlap ranked]
    exact .right first ih

/-! ### Union -/

theorem disjoint_iff (tail next : FieldInterval V) :
    disjoint tail next ↔ (cuts rank tail).2 < (cuts rank next).1 := by
  simp only [disjoint, woCompare_false, cuts, lowerCut, upperCut,
    cut_lt_iff, ranked.lt_iff, ranked.eq_iff, decide_eq_true_eq]
  simp

theorem cuts_handleExtend (tail next : FieldInterval V) :
    cuts rank (handleExtend tail next) =
      ((cuts rank tail).1, max (cuts rank tail).2 (cuts rank next).2) := by
  simp only [handleExtend, woCompare_false, ranked.lt_iff, ranked.eq_iff]
  split_ifs with longer
  · have le : upperCut rank tail.upper ≤ upperCut rank next.upper := by
      rw [upperCut, upperCut, cut_le_iff]
      grind
    simp only [cuts, max_eq_right le]
  · have le : upperCut rank next.upper ≤ upperCut rank tail.upper := by
      rw [upperCut, upperCut, cut_le_iff]
      grind
    simp only [cuts, max_eq_left le]

/-- The builder is `coalesce`, with what it finished before in front. -/
theorem cuts_done_foldl (next : List (FieldInterval V)) (tail : FieldInterval V)
    (out : List (FieldInterval V)) :
    (next.foldl nextOrderedInterval ⟨some tail, out⟩).done.map (cuts rank) =
      out.map (cuts rank) ++ coalesce (cuts rank tail) (next.map (cuts rank)) := by
  induction next generalizing tail out with
  | nil => simp [done, coalesce]
  | cons n next ih =>
    rw [List.foldl_cons, List.map_cons, coalesce, nextOrderedInterval]
    dsimp only
    split_ifs with code cut cut
    · rw [ih, List.map_append, List.map_singleton, List.append_assoc, List.singleton_append]
    · exact absurd ((disjoint_iff ranked tail n).mp code) cut
    · exact absurd ((disjoint_iff ranked tail n).mpr cut) code
    · rw [ih, cuts_handleExtend ranked]

/-- The first of the two intervals is the one that the loop takes. -/
def FieldInterval.TakenFirst (i j : FieldInterval V) : Prop :=
  woCompareValues i.lower.bound.value j.lower.bound.value < 0 ∨
    woCompareValues i.lower.bound.value j.lower.bound.value = 0 ∧ i.lower.inclusive

omit [LinearOrder R] ranked in
/-- The intervals of both lists, in the order in which the builder gets them. -/
theorem unionLoop_eq {P : FieldInterval V → FieldInterval V → Prop}
    (trans : ∀ {a b c}, P a b → P b c → P a c) (b : RangeUnionBuilder V)
    (is js : List (FieldInterval V)) (left : is.Pairwise P) (right : js.Pairwise P)
    (taken : ∀ i ∈ is, ∀ j ∈ js, (i.TakenFirst j → P i j) ∧ (¬ i.TakenFirst j → P j i)) :
    ∃ merged : List (FieldInterval V), merged.Perm (is ++ js) ∧ merged.Pairwise P ∧
      unionLoop b is js = merged.foldl .nextOrderedInterval b := by
  fun_induction unionLoop b is js with
  | case1 b js => exact ⟨js, .refl _, right, rfl⟩
  | case2 b is => exact ⟨is, by simp, left, rfl⟩
  | case3 b i is j js cmp first ih =>
    obtain ⟨merged, perm, sorted, same⟩ := ih left.tail right
      fun k at_is => taken k (List.mem_cons_of_mem i at_is)
    refine ⟨i :: merged, perm.cons i, List.pairwise_cons.mpr ⟨fun k mem => ?_, sorted⟩, same⟩
    have before : P i j := by
      refine (taken i List.mem_cons_self j List.mem_cons_self).1 ?_
      simpa only [cmp, woCompare_false, FieldInterval.TakenFirst] using first
    rcases List.mem_append.mp (perm.mem_iff.mp mem) with at_is | at_js
    · exact (List.pairwise_cons.mp left).1 k at_is
    · rcases List.mem_cons.mp at_js with rfl | at_js
      · exact before
      · exact trans before ((List.pairwise_cons.mp right).1 k at_js)
  | case4 b i is j js cmp other ih =>
    obtain ⟨merged, perm, sorted, same⟩ := ih left right.tail
      fun k at_is l at_js => taken k at_is l (List.mem_cons_of_mem j at_js)
    refine ⟨j :: merged, (perm.cons j).trans List.perm_middle.symm,
      List.pairwise_cons.mpr ⟨fun k mem => ?_, sorted⟩, same⟩
    have before : P j i := by
      refine (taken i List.mem_cons_self j List.mem_cons_self).2 ?_
      simpa only [cmp, woCompare_false, FieldInterval.TakenFirst] using other
    rcases List.mem_append.mp (perm.mem_iff.mp mem) with at_is | at_js
    · rcases List.mem_cons.mp at_is with rfl | at_is
      · exact before
      · exact trans before ((List.pairwise_cons.mp left).1 k at_is)
    · exact (List.pairwise_cons.mp right).1 k at_js

/-- What is taken first does not start behind the other. -/
theorem le_of_takenFirst {i j : FieldInterval V} :
    (i.TakenFirst j → (cuts rank i).1 ≤ (cuts rank j).1) ∧
      (¬ i.TakenFirst j → (cuts rank j).1 ≤ (cuts rank i).1) := by
  simp only [FieldInterval.TakenFirst, ranked.lt_iff, ranked.eq_iff, cuts, lowerCut, cut_le_iff]
  grind

/-! ### Difference -/

theorem starts_first_iff (i j : FieldInterval V) :
    (i.lower.bound.woCompare j.lower.bound false < 0 ∨
      i.lower.bound.woCompare j.lower.bound false = 0 ∧ i.lower.inclusive ∧ ¬ j.lower.inclusive) ↔
      (cuts rank i).1 < (cuts rank j).1 := by
  simp only [woCompare_false, ranked.lt_iff, ranked.eq_iff, cuts, lowerCut, cut_lt_iff]
  simp

theorem ends_inside_iff (i j : FieldInterval V) :
    (i.upper.bound.woCompare j.upper.bound false < 0 ∨
      i.upper.bound.woCompare j.upper.bound false = 0 ∧
        (¬ i.upper.inclusive ∨ j.upper.inclusive)) ↔ (cuts rank i).2 ≤ (cuts rank j).2 := by
  simp only [woCompare_false, ranked.lt_iff, ranked.eq_iff, cuts, upperCut, cut_le_iff,
    imp_iff_not_or]

theorem starts_past_iff (i j : FieldInterval V) :
    (i.lower.bound.woCompare j.upper.bound false > 0 ∨
      i.lower.bound.woCompare j.upper.bound false = 0 ∧
        (¬ i.lower.inclusive ∨ ¬ j.upper.inclusive)) ↔ (cuts rank j).2 ≤ (cuts rank i).1 := by
  simp only [woCompare_false, gt_iff_lt, ranked.gt_iff, ranked.eq_iff, cuts, upperCut,
    lowerCut, cut_le_iff]
  grind

theorem cuts_subtractLoop (is js : List (FieldInterval V))
    (right : Ascending (js.map (cuts rank))) :
    (subtractLoop is js).map (cuts rank) = diff (is.map (cuts rank)) (js.map (cuts rank)) := by
  have meets : ∀ {i j : FieldInterval V}, ¬ i.upper.bound.woCompare j.lower.bound false < 0 →
      ¬ i.upper.bound.woCompare j.lower.bound false = 0 → ¬ (cuts rank i).2 ≤ (cuts rank j).1 := by
    intro i j notGap notTouch
    simp only [woCompare_false, ranked.lt_iff, ranked.eq_iff] at notGap notTouch
    rw [ends_before_iff]
    grind
  fun_induction subtractLoop is js with
  | case1 | case2 => simp
  | case3 i is j js cmp first cmp2 gap ih =>
    have apart : (cuts rank i).2 ≤ (cuts rank j).1 := by
      simp only [cmp2, woCompare_false, ranked.lt_iff] at gap
      exact ends_before_iff.mpr (.inl gap)
    rw [List.map_cons, ih right, List.map_cons, List.map_cons, diff,
      if_pos ((starts_first_iff ranked i j).mp first), if_pos apart]
  | case4 i is j js cmp first cmp2 notGap touch ih =>
    simp only [cmp2, woCompare_false, ranked.eq_iff] at touch
    have proper : (cuts rank j).1 < (cuts rank j).2 := (Ascending.cons_iff.mp right).1
    rw [List.map_cons, ih right, List.map_cons, List.map_cons, diff,
      if_pos ((starts_first_iff ranked i j).mp first)]
    simp only [cuts, lowerCut, upperCut, cut_le_iff, cut_lt_iff] at proper ⊢
    split_ifs with both apart inside apart
    · grind
    · simp [touch, both.2]
    · grind
    · rfl
    · grind
    · grind
  | case5 i is j js cmp cmp3 first cmp2 notGap notTouch inside ih =>
    rw [List.map_cons, ih right, List.map_cons, List.map_cons, diff,
      if_pos ((starts_first_iff ranked i j).mp first), if_neg (meets notGap notTouch),
      if_pos ((ends_inside_iff ranked i j).mp inside)]
    simp [cuts]
  | case6 i is j js cmp cmp3 first cmp2 notGap notTouch outside ih =>
    rw [List.map_cons, ih (Ascending.tail right), List.map_cons, List.map_cons, List.map_cons,
      diff, if_pos ((starts_first_iff ranked i j).mp first), if_neg (meets notGap notTouch),
      if_neg (mt (ends_inside_iff ranked i j).mpr outside)]
    simp [cuts]
  | case7 i is j js cmp later cmp2 past ih =>
    rw [ih (Ascending.tail right), List.map_cons, List.map_cons, diff,
      if_neg (mt (starts_first_iff ranked i j).mpr later),
      if_pos ((starts_past_iff ranked i j).mp past)]
  | case8 i is j js cmp cmp3 later cmp2 meets inside ih =>
    rw [ih right, List.map_cons, List.map_cons, diff,
      if_neg (mt (starts_first_iff ranked i j).mpr later),
      if_neg (mt (starts_past_iff ranked i j).mpr meets),
      if_pos ((ends_inside_iff ranked i j).mp inside)]
  | case9 i is j js cmp cmp3 later cmp2 meets outside ih =>
    rw [ih (Ascending.tail right), List.map_cons, List.map_cons, List.map_cons, diff,
      if_neg (mt (starts_first_iff ranked i j).mpr later),
      if_neg (mt (starts_past_iff ranked i j).mpr meets),
      if_neg (mt (ends_inside_iff ranked i j).mpr outside)]
    simp [cuts]

/-! ### The operations on ranges -/

variable {A B : FieldRange V}

theorem subtract_wellFormed (left : A.WellFormed) (right : B.WellFormed) :
    (A.subtract B).WellFormed := by
  rw [wellFormed_iff ranked] at left right ⊢
  rw [subtract, finishOperation, cuts_subtractLoop ranked _ _ right]
  exact ascending_diff left right

theorem contains_subtract (left : A.WellFormed) (right : B.WellFormed) (v : V) :
    (A.subtract B).Contains v ↔ A.Contains v ∧ ¬ B.Contains v := by
  rw [wellFormed_iff ranked] at left right
  simp only [range_contains_iff ranked]
  rw [subtract, finishOperation, cuts_subtractLoop ranked _ _ right]
  exact covers_diff left right

/-- `operator<=` compares the ranges as sets of cuts: besides the values it looks at the room
just above each of them. -/
theorem subsetOf_iff (left : A.WellFormed) (right : B.WellFormed) :
    A.subsetOf B ↔ (∀ v, A.Contains v → B.Contains v) ∧ ∀ v, A.Exceeds v → B.Exceeds v := by
  rw [wellFormed_iff ranked] at left right
  have rest := cuts_subtractLoop ranked A.intervals B.intervals right
  have none : A.subsetOf B ↔ subtractLoop A.intervals B.intervals = [] := by
    simp [subsetOf, subtract, finishOperation, empty]
  simp only [none, range_contains_iff ranked, range_exceeds_iff ranked]
  constructor
  · intro empty
    rw [empty, List.map_nil, eq_comm, diff_eq_nil_iff left right] at rest
    exact ⟨fun v => rest (below rank v), fun v => rest (above rank v)⟩
  · rintro ⟨values, room⟩
    -- An interval that is left over would begin just below or just above a value.
    rw [List.eq_nil_iff_forall_not_mem]
    intro i mem
    have at_diff : cuts rank i ∈ diff (A.intervals.map (cuts rank)) (B.intervals.map (cuts rank)) :=
      rest ▸ List.mem_map_of_mem mem
    have proper := (ascending_diff left right).proper _ at_diff
    obtain ⟨inside, outside⟩ := (covers_diff left right).mp ⟨_, at_diff, le_rfl, proper⟩
    cases inclusive : i.lower.inclusive with
    | true =>
      have start : (cuts rank i).1 = below rank i.lower.bound.value := by
        simp [cuts, lowerCut, below, inclusive]
      rw [start] at inside outside
      exact outside (values _ inside)
    | false =>
      have start : (cuts rank i).1 = above rank i.lower.bound.value := by
        simp [cuts, lowerCut, above, inclusive]
      rw [start] at inside outside
      exact outside (room _ inside)

/-- The union joins the intervals of both ranges, in the order in which the loop takes them. -/
theorem cuts_union_eq {P : FieldInterval V → FieldInterval V → Prop}
    (trans : ∀ {a b c}, P a b → P b c → P a c) (left : A.intervals.Pairwise P)
    (right : B.intervals.Pairwise P) (taken : ∀ i ∈ A.intervals, ∀ j ∈ B.intervals,
      (i.TakenFirst j → P i j) ∧ (¬ i.TakenFirst j → P j i)) :
    ∃ merged : List (FieldInterval V), merged.Perm (A.intervals ++ B.intervals) ∧
      merged.Pairwise P ∧
      (A.union B).intervals.map (cuts rank) = coalesceAll (merged.map (cuts rank)) := by
  obtain ⟨merged, perm, sorted, same⟩ :=
    unionLoop_eq (P := P) trans ⟨none, []⟩ A.intervals B.intervals left right taken
  refine ⟨merged, perm, sorted, ?_⟩
  rw [union, finishOperation, same]
  cases merged with
  | nil => rfl
  | cons first rest => exact cuts_done_foldl ranked rest first []

/-- The union as cuts. -/
theorem cuts_union (left : A.WellFormed) (right : B.WellFormed) :
    Ascending ((A.union B).intervals.map (cuts rank)) ∧
      ∀ p, Covers ((A.union B).intervals.map (cuts rank)) p ↔
        Covers (A.intervals.map (cuts rank)) p ∨ Covers (B.intervals.map (cuts rank)) p := by
  rw [wellFormed_iff ranked] at left right
  have by_lower : ∀ {l : List (FieldInterval V)}, Ascending (l.map (cuts rank)) →
      l.Pairwise fun a b => (cuts rank a).1 ≤ (cuts rank b).1 := by
    intro l h
    refine (List.pairwise_map.mp h.sorted).imp_of_mem fun {a b} at_a _ le => ?_
    exact (h.proper _ (List.mem_map_of_mem at_a)).le.trans le
  obtain ⟨merged, perm, sorted, same⟩ := cuts_union_eq ranked
    (P := fun a b => (cuts rank a).1 ≤ (cuts rank b).1) le_trans (by_lower left) (by_lower right)
    fun _ _ _ _ => le_of_takenFirst ranked
  have proper : ∀ r ∈ merged.map (cuts rank), r.1 < r.2 := by
    intro r mem
    rw [(perm.map (cuts rank)).mem_iff, List.map_append] at mem
    rcases List.mem_append.mp mem with mem | mem
    · exact left.proper r mem
    · exact right.proper r mem
  have by_cut : (merged.map (cuts rank)).Pairwise fun a b => a.1 ≤ b.1 :=
    List.pairwise_map.mpr sorted
  rw [same]
  refine ⟨ascending_coalesceAll proper by_cut, fun p => ?_⟩
  rw [covers_coalesceAll proper by_cut, ← covers_append, ← List.map_append]
  simp only [Covers, (perm.map (cuts rank)).mem_iff]

/-- The intersection as cuts, where `universal` does not cut it short. -/
theorem cuts_intersect (left : A.WellFormed) (right : B.WellFormed) (restricted : ¬ A.universal) :
    Ascending ((A.intersect B true).intervals.map (cuts rank)) ∧
      ∀ p, Covers ((A.intersect B true).intervals.map (cuts rank)) p ↔
        Covers (A.intervals.map (cuts rank)) p ∧ Covers (B.intervals.map (cuts rank)) p := by
  rw [wellFormed_iff ranked] at left right
  have loop : (A.intersect B true).intervals = intersectLoop A.intervals B.intervals := by
    rw [intersect, if_neg restricted]
    rfl
  rw [loop]
  have merge := inter_intersectLoop ranked A.intervals B.intervals
  exact ⟨merge.ascending left right, fun p => merge.covers left right⟩

/-! ### `universal` -/

end Ranked

/-- The range begins at `MinKey` and ends at `MaxKey`, inclusively or not. -/
def FieldRange.ReachesEnds (r : FieldRange V) : Prop :=
  ∃ first ∈ r.intervals.head?, ∃ last ∈ r.intervals.getLast?,
    woCompareValues ElementValues.minKey first.lower.bound.value = 0 ∧
      woCompareValues ElementValues.maxKey last.upper.bound.value = 0

/-- The outermost bounds are inclusive. -/
def FieldRange.EndsIncluded (r : FieldRange V) : Prop :=
  ∃ first ∈ r.intervals.head?, ∃ last ∈ r.intervals.getLast?,
    first.lower.inclusive ∧ last.upper.inclusive

/-- What `universal` looks for between neighbours: one of the two bounds is inclusive, and the
first is not below the second, types, field names and values compared in this order. -/
def FieldInterval.SeenJoined (prev curr : FieldInterval V) : Prop :=
  (prev.upper.inclusive ∨ curr.lower.inclusive) ∧
    ¬ prev.upper.bound.woCompare curr.lower.bound true < 0

/-- No value lies between the two intervals. -/
def FieldInterval.Joined (prev curr : FieldInterval V) : Prop :=
  ∀ v, ¬ ((woCompareValues prev.upper.bound.value v < 0 ∨
      woCompareValues prev.upper.bound.value v = 0 ∧ ¬ prev.upper.inclusive) ∧
    (woCompareValues v curr.lower.bound.value < 0 ∨
      woCompareValues v curr.lower.bound.value = 0 ∧ ¬ curr.lower.inclusive))

theorem FieldRange.adjoining_iff (l : List (FieldInterval V)) :
    adjoining l ↔ l.IsChain FieldInterval.SeenJoined := by
  induction l with
  | nil => simp [adjoining]
  | cons prev rest ih =>
    cases rest with
    | nil => simp [adjoining]
    | cons curr rest =>
      simp only [adjoining, Bool.and_eq_true, ih, List.isChain_cons_cons, FieldInterval.SeenJoined]
      simp

theorem FieldRange.universal_iff (r : FieldRange V) :
    r.universal ↔ r.ReachesEnds ∧ r.intervals.IsChain FieldInterval.SeenJoined := by
  rw [← adjoining_iff, universal, ReachesEnds]
  cases r.intervals.head? <;> cases r.intervals.getLast? <;> simp [minKeyElement, maxKeyElement]

section Ranked

variable {rank : V → R} (ranked : Ranked rank)
include ranked

theorem joined_iff (prev curr : FieldInterval V) :
    prev.Joined curr ↔ ∀ v, ¬ InRange ((cuts rank prev).2, (cuts rank curr).1) (below rank v) := by
  simp only [FieldInterval.Joined, InRange, cuts, lowerCut, upperCut, below, cut_le_iff,
    cut_lt_iff, ranked.lt_iff, ranked.eq_iff]
  simp

theorem starts_at_minKey_iff (i : FieldInterval V) :
    (∀ v, (cuts rank i).1 ≤ below rank v) ↔
      woCompareValues minKey i.lower.bound.value = 0 ∧ i.lower.inclusive := by
  simp only [ranked.eq_iff, cuts, lowerCut, below, cut_le_iff]
  constructor
  · intro all
    rcases all minKey with lt | ⟨same, inclusive⟩
    · exact absurd lt (not_lt.mpr (ranked.minKey_le _))
    · exact ⟨same.symm, by simpa using inclusive⟩
  · rintro ⟨same, inclusive⟩ v
    rcases (ranked.minKey_le v).lt_or_eq with lt | eq
    · exact .inl (same ▸ lt)
    · exact .inr ⟨same ▸ eq, by simp [inclusive]⟩

theorem ends_at_maxKey_iff (i : FieldInterval V) :
    (∀ v, below rank v < (cuts rank i).2) ↔
      woCompareValues maxKey i.upper.bound.value = 0 ∧ i.upper.inclusive := by
  simp only [ranked.eq_iff, cuts, upperCut, below, cut_lt_iff]
  constructor
  · intro all
    rcases all maxKey with lt | ⟨same, -, inclusive⟩
    · exact absurd lt (not_lt.mpr (ranked.le_maxKey _))
    · exact ⟨same, inclusive⟩
  · rintro ⟨same, inclusive⟩ v
    rcases (ranked.le_maxKey v).lt_or_eq with lt | eq
    · exact .inl (same ▸ lt)
    · exact .inr ⟨same ▸ eq, trivial, inclusive⟩

theorem chain_joined_iff (l : List (FieldInterval V)) :
    (∀ v, (l.map (cuts rank)).IsChain fun a b => ¬ InRange (a.2, b.1) (below rank v)) ↔
      l.IsChain FieldInterval.Joined := by
  simp only [List.isChain_map]
  simp only [List.isChain_iff_forall_rel_of_append_cons_cons, joined_iff ranked]
  constructor
  · intro all a b front rest split v
    exact all v split
  · intro all v a b front rest split
    exact all split v

/-- A range contains every value if and only if it includes both ends and leaves nothing out
between neighbours. -/
theorem contains_all_iff {r : FieldRange V} (h : r.WellFormed) :
    (∀ v, r.Contains v) ↔
      r.ReachesEnds ∧ r.EndsIncluded ∧ r.intervals.IsChain FieldInterval.Joined := by
  rw [wellFormed_iff ranked] at h
  simp only [range_contains_iff ranked]
  rw [FieldRange.ReachesEnds, FieldRange.EndsIncluded]
  cases intervals : r.intervals with
  | nil => simpa using ⟨(minKey : V)⟩
  | cons first rest =>
    rw [intervals, List.map_cons] at h
    have last : (cuts rank first :: rest.map (cuts rank)).getLast (List.cons_ne_nil _ _) =
        cuts rank ((first :: rest).getLast (List.cons_ne_nil _ _)) := by
      simp only [← List.map_cons, List.getLast_map]
    simp only [List.map_cons, covers_iff_chain h, last, forall_and,
      starts_at_minKey_iff ranked, ends_at_maxKey_iff ranked]
    rw [← chain_joined_iff ranked, List.head?_cons, List.getLast?_eq_some_getLast
      (List.cons_ne_nil first rest)]
    simp only [Option.mem_some_iff, exists_eq_left', List.map_cons]
    rw [← and_assoc, and_and_and_comm, and_assoc]

end Ranked

/-! ### Exactness -/

/-- What the operations are for. -/
structure FieldRange.Exact (A B : FieldRange V) : Prop where
  intersect_wellFormed : (A.intersect B true).WellFormed
  contains_intersect : ∀ v, (A.intersect B true).Contains v ↔ A.Contains v ∧ B.Contains v
  union_wellFormed : (A.union B).WellFormed
  contains_union : ∀ v, (A.union B).Contains v ↔ A.Contains v ∨ B.Contains v
  subtract_wellFormed : (A.subtract B).WellFormed
  contains_subtract : ∀ v, (A.subtract B).Contains v ↔ A.Contains v ∧ ¬ B.Contains v
  subsetOf : A.subsetOf B ↔ ∀ v, A.Contains v → B.Contains v
  universal : A.universal ↔ ∀ v, A.Contains v

/-- The operations on two ranges of values that `woCompare` orders are exact if and only if
* ranges of which one has all values of the other also leave room above the same values, and
* where the first range goes from `MinKey` to `MaxKey`, its neighbours look joined to `universal`
  exactly when the ends are inclusive and no value is left out. -/
theorem FieldRange.exact_iff {p : BSON.Value → Prop} [Fact (p ElementValues.minKey)]
    [Fact (p ElementValues.maxKey)] (ordered : ComparesOn BSON.Value.woCompare {v | p v})
    (A B : FieldRange { v // p v }) (left : A.WellFormed) (right : B.WellFormed) :
    A.Exact B ↔
      ((∀ v, A.Contains v → B.Contains v) → ∀ v, A.Exceeds v → B.Exceeds v) ∧
      (A.ReachesEnds → (A.intervals.IsChain FieldInterval.SeenJoined ↔
        A.EndsIncluded ∧ A.intervals.IsChain FieldInterval.Joined)) := by
  obtain ⟨R, order, rank, ranked⟩ := exists_ranked ordered
  have subset := subsetOf_iff ranked left right
  have universal := A.universal_iff
  have all := contains_all_iff ranked left
  constructor
  · intro exact
    refine ⟨fun values => (subset.mp (exact.subsetOf.mpr values)).2, fun ends => ?_⟩
    have agree := exact.universal
    rw [universal, all] at agree
    exact and_congr_right_iff.mp agree ends
  · rintro ⟨room, gaps⟩
    have has_all : A.universal ↔ ∀ v, A.Contains v :=
      universal.trans ((and_congr_right gaps).trans all.symm)
    obtain ⟨union_sorted, union_covers⟩ := cuts_union ranked left right
    refine
      { intersect_wellFormed := ?_
        contains_intersect := ?_
        union_wellFormed := (wellFormed_iff ranked _).mpr union_sorted
        contains_union := fun v => by
          simpa only [range_contains_iff ranked] using union_covers (below rank v)
        subtract_wellFormed := Query.subtract_wellFormed ranked left right
        contains_subtract := Query.contains_subtract ranked left right
        subsetOf := subset.trans (and_iff_left_of_imp room)
        universal := has_all }
    · by_cases short : A.universal
      · rw [intersect, if_pos short]
        exact ⟨right.sorted, right.valid⟩
      · exact (wellFormed_iff ranked _).mpr (cuts_intersect ranked left right short).1
    · intro v
      by_cases short : A.universal
      · rw [intersect, if_pos short]
        exact (and_iff_right (has_all.mp short v)).symm
      · simpa only [range_contains_iff ranked] using
          (cuts_intersect ranked left right short).2 (below rank v)

/-! ### Regular values -/

instance : Fact (BSON.Value.Regular ElementValues.minKey) := ⟨trivial⟩

instance : Fact (BSON.Value.Regular ElementValues.maxKey) := ⟨trivial⟩

abbrev RegularValue : Type := { v : BSON.Value // v.Regular }

def regularInt (n : BitVec 32) : RegularValue := ⟨.numberInt n, trivial⟩

def regularString (s : List UInt8) : RegularValue := ⟨.string s, trivial⟩

/-- The closed interval from `l` to `u`. -/
def FieldInterval.closed (l u : V) : FieldInterval V := ⟨⟨⟨[], l⟩, true⟩, ⟨⟨[], u⟩, true⟩⟩

/-- The integers from 1 to 5, and all numbers and strings from 3 to `"x"`. -/
theorem FieldRange.exact_iff_overlapping :
    let A := FieldRange.ofIntervals [.closed (regularInt 1) (regularInt 5)]
    let B := FieldRange.ofIntervals [.closed (regularInt 3) (regularString [120])]
    ComparesOn BSON.Value.woCompare {v | v.Regular} ∧ A.WellFormed ∧ B.WellFormed ∧ A.Exact B := by
  have left : (FieldRange.ofIntervals [.closed (regularInt 1) (regularInt 5)]).WellFormed := by
    decide
  have right :
      (FieldRange.ofIntervals [.closed (regularInt 3) (regularString [120])]).WellFormed := by
    decide
  refine ⟨BSON.regular_ordered, left, right,
    (exact_iff BSON.regular_ordered _ _ left right).mpr ⟨fun values => ?_, ?_⟩⟩
  · exact absurd (values (regularInt 1) (by decide)) (by decide)
  · rintro ⟨first, at_first, last, -, least, -⟩
    obtain rfl : first = .closed (regularInt 1) (regularInt 5) :=
      (Option.mem_some_iff.mp at_first).symm
    exact absurd least (by decide)

/-- `universal` returns true for a range without the integer 4, because it compares the bounds
3 and 5 by their names; the intersection with the range of that integer then contains it. -/
theorem FieldRange.gap_overlooked :
    ∃ A B : FieldRange BSON.Value, A.WellFormed ∧ B.WellFormed ∧ A.universal ∧
      ¬ A.Contains (.numberInt 4) ∧ (A.intersect B true).Contains (.numberInt 4) ∧ ¬ A.Exact B := by
  refine ⟨.ofIntervals [⟨⟨⟨[], .minKey⟩, true⟩, ⟨⟨[98], .numberInt 3⟩, true⟩⟩,
      ⟨⟨⟨[97], .numberInt 5⟩, true⟩, ⟨⟨[], .maxKey⟩, true⟩⟩],
    .ofIntervals [.point ⟨[], .numberInt 4⟩], by decide, by decide, by decide, by decide,
    by decide, ?_⟩
  intro exact
  have all := exact.universal.mp (by decide)
  exact absurd (all (.numberInt 4)) (by decide)

end TokuMX.Query
