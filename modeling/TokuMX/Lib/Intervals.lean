import TokuMX.Lib.Ranges

/-!
Ascending lists of half-open ranges of a linear order, as sets of points.

`Ascending` lists are sorted, their ranges are non-empty and no two meet; neighbours may
touch. `covers_iff_chain` looks at the gaps between neighbours. The three operations on such
lists are the usual merges.

* `Inter` walks down two lists and keeps the overlaps. It drops the range that ends first; if
  both end at once it may drop either, so it is a relation. `Inter.covers` and
  `Inter.ascending` do not depend on the choice.
* `coalesce` joins ranges that come in the order of their lower ends.
* `diff` takes the second list away from the first. Its result is empty exactly when every
  point of the first list is one of the second (`diff_eq_nil_iff`).
-/

namespace TokuMX.Lib

universe u

variable {K : Type u} [LinearOrder K]

/-- Non-empty ranges in order, no two of which meet. -/
structure Ascending (l : List (K × K)) : Prop where
  proper : ∀ r ∈ l, r.1 < r.2
  sorted : l.Pairwise fun a b => a.2 ≤ b.1

/-- The point lies in a range of the list. -/
def Covers (l : List (K × K)) (p : K) : Prop := ∃ r ∈ l, InRange r p

section Covers

variable {l m : List (K × K)} {r : K × K} {p : K}

@[simp] theorem covers_nil : ¬ Covers [] p := by simp [Covers]

@[simp] theorem covers_cons : Covers (r :: l) p ↔ InRange r p ∨ Covers l p := by
  simp [Covers]

@[simp] theorem covers_append : Covers (l ++ m) p ↔ Covers l p ∨ Covers m p := by
  simp [Covers, or_and_right, exists_or]

end Covers

namespace Ascending

variable {l : List (K × K)} {r : K × K} {p : K}

theorem nil : Ascending ([] : List (K × K)) := ⟨by simp, .nil⟩

theorem cons_iff :
    Ascending (r :: l) ↔ r.1 < r.2 ∧ (∀ s ∈ l, r.2 ≤ s.1) ∧ Ascending l := by
  constructor
  · intro h
    obtain ⟨first, rest⟩ := List.pairwise_cons.mp h.sorted
    exact ⟨h.proper r List.mem_cons_self, first,
      fun s mem => h.proper s (List.mem_cons_of_mem r mem), rest⟩
  · rintro ⟨proper, first, rest⟩
    exact ⟨List.forall_mem_cons.mpr ⟨proper, rest.proper⟩,
      List.pairwise_cons.mpr ⟨first, rest.sorted⟩⟩

theorem tail (h : Ascending (r :: l)) : Ascending l := (cons_iff.mp h).2.2

/-- What the rest of the list covers starts where its first range ends. -/
theorem le_of_covers (h : Ascending (r :: l)) (mem : Covers l p) : r.2 ≤ p := by
  obtain ⟨s, at_s, inside⟩ := mem
  exact ((cons_iff.mp h).2.1 s at_s).trans inside.1

/-- The first range may be cut off from below. -/
theorem cut (h : Ascending (r :: l)) {lo : K} (proper : lo < r.2) : Ascending ((lo, r.2) :: l) :=
  cons_iff.mpr ⟨proper, (cons_iff.mp h).2⟩

end Ascending

variable {l : List (K × K)}

/-- Of two ranges by their places, the first ends before the second begins. -/
theorem Ascending.le_of_lt (h : Ascending l) {s t : Nat} {a b : K × K} (lt : s < t)
    (first : l[s]? = some a) (second : l[t]? = some b) : a.2 ≤ b.1 := by
  obtain ⟨here, rfl⟩ := List.getElem?_eq_some_iff.mp first
  obtain ⟨there, rfl⟩ := List.getElem?_eq_some_iff.mp second
  exact List.pairwise_iff_getElem.mp h.sorted s t here there lt

variable {r : K × K}

theorem Ascending.proper_at (h : Ascending l) {t : Nat} (at_t : l[t]? = some r) :
    r.1 < r.2 := h.proper r (List.mem_of_getElem? at_t)

variable {p : K}

/-- A point in front of all ranges lies in no gap between two of them. -/
theorem Ascending.chain_of_lt (h : Ascending (r :: l)) (front : p < r.1) :
    (r :: l).IsChain fun a b => ¬ InRange (a.2, b.1) p := by
  induction l generalizing r with
  | nil => simp
  | cons s l ih =>
    obtain ⟨proper, first, rest⟩ := cons_iff.mp h
    have before : p < r.2 := front.trans proper
    exact List.isChain_cons_cons.mpr ⟨fun inside => absurd inside.1 (not_le.mpr before),
      ih rest (before.trans_le (first s List.mem_cons_self))⟩

open Ascending

/-- A point lies in a range unless it is in front of the first, behind the last or between two
neighbours. -/
theorem covers_iff_chain (h : Ascending (r :: l)) :
    Covers (r :: l) p ↔ r.1 ≤ p ∧ p < ((r :: l).getLast (List.cons_ne_nil r l)).2 ∧
      (r :: l).IsChain fun a b => ¬ InRange (a.2, b.1) p := by
  induction l generalizing r with
  | nil => simp [InRange]
  | cons s l ih =>
    obtain ⟨proper, first, rest⟩ := cons_iff.mp h
    have next : r.2 ≤ s.1 := first s List.mem_cons_self
    have last_mem := List.getLast_mem (List.cons_ne_nil s l)
    have last : r.2 < ((s :: l).getLast (List.cons_ne_nil s l)).2 :=
      (first _ last_mem).trans_lt (rest.proper _ last_mem)
    rw [covers_cons, ih rest, List.isChain_cons_cons, List.getLast_cons (List.cons_ne_nil s l)]
    constructor
    · rintro (inside | ⟨lo, hi, gaps⟩)
      · exact ⟨inside.1, inside.2.trans last, fun gap => absurd gap.1 (not_le.mpr inside.2),
          rest.chain_of_lt (inside.2.trans_le next)⟩
      · exact ⟨proper.le.trans (next.trans lo), hi, fun gap => absurd gap.2 (not_lt.mpr lo), gaps⟩
    · rintro ⟨lo, hi, gap, gaps⟩
      rcases lt_or_ge p r.2 with before | behind
      · exact .inl ⟨lo, before⟩
      · exact .inr ⟨not_lt.mp fun front => gap ⟨behind, front⟩, hi, gaps⟩

/-! ### Intersection -/

/-- The overlap of two ranges, if it is not empty. -/
def overlap (i j : K × K) : List (K × K) :=
  if max i.1 j.1 < min i.2 j.2 then [(max i.1 j.1, min i.2 j.2)] else []

theorem covers_overlap {i j : K × K} : Covers (overlap i j) p ↔ InRange i p ∧ InRange j p := by
  have both : InRange (max i.1 j.1, min i.2 j.2) p ↔ InRange i p ∧ InRange j p := by
    simp only [InRange, max_le_iff, lt_min_iff]
    grind
  rw [overlap]
  split_ifs with proper
  · rw [covers_cons, both]
    simp
  · simp only [covers_nil, false_iff]
    intro inside
    obtain ⟨lo, hi⟩ := both.mpr inside
    exact proper (lo.trans_lt hi)

/-- The merge that keeps the overlaps. -/
inductive Inter : List (K × K) → List (K × K) → List (K × K) → Prop where
  | nil_left (js : List (K × K)) : Inter [] js []
  | nil_right (is : List (K × K)) : Inter is [] []
  | left {i j : K × K} {is js out : List (K × K)} (first : i.2 ≤ j.2) :
      Inter is (j :: js) out → Inter (i :: is) (j :: js) (overlap i j ++ out)
  | right {i j : K × K} {is js out : List (K × K)} (first : j.2 ≤ i.2) :
      Inter (i :: is) js out → Inter (i :: is) (j :: js) (overlap i j ++ out)

namespace Inter

variable {is js out : List (K × K)} {p : K}

theorem covers (h : Inter is js out) (left : Ascending is) (right : Ascending js) :
    Covers out p ↔ Covers is p ∧ Covers js p := by
  induction h with
  | nil_left => simp
  | nil_right => simp
  | @left i j is js out first _ ih =>
    rw [covers_append, covers_overlap, ih left.tail right, covers_cons, covers_cons]
    -- The dropped range ends before the later ranges of the other list begin.
    have apart : InRange i p → ¬ Covers js p := by
      intro inside later
      exact absurd (first.trans (right.le_of_covers later)) (not_le.mpr inside.2)
    grind
  | @right i j is js out first _ ih =>
    rw [covers_append, covers_overlap, ih left right.tail, covers_cons, covers_cons]
    have apart : InRange j p → ¬ Covers is p := by
      intro inside later
      exact absurd (first.trans (left.le_of_covers later)) (not_le.mpr inside.2)
    grind

/-- Every range of the result lies inside a range of either list. -/
theorem inside (h : Inter is js out) (mem : r ∈ out) :
    r.1 < r.2 ∧ (∃ i ∈ is, i.1 ≤ r.1 ∧ r.2 ≤ i.2) ∧ ∃ j ∈ js, j.1 ≤ r.1 ∧ r.2 ≤ j.2 := by
  have here : ∀ {i j : K × K}, r ∈ overlap i j →
      r.1 < r.2 ∧ (i.1 ≤ r.1 ∧ r.2 ≤ i.2) ∧ j.1 ≤ r.1 ∧ r.2 ≤ j.2 := by
    intro i j mem
    rw [overlap] at mem
    split_ifs at mem with proper
    · obtain rfl := List.mem_singleton.mp mem
      exact ⟨proper, ⟨le_max_left .., min_le_left ..⟩, le_max_right .., min_le_right ..⟩
    · cases mem
  induction h with
  | nil_left => cases mem
  | nil_right => cases mem
  | left first _ ih | right first _ ih =>
    rcases List.mem_append.mp mem with mem | mem
    · obtain ⟨proper, at_i, at_j⟩ := here mem
      exact ⟨proper, ⟨_, List.mem_cons_self, at_i⟩, _, List.mem_cons_self, at_j⟩
    · obtain ⟨proper, ⟨i, at_i, le_i⟩, j, at_j, le_j⟩ := ih mem
      first
        | exact ⟨proper, ⟨i, List.mem_cons_of_mem _ at_i, le_i⟩, j, at_j, le_j⟩
        | exact ⟨proper, ⟨i, at_i, le_i⟩, j, List.mem_cons_of_mem _ at_j, le_j⟩

theorem ascending (h : Inter is js out) (left : Ascending is) (right : Ascending js) :
    Ascending out := by
  have append : ∀ {i j : K × K} {out : List (K × K)}, Ascending out →
      (∀ r ∈ out, min i.2 j.2 ≤ r.1) → Ascending (overlap i j ++ out) := by
    intro i j out rest after
    rw [overlap]
    split_ifs with proper
    · exact cons_iff.mpr ⟨proper, after, rest⟩
    · exact rest
  induction h with
  | nil_left => exact .nil
  | nil_right => exact .nil
  | @left i j is js out first step ih =>
    refine append (ih left.tail right) fun r mem => ?_
    obtain ⟨-, ⟨i', at_i', le⟩, -⟩ := step.inside mem
    exact (min_le_left ..).trans (((cons_iff.mp left).2.1 i' at_i').trans le.1)
  | @right i j is js out first step ih =>
    refine append (ih left right.tail) fun r mem => ?_
    obtain ⟨-, -, j', at_j', le⟩ := step.inside mem
    exact (min_le_right ..).trans (((cons_iff.mp right).2.1 j' at_j').trans le.1)

end Inter

/-! ### Union -/

/-- Ranges that come in the order of their lower ends, joined where they meet or touch. The
first argument is the range that may still grow. -/
def coalesce : K × K → List (K × K) → List (K × K)
  | tail, [] => [tail]
  | tail, next :: rest =>
    if tail.2 < next.1 then tail :: coalesce next rest
    else coalesce (tail.1, max tail.2 next.2) rest

/-- All of the ranges, joined. -/
def coalesceAll : List (K × K) → List (K × K)
  | [] => []
  | tail :: rest => coalesce tail rest

section Union

variable {tail : K × K} {l rest : List (K × K)} {p : K}

theorem covers_coalesce (proper : tail.1 < tail.2)
    (ranges : ∀ r ∈ rest, r.1 < r.2) (sorted : (tail :: rest).Pairwise fun a b => a.1 ≤ b.1) :
    Covers (coalesce tail rest) p ↔ Covers (tail :: rest) p := by
  induction rest generalizing tail with
  | nil => rfl
  | cons next rest ih =>
    obtain ⟨first, sorted⟩ := List.pairwise_cons.mp sorted
    obtain ⟨next_le, sorted_rest⟩ := List.pairwise_cons.mp sorted
    have le : tail.1 ≤ next.1 := first next List.mem_cons_self
    have next_proper := ranges next List.mem_cons_self
    have later : ∀ r ∈ rest, r.1 < r.2 := fun r mem => ranges r (List.mem_cons_of_mem _ mem)
    rw [coalesce]
    split_ifs with gap
    · rw [covers_cons, ih next_proper later sorted, ← covers_cons]
    · have joined : InRange (tail.1, max tail.2 next.2) p ↔ InRange tail p ∨ InRange next p := by
        simp only [InRange, lt_max_iff]
        have touch := not_lt.mp gap
        constructor
        · rintro ⟨lo, hi⟩
          rcases lt_or_ge p tail.2 with before | after
          · exact .inl ⟨lo, before⟩
          · exact .inr ⟨touch.trans after, hi.resolve_left (not_lt.mpr after)⟩
        · rintro (⟨lo, hi⟩ | ⟨lo, hi⟩)
          · exact ⟨lo, .inl hi⟩
          · exact ⟨le.trans lo, .inr hi⟩
      have longer : tail.1 < max tail.2 next.2 := proper.trans_le (le_max_left ..)
      rw [@ih (tail.1, max tail.2 next.2) longer later (List.pairwise_cons.mpr
        ⟨fun r mem => first r (List.mem_cons_of_mem _ mem), sorted_rest⟩),
        covers_cons, joined, covers_cons, covers_cons, or_assoc]

/-- Every range of the result starts at or after the growing one. -/
theorem le_of_mem_coalesce (sorted : (tail :: rest).Pairwise fun a b => a.1 ≤ b.1)
    (mem : r ∈ coalesce tail rest) : tail.1 ≤ r.1 := by
  induction rest generalizing tail with
  | nil =>
    obtain rfl := List.mem_singleton.mp mem
    exact le_rfl
  | cons next rest ih =>
    obtain ⟨first, sorted⟩ := List.pairwise_cons.mp sorted
    rw [coalesce] at mem
    split_ifs at mem with gap
    · rcases List.mem_cons.mp mem with rfl | mem
      · exact le_rfl
      · exact (first next List.mem_cons_self).trans (ih sorted mem)
    · exact @ih (tail.1, max tail.2 next.2) (List.pairwise_cons.mpr
        ⟨fun r mem => first r (List.mem_cons_of_mem _ mem), (List.pairwise_cons.mp sorted).2⟩) mem

theorem ascending_coalesce (proper : tail.1 < tail.2)
    (ranges : ∀ r ∈ rest, r.1 < r.2) (sorted : (tail :: rest).Pairwise fun a b => a.1 ≤ b.1) :
    Ascending (coalesce tail rest) := by
  induction rest generalizing tail with
  | nil => exact cons_iff.mpr ⟨proper, by simp, .nil⟩
  | cons next rest ih =>
    obtain ⟨first, sorted⟩ := List.pairwise_cons.mp sorted
    have later : ∀ r ∈ rest, r.1 < r.2 := fun r mem => ranges r (List.mem_cons_of_mem _ mem)
    rw [coalesce]
    split_ifs with gap
    · refine cons_iff.mpr
        ⟨proper, fun r mem => ?_, ih (ranges next List.mem_cons_self) later sorted⟩
      exact gap.le.trans (le_of_mem_coalesce sorted mem)
    · exact ih (proper.trans_le (le_max_left ..)) later (List.pairwise_cons.mpr
        ⟨fun r mem => first r (List.mem_cons_of_mem _ mem), (List.pairwise_cons.mp sorted).2⟩)

theorem covers_coalesceAll (ranges : ∀ r ∈ l, r.1 < r.2)
    (sorted : l.Pairwise fun a b => a.1 ≤ b.1) : Covers (coalesceAll l) p ↔ Covers l p := by
  cases l with
  | nil => rfl
  | cons tail rest =>
    obtain ⟨here, later⟩ := List.forall_mem_cons.mp ranges
    exact covers_coalesce here later sorted

theorem ascending_coalesceAll (ranges : ∀ r ∈ l, r.1 < r.2)
    (sorted : l.Pairwise fun a b => a.1 ≤ b.1) : Ascending (coalesceAll l) := by
  cases l with
  | nil => exact .nil
  | cons tail rest =>
    obtain ⟨here, later⟩ := List.forall_mem_cons.mp ranges
    exact ascending_coalesce here later sorted

end Union

/-! ### Difference -/

/-- The first list without the second. -/
def diff : List (K × K) → List (K × K) → List (K × K)
  | [], _ => []
  | is, [] => is
  | i :: is, j :: js =>
    if i.1 < j.1 then
      if i.2 ≤ j.1 then i :: diff is (j :: js)
      else if i.2 ≤ j.2 then (i.1, j.1) :: diff is (j :: js)
      else (i.1, j.1) :: diff ((j.2, i.2) :: is) js
    else if j.2 ≤ i.1 then diff (i :: is) js
    else if i.2 ≤ j.2 then diff is (j :: js)
    else diff ((j.2, i.2) :: is) js
termination_by is js => is.length + js.length

section Difference

variable {is js : List (K × K)} {p : K}

@[simp] theorem diff_nil_left : diff [] js = [] := by rw [diff]

@[simp] theorem diff_nil_right : diff is [] = is := by cases is <;> simp [diff]

theorem covers_diff (left : Ascending is) (right : Ascending js) :
    Covers (diff is js) p ↔ Covers is p ∧ ¬ Covers js p := by
  -- In each case: what the rest of either list covers lies behind its first range.
  fun_induction diff is js with
  | case1 | case2 => simp
  | case3 i is j js _ _ ih | case4 i is j js _ _ _ ih | case7 i is j js _ _ _ ih =>
    have from_i := left.le_of_covers (p := p)
    have from_j := right.le_of_covers (p := p)
    have proper := (cons_iff.mp right).1
    simp only [covers_cons, ih left.tail right, InRange]
    grind
  | case5 i is j js _ _ outside ih | case8 i is j js _ _ outside ih =>
    have from_i := left.le_of_covers (p := p)
    have from_j := right.le_of_covers (p := p)
    have proper := (cons_iff.mp right).1
    simp only [covers_cons, ih (left.cut (not_le.mp outside)) right.tail, InRange]
    grind
  | case6 i is j js _ _ ih =>
    have from_i := left.le_of_covers (p := p)
    have proper := (cons_iff.mp left).1
    simp only [covers_cons, ih left right.tail, InRange]
    grind

/-- Every range of the difference starts in a range of the first list. -/
theorem le_of_mem_diff (right : Ascending js) (mem : r ∈ diff is js) : ∃ i ∈ is, i.1 ≤ r.1 := by
  have later : ∀ (i : K × K) {is : List (K × K)}, (∃ k ∈ is, k.1 ≤ r.1) →
      ∃ k ∈ i :: is, k.1 ≤ r.1 :=
    fun i _ ⟨k, at_k, le⟩ => ⟨k, List.mem_cons_of_mem i at_k, le⟩
  have uncut : ∀ {i j : K × K} {is : List (K × K)}, i.1 ≤ j.2 →
      (∃ k ∈ (j.2, i.2) :: is, k.1 ≤ r.1) → ∃ k ∈ i :: is, k.1 ≤ r.1 := by
    rintro i j is le ⟨k, at_k, from_k⟩
    rcases List.mem_cons.mp at_k with rfl | at_k
    · exact ⟨i, List.mem_cons_self, le.trans from_k⟩
    · exact later i ⟨k, at_k, from_k⟩
  fun_induction diff is js with
  | case1 => cases mem
  | case2 is => exact ⟨r, mem, le_rfl⟩
  | case3 i is j js _ _ ih | case4 i is j js _ _ _ ih =>
    rcases List.mem_cons.mp mem with same | mem
    · exact ⟨i, List.mem_cons_self, by rw [same]⟩
    · exact later i (ih right mem)
  | case5 i is j js before meets outside ih =>
    rcases List.mem_cons.mp mem with rfl | mem
    · exact ⟨i, List.mem_cons_self, le_rfl⟩
    · have proper := (cons_iff.mp right).1
      exact uncut (before.trans proper).le (ih right.tail mem)
  | case6 i is j js after apart ih => exact ih right.tail mem
  | case7 i is j js after meets inside ih => exact later i (ih right mem)
  | case8 i is j js after meets outside ih => exact uncut (not_le.mp meets).le (ih right.tail mem)

theorem ascending_diff (left : Ascending is) (right : Ascending js) : Ascending (diff is js) := by
  fun_induction diff is js with
  | case1 => exact .nil
  | case2 => exact left
  | case3 i is j js before apart ih =>
    obtain ⟨proper, first, rest⟩ := cons_iff.mp left
    refine cons_iff.mpr ⟨proper, fun r mem => ?_, ih rest right⟩
    obtain ⟨k, at_k, le⟩ := le_of_mem_diff right mem
    exact (first k at_k).trans le
  | case4 i is j js before meets inside ih =>
    obtain ⟨-, first, rest⟩ := cons_iff.mp left
    refine cons_iff.mpr ⟨before, fun r mem => ?_, ih rest right⟩
    obtain ⟨k, at_k, le⟩ := le_of_mem_diff right mem
    exact (not_le.mp meets).le.trans ((first k at_k).trans le)
  | case5 i is j js before meets outside ih =>
    have proper := (cons_iff.mp right).1
    have cut := left.cut (not_le.mp outside)
    refine cons_iff.mpr ⟨before, fun r mem => ?_, ih cut right.tail⟩
    obtain ⟨k, at_k, le⟩ := le_of_mem_diff right.tail mem
    rcases List.mem_cons.mp at_k with rfl | at_k
    · exact proper.le.trans le
    · have from_i := (cons_iff.mp left).2.1 k at_k
      exact (not_le.mp meets).le.trans (from_i.trans le)
  | case6 i is j js after apart ih => exact ih left right.tail
  | case7 i is j js after meets inside ih => exact ih left.tail right
  | case8 i is j js after meets outside ih => exact ih (left.cut (not_le.mp outside)) right.tail

/-- Nothing is left exactly when every point of the first list is one of the second. -/
theorem diff_eq_nil_iff (left : Ascending is) (right : Ascending js) :
    diff is js = [] ↔ ∀ p, Covers is p → Covers js p := by
  constructor
  · intro empty p covered
    by_contra outside
    have rest := (covers_diff left right).mpr ⟨covered, outside⟩
    simp [empty] at rest
  · intro sub
    rw [List.eq_nil_iff_forall_not_mem]
    intro r mem
    have proper := (ascending_diff left right).proper r mem
    obtain ⟨covered, outside⟩ := (covers_diff left right).mp ⟨r, mem, le_rfl, proper⟩
    exact outside (sub _ covered)

end Difference

end TokuMX.Lib
