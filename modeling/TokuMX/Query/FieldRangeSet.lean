import TokuMX.Query.RangeAlgebra

/-!
Sets of field ranges (`FieldRangeSet` in `db/queryutil.cpp`).

A set has a range for some fields; a field without one is unrestricted. A document with
single-valued fields lies in a set if each restricted field lies in its range.

* `subtract` takes one set away from another. A difference of boxes need not be a box, so the
  result is only an upper bound: `contains_subtract_of` and `contains_of_subtract` say that it
  lies between the exact difference and the first set.
* `subset` keeps the fields of a key pattern, except those whose range looks universal.
-/

namespace TokuMX.Query

open TokuMX.Lib OrderedMap

/-- The ranges of a query, by field, and whether they are for indexes with one key a document. -/
structure FieldRangeSet (V : Type) where
  ranges : OrderedMap String (FieldRange V)
  singleKey : Bool

variable {V : Type} [ElementValues V]

/-- `universalRange`: the range of an absent element. -/
def universalRange : FieldRange V where
  intervals := [⟨⟨FieldRange.minKeyElement, true⟩, ⟨FieldRange.maxKeyElement, true⟩⟩]
  special := .empty
  exactMatchRepresentation := true
  elemMatchContext := none

namespace FieldRangeSet

/-- `range`: of a field. -/
def range (s : FieldRangeSet V) (fieldName : String) : FieldRange V :=
  (s.ranges.find? fieldName).getD universalRange

def matchPossible (s : FieldRangeSet V) : Bool := s.ranges.entries.all fun e => !e.2.empty

/-- The loop of `matchPossibleForIndex`. -/
def possibleFields (s : FieldRangeSet V) : List String → Bool
  | [] => true
  | field :: rest =>
    if field = "$natural" then true
    else if (s.range field).empty then false
    else s.possibleFields rest

def matchPossibleForIndex (s : FieldRangeSet V) (keyPattern : List String) : Bool :=
  if !s.singleKey then s.matchPossible else s.possibleFields keyPattern

def makeEmpty (s : FieldRangeSet V) : FieldRangeSet V where
  ranges := ⟨s.ranges.entries.map fun e => (e.1, { e.2 with intervals := [] }),
    List.pairwise_map.mpr s.ranges.sorted⟩
  singleKey := s.singleKey

/-- The loop of `operator-=`: what is left of the other set's fields, how many of the fields met
are not included in the other set's range, and the last of these. -/
def unincluded : List (String × FieldRange V) → List (String × FieldRange V) → Nat → String →
    List (String × FieldRange V) × Nat × String
  | _, [], nUnincluded, key => ([], nUnincluded, key)
  | [], js, nUnincluded, key => (js, nUnincluded, key)
  | i :: is, j :: js, nUnincluded, key =>
    if 2 ≤ nUnincluded then (j :: js, nUnincluded, key)
    else if i.1 = j.1 then
      if i.2.subsetOf j.2 then unincluded is js nUnincluded key
      else unincluded is js (nUnincluded + 1) i.1
    else if i.1 < j.1 then unincluded is (j :: js) nUnincluded key
    else (j :: js, nUnincluded, key)
termination_by is js => is.length + js.length

/-- `operator-=`. -/
def subtract (s other : FieldRangeSet V) : FieldRangeSet V :=
  match unincluded s.ranges.entries other.ranges.entries 0 "" with
  | ([], 0, _) => s.makeEmpty
  | ([], 1, key) =>
    { s with ranges := s.ranges.set key ((s.range key).subtract (other.range key)) }
  | _ => s

/-- `subset`: the ranges of the given fields, without those that look universal. -/
def subset (s : FieldRangeSet V) (fields : List String) : FieldRangeSet V where
  ranges := fields.foldl (fun ranges field =>
    if (s.range field).universal then ranges else ranges.set field (s.range field)) .empty
  singleKey := s.singleKey

/-! ### The documents in a set -/

/-- Every restricted field has a value in its range. -/
def Contains (s : FieldRangeSet V) (doc : String → V) : Prop :=
  ∀ e ∈ s.ranges.entries, e.2.Contains (doc e.1)

def WellFormed (s : FieldRangeSet V) : Prop := ∀ e ∈ s.ranges.entries, e.2.WellFormed

instance (s : FieldRangeSet V) (doc : String → V) : Decidable (s.Contains doc) :=
  inferInstanceAs (Decidable (∀ e ∈ s.ranges.entries, e.2.Contains (doc e.1)))

instance (s : FieldRangeSet V) : Decidable s.WellFormed :=
  inferInstanceAs (Decidable (∀ e ∈ s.ranges.entries, e.2.WellFormed))

variable {R : Type} [LinearOrder R] {rank : V → R} {s other : FieldRangeSet V} {doc : String → V}

theorem range_of_mem {e : String × FieldRange V} (mem : e ∈ s.ranges.entries) :
    s.range e.1 = e.2 := by
  have found : s.ranges.find? e.1 = some e.2 := find?_eq_some.mpr mem
  rw [range, found]
  rfl

/-- What the loop has found out when it came to the end of the other set. -/
theorem unincluded_spec {is js : List (String × FieldRange V)} {n m : Nat} {key last : String}
    (ran : unincluded is js n key = ([], m, last)) (few : m ≤ 1) :
    n ≤ m ∧ (m = n → last = key) ∧
      ∀ j ∈ js, ∃ r, (j.1, r) ∈ is ∧ (r.subsetOf j.2 ∨ m = n + 1 ∧ j.1 = last) := by
  fun_induction unincluded is js n key with
  | case1 is n key =>
    cases ran
    exact ⟨le_rfl, fun _ => rfl, List.forall_mem_nil _⟩
  | case2 js n key nonempty =>
    cases ran
    exact absurd rfl nonempty
  | case3 => cases ran
  | case4 i is j js n key _ same included ih =>
    obtain ⟨le, kept, rest⟩ := ih ran
    refine ⟨le, kept, List.forall_mem_cons.mpr ⟨⟨i.2, ?_, .inl included⟩, fun k mem => ?_⟩⟩
    · exact same ▸ List.mem_cons_self
    · obtain ⟨r, at_r, fits⟩ := rest k mem
      exact ⟨r, List.mem_cons_of_mem _ at_r, fits⟩
  | case5 i is j js n key _ same excluded ih =>
    -- The rest of the loop meets no further such field.
    obtain ⟨le, kept, rest⟩ := ih ran
    have only : m = n + 1 := by omega
    refine ⟨by omega, fun same => absurd same (by omega),
      List.forall_mem_cons.mpr ⟨⟨i.2, ?_, .inr ⟨only, ?_⟩⟩, ?_⟩⟩
    · exact same ▸ List.mem_cons_self
    · rw [kept only, same]
    · intro k mem
      obtain ⟨r, at_r, fits | fits⟩ := rest k mem
      · exact ⟨r, List.mem_cons_of_mem _ at_r, .inl fits⟩
      · omega
  | case6 i is j js n key _ other before ih =>
    obtain ⟨le, kept, rest⟩ := ih ran
    refine ⟨le, kept, fun k mem => ?_⟩
    obtain ⟨r, at_r, fits⟩ := rest k mem
    exact ⟨r, List.mem_cons_of_mem _ at_r, fits⟩
  | case7 => cases ran

/-- The three outcomes of `operator-=`: every range is included, all but one are, or nothing is
done. -/
theorem subtract_cases (s other : FieldRangeSet V) :
    (s.subtract other = s.makeEmpty ∧
      ∀ j ∈ other.ranges.entries, ∃ r, (j.1, r) ∈ s.ranges.entries ∧ r.subsetOf j.2) ∨
    (∃ key, s.subtract other =
        { s with ranges := s.ranges.set key ((s.range key).subtract (other.range key)) } ∧
      ∀ j ∈ other.ranges.entries, ∃ r, (j.1, r) ∈ s.ranges.entries ∧ (r.subsetOf j.2 ∨ j.1 = key)) ∨
    s.subtract other = s := by
  rcases ran : unincluded s.ranges.entries other.ranges.entries 0 "" with ⟨rest, n, key⟩
  rw [subtract, ran]
  cases rest with
  | cons => exact .inr (.inr rfl)
  | nil =>
    rcases n with _ | _ | n
    · obtain ⟨-, -, included⟩ := unincluded_spec ran (by omega)
      refine .inl ⟨rfl, fun j mem => ?_⟩
      obtain ⟨r, at_r, fits | few⟩ := included j mem
      · exact ⟨r, at_r, fits⟩
      · omega
    · obtain ⟨-, -, included⟩ := unincluded_spec ran le_rfl
      refine .inr (.inl ⟨key, rfl, fun j mem => ?_⟩)
      obtain ⟨r, at_r, fits⟩ := included j mem
      exact ⟨r, at_r, fits.imp_right And.right⟩
    · exact .inr (.inr rfl)

theorem contains_makeEmpty {e : String × FieldRange V} (mem : e ∈ s.ranges.entries) :
    ¬ s.makeEmpty.Contains doc := by
  intro inside
  obtain ⟨i, at_i, -⟩ := inside (e.1, { e.2 with intervals := [] }) (List.mem_map_of_mem mem)
  cases at_i

theorem find?_subset (s : FieldRangeSet V) (fields : List String) (field : String) :
    (s.subset fields).ranges.find? field =
      if field ∈ fields ∧ ¬ (s.range field).universal then some (s.range field) else none := by
  have loop : ∀ acc : OrderedMap String (FieldRange V), (fields.foldl (fun ranges f =>
        if (s.range f).universal then ranges else ranges.set f (s.range f)) acc).find? field =
      if field ∈ fields ∧ ¬ (s.range field).universal then some (s.range field)
      else acc.find? field := by
    induction fields with
    | nil => simp
    | cons f fields ih =>
      intro acc
      rw [List.foldl_cons, ih]
      have put : (acc.set f (s.range f)).find? field =
          if field = f then some (s.range f) else acc.find? field :=
        acc.find?_put f (some (s.range f)) field
      by_cases here : field = f
      · subst here
        by_cases looks : (s.range field).universal <;> simp [looks, put]
      · by_cases looks : (s.range f).universal <;> simp [looks, put, here]
  exact loop .empty

/-- A document lies in the subset if its values on the given fields do, where the range does not
look universal. -/
theorem contains_subset (s : FieldRangeSet V) (fields : List String) :
    (s.subset fields).Contains doc ↔
      ∀ field ∈ fields, (s.range field).universal ∨ (s.range field).Contains (doc field) := by
  constructor
  · intro inside field mem
    by_cases looks : (s.range field).universal
    · exact .inl looks
    · have found := find?_subset s fields field
      rw [if_pos ⟨mem, looks⟩] at found
      exact .inr (inside _ (find?_eq_some.mp found))
  · intro inside e mem
    have found := find?_eq_some.mpr mem
    rw [find?_subset] at found
    split_ifs at found with kept
    rw [← Option.some.inj found]
    exact (inside e.1 kept.1).resolve_left kept.2

section Ranked

variable (ranked : Ranked rank)
include ranked

theorem universalRange_contains (v : V) : (universalRange : FieldRange V).Contains v := by
  refine ⟨_, List.mem_singleton.mpr rfl, (contains_iff ranked _ v).mpr ?_⟩
  have least := ranked.minKey_le v
  have greatest := ranked.le_maxKey v
  simp only [InRange, cuts, lowerCut, upperCut, below, cut_le_iff, cut_lt_iff,
    FieldRange.minKeyElement, FieldRange.maxKeyElement]
  exact ⟨least.lt_or_eq.imp_right fun eq => ⟨eq, id⟩,
    greatest.lt_or_eq.imp_right fun eq => ⟨eq, trivial, trivial⟩⟩

theorem universalRange_wellFormed : (universalRange : FieldRange V).WellFormed := by
  refine ⟨List.pairwise_singleton _ _, fun i mem => ?_⟩
  obtain rfl := List.mem_singleton.mp mem
  have ends := ranked.minKey_le ElementValues.maxKey
  simp only [FieldInterval.isStrictValid, Element.woCompare_false, ranked.lt_iff, ranked.eq_iff,
    decide_eq_true_eq, FieldRange.minKeyElement, FieldRange.maxKeyElement]
  exact ends.lt_or_eq.imp_right fun eq => ⟨eq, trivial, trivial⟩

theorem range_wellFormed (h : s.WellFormed) (fieldName : String) :
    (s.range fieldName).WellFormed := by
  rw [range]
  cases found : s.ranges.find? fieldName with
  | none => exact universalRange_wellFormed ranked
  | some r => exact h _ (find?_eq_some.mp found)

/-- A document lies in a set exactly when every field lies in its range. -/
theorem contains_iff_range : s.Contains doc ↔ ∀ field, (s.range field).Contains (doc field) := by
  constructor
  · intro inside field
    rw [range]
    cases found : s.ranges.find? field with
    | none => exact universalRange_contains ranked _
    | some r => exact inside _ (find?_eq_some.mp found)
  · intro inside e mem
    rw [← range_of_mem mem]
    exact inside e.1

theorem subtract_wellFormed (left : s.WellFormed) (right : other.WellFormed) :
    (s.subtract other).WellFormed := by
  rcases subtract_cases s other with ⟨empty, -⟩ | ⟨key, cut, -⟩ | same
  · rw [empty]
    intro e mem
    obtain ⟨e, -, rfl⟩ := List.mem_map.mp mem
    exact ⟨.nil, List.forall_mem_nil _⟩
  · rw [cut]
    intro e mem
    rcases mem_set.mp mem with rfl | ⟨old, -⟩
    · exact Query.subtract_wellFormed ranked (range_wellFormed ranked left key)
        (range_wellFormed ranked right key)
    · exact left e old
  · rw [same]
    exact left

/-- A range that `operator<=` finds included has its values in the other. -/
theorem contains_of_subsetOf {r q : FieldRange V} (left : r.WellFormed) (right : q.WellFormed)
    (included : r.subsetOf q) {v : V} (inside : r.Contains v) : q.Contains v :=
  ((subsetOf_iff ranked left right).mp included).1 v inside

/-- The difference loses nothing but documents of the other set. -/
theorem contains_subtract_of (left : s.WellFormed) (right : other.WellFormed)
    (inside : s.Contains doc) (outside : ¬ other.Contains doc) :
    (s.subtract other).Contains doc := by
  have missed : ∃ j ∈ other.ranges.entries, ¬ j.2.Contains (doc j.1) := by
    simpa [Contains] using outside
  obtain ⟨j, at_j, missing⟩ := missed
  rcases subtract_cases s other with ⟨-, included⟩ | ⟨key, cut, included⟩ | same
  · obtain ⟨r, at_r, fits⟩ := included j at_j
    exact absurd (contains_of_subsetOf ranked (left _ at_r) (right j at_j) fits (inside _ at_r))
      missing
  · obtain ⟨r, at_r, fits | rfl⟩ := included j at_j
    · exact absurd (contains_of_subsetOf ranked (left _ at_r) (right j at_j) fits (inside _ at_r))
        missing
    · rw [cut]
      intro e mem
      rcases mem_set.mp mem with rfl | ⟨old, -⟩
      · rw [range_of_mem at_j, range_of_mem (e := (j.1, r)) at_r]
        exact (contains_subtract ranked (left _ at_r) (right j at_j) _).mpr ⟨inside _ at_r, missing⟩
      · exact inside e old
  · rw [same]
    exact inside

/-- The difference has no documents that the set did not have. -/
theorem contains_of_subtract (left : s.WellFormed) (right : other.WellFormed)
    (inside : (s.subtract other).Contains doc) : s.Contains doc := by
  rcases subtract_cases s other with ⟨empty, -⟩ | ⟨key, cut, -⟩ | same
  · intro e mem
    exact absurd (empty ▸ inside) (contains_makeEmpty mem)
  · rw [cut] at inside
    intro e mem
    by_cases here : e.1 = key
    · have difference := inside (key, _) (mem_set.mpr (.inl rfl))
      have kept := ((contains_subtract ranked (range_wellFormed ranked left key)
        (range_wellFormed ranked right key) _).mp difference).1
      rw [← here, range_of_mem mem] at kept
      exact kept
    · exact inside e (mem_set.mpr (.inr ⟨mem, here⟩))
  · exact same ▸ inside

end Ranked

end FieldRangeSet

end TokuMX.Query
