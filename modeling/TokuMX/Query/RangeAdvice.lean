import Mathlib.Data.List.TakeWhile
import TokuMX.Query.RangeIterator

/-!
The advice of the range iterator is right.

Two things are carried along a scan. While `advance` goes through the fields of a key, the
fields behind it stand in intervals that contain their values (`Visit`); between two calls,
`Ready` says what the counters still mean for a key that comes later.
-/

namespace TokuMX.Query

namespace FieldRangeVector

open TokuMX.Lib

variable {V : Type} [ElementValues V] (v : FieldRangeVector V) {P : Type} [LinearOrder P]
  (pos : Nat → V → P)

/-- A key that lies in the ranges in front lies in those at the end, which are taken for
universal. -/
def TrailingUniversal : Prop :=
  ∀ key : List V, (∀ i < v.endNonUniversalRanges, (v.oriented i).Contains (field key i)) →
    ∀ i, v.endNonUniversalRanges ≤ i → i < v.ranges.length → (v.oriented i).Contains (field key i)

/-- The counter of the field stands at the interval. -/
def At (it : FieldRangeVectorIterator V) (m : Nat) (f : FieldInterval V) : Prop :=
  ∃ c, it.i m = some c ∧ (v.range m).intervals[c]? = some f

/-- The value lies in the interval. -/
def Inside (m : Nat) (f : FieldInterval V) (key : List V) : Prop :=
  InRange (cuts (pos m) f) (below (pos m) (field key m))

/-- The field stands in an interval that contains its value. -/
def Stands (it : FieldRangeVectorIterator V) (key : List V) (m : Nat) : Prop :=
  ∃ f, v.At it m f ∧ Inside pos m f key

/-- The field stands in an interval of one value, which is the key's. -/
def Pinned (it : FieldRangeVectorIterator V) (key : List V) (m : Nat) : Prop :=
  ∃ f, v.At it m f ∧ f.equality ∧ Inside pos m f key

/-- The key is past the first `c` intervals of the field. -/
def Passed (i c : Nat) (key : List V) : Prop :=
  ∀ t < c, ∀ f, (v.range i).intervals[t]? = some f →
    (cuts (pos i) f).2 ≤ below (pos i) (field key i)

/-- The field has no value of its range above the key's. -/
def AtEnd (m : Nat) (key : List V) : Prop :=
  ∀ p, above (pos m) (field key m) ≤ p → ¬ Covers (v.scanCuts pos m) p

/-- The counter of the field is right for a key. -/
structure Right (it : FieldRangeVectorIterator V) (key : List V) (j c : Nat) : Prop where
  bounded : c < (v.range j).intervals.length
  front : j = 0 → ∀ f, (v.range j).intervals[c]? = some f →
    (cuts (pos j) f).1 ≤ below (pos j) (field key j)
  passed : (∀ m < j, v.Pinned pos it key m) → v.Passed pos j c key

/-- The counters from field `i` on are right for a key. -/
structure Ready (it : FieldRangeVectorIterator V) (key : List V) (i : Nat) : Prop where
  unknown : ∀ j k, i ≤ j → j ≤ k → k < v.endNonUniversalRanges → it.i j = none → it.i k = none
  right : ∀ j, i ≤ j → j < v.endNonUniversalRanges → ∀ c, it.i j = some c →
    v.Right pos it key j c

/-- The counters behind field `i` have been set to the start, or made unknown. -/
def Reset (it : FieldRangeVectorIterator V) (i : Nat) : Prop :=
  (∀ j, i < j → it.i j = some 0) ∨ ∀ j, i < j → j < v.endNonUniversalRanges → it.i j = none

/-- `advance` has gone through the first `i` fields of the key. -/
structure Visit (it : FieldRangeVectorIterator V) (key : List V) (i : Nat)
    (latest : Option Nat) : Prop where
  stands : ∀ m < i, v.Stands pos it key m
  ready : v.Ready pos it key i
  -- a counter that is known means that no field in front has stood in an inequality
  pinned : ∀ j, i ≤ j → j < v.endNonUniversalRanges → it.i j ≠ none →
    ∀ m, m + 1 < i → v.Pinned pos it key m
  latest_lt : ∀ l, latest = some l → l < i
  atEnd : ∀ m < i, (∀ l, latest = some l → l < m) → v.AtEnd pos m key

/-- Skipping from a key is right: the key is left behind, no key that is passed over is admitted,
no exclusive bound of the position is admitted, and the counters are right for later keys. -/
structure Skips (key : List V) (r : Nat) (it : FieldRangeVectorIterator V) : Prop where
  bounded : r ≤ v.ranges.length
  behind : ¬ v.Reached it r key key
  skipped : ∀ k, v.ScanLe key k → ¬ v.Reached it r key k → ¬ v.Admits k
  exclusive : it.after = false → ∀ j, r ≤ j → j < v.ranges.length → ¬ (it.cmp j).inclusive →
    ∀ k, woCompareValues (field k j) (it.cmp j).bound.value = 0 → ¬ v.Admits k
  ready : ∀ k, v.ScanLe key k → v.Reached it r key k → v.Ready pos it k 0

/-- The advice is right for a key, and the counters for those that come later. -/
def Advised (key : List V) : Advance × FieldRangeVectorIterator V → Prop
  | (.finished, _) => ∀ k, v.ScanLe key k → ¬ v.Admits k
  | (.next, it) => v.Admits key ∧ ∀ k, v.ScanLe key k → v.Ready pos it k 0
  | (.skip r, it) => v.Skips pos key r it

/-- What the loop over the intervals of field `i` finds is right for the key. -/
def FoundFor (it : FieldRangeVectorIterator V) (key : List V) (i : Nat) :
    Found × FieldRangeVectorIterator V → Prop
  | (.inside eq, it') => (∀ m < i, it'.i m = it.i m) ∧ (it' = it ∨ v.Reset it' i) ∧
      ∃ c f, it'.i i = some c ∧ (v.range i).intervals[c]? = some f ∧ Inside pos i f key ∧
        (eq → (cuts (pos i) f).2 ≤ above (pos i) (field key i))
  | (.past, it') => (∀ m < i, it'.i m = it.i m) ∧
      ∀ f ∈ (v.range i).intervals, (cuts (pos i) f).2 ≤ below (pos i) (field key i)
  | (.skip r, it') => v.Advised pos key (.skip r, it')

/-- A round of the loop over the fields is right for the key. -/
def Stepped (key : List V) (i : Nat) : FieldStep × FieldRangeVectorIterator V → Prop
  | (.stop a, it) => v.Advised pos key (a, it)
  | (.go latest, it) => v.Visit pos it key (i + 1) latest

variable {v pos}

theorem lt_ranges {i : Nat} (lt : i < v.endNonUniversalRanges) : i < v.ranges.length :=
  lt.trans_le ((List.dropWhile_suffix _).length_le.trans_eq List.length_reverse)

section Scanned

variable (scanned : v.Scanned pos) {it : FieldRangeVectorIterator V} {key k : List V} {i c : Nat}

/-! ### Values and cuts -/

variable {m : Nat}

theorem below_mono (le : place pos key m ≤ place pos k m) :
    below (pos m) (field key m) ≤ below (pos m) (field k m) := by
  rcases le.lt_or_eq with less | same
  · exact cut_le_iff.mpr (.inl less)
  · exact cut_le_iff.mpr (.inr ⟨same, id⟩)

theorem above_le_below (lt : place pos key m < place pos k m) :
    above (pos m) (field key m) ≤ below (pos m) (field k m) := cut_le_iff.mpr (.inl lt)

theorem Passed.mono (passed : v.Passed pos i c key) (le : place pos key i ≤ place pos k i) :
    v.Passed pos i c k :=
  fun t lt f at_t => (passed t lt f at_t).trans (below_mono le)

variable {f : FieldInterval V}

omit [ElementValues V] in
theorem At.getElem? (at_m : v.At it m f) (known : it.i m = some c) :
    (v.range m).intervals[c]? = some f := by
  obtain ⟨d, counter, here⟩ := at_m
  rw [known] at counter
  obtain rfl := Option.some.inj counter
  exact here

include scanned

theorem admits_covers (admits : v.Admits k) (lt : m < v.ranges.length) :
    Covers (v.scanCuts pos m) (below (pos m) (field k m)) :=
  (oriented_contains_iff scanned m _).mp (admits m lt)

/-- A pinned field has the value of any key that stands there. -/
theorem place_eq_of_pinned (stands : v.Stands pos it key m) (pinned : v.Pinned pos it k m) :
    place pos key m = place pos k m := by
  obtain ⟨f, ⟨c, known, here⟩, inside⟩ := stands
  obtain ⟨g, at_m, equality, inside'⟩ := pinned
  obtain rfl : f = g := Option.some.inj (here.symm.trans (at_m.getElem? known))
  simp only [FieldInterval.equality, Element.woCompare_false, decide_eq_true_eq,
    woCompareValues_eq_iff scanned m] at equality
  simp only [Inside, InRange, cuts, lowerCut, upperCut, below, cut_le_iff, cut_lt_iff]
    at inside inside'
  rw [place, place]
  grind

theorem agree_of_pinned (stands : ∀ m < i, v.Stands pos it key m)
    (pinned : ∀ m < i, v.Pinned pos it k m) : Agree i (place pos key) (place pos k) :=
  fun m lt => place_eq_of_pinned scanned (stands m lt) (pinned m lt)

section

variable (wellFormed : v.WellFormed)
include wellFormed

theorem ascending_at (lt : i < v.ranges.length) : Ascending (v.scanCuts pos i) :=
  (oriented_wellFormed_iff scanned i).mp (wellFormed.wellFormed i lt)

/-- Standing in an interval, the key is past those in front of it. -/
theorem passed_of_inside (lt : i < v.ranges.length) (here : (v.range i).intervals[c]? = some f)
    (start : (cuts (pos i) f).1 ≤ below (pos i) (field key i)) : v.Passed pos i c key := by
  intro t before g at_t
  have first : (v.scanCuts pos i)[t]? = some (cuts (pos i) g) := by simp [scanCuts, at_t]
  have second : (v.scanCuts pos i)[c]? = some (cuts (pos i) f) := by simp [scanCuts, here]
  exact ((ascending_at scanned wellFormed lt).le_of_lt before first second).trans start

/-- Past the intervals in front of one and before that one, a value is in none. -/
theorem not_covers_of_gap (lt : i < v.ranges.length) (here : (v.range i).intervals[c]? = some f)
    (passed : v.Passed pos i c key) (before : below (pos i) (field key i) < (cuts (pos i) f).1) :
    ¬ Covers (v.scanCuts pos i) (below (pos i) (field key i)) := by
  rintro ⟨r, mem, start, stop⟩
  obtain ⟨t, at_t⟩ := List.mem_iff_getElem?.mp mem
  have second : (v.scanCuts pos i)[c]? = some (cuts (pos i) f) := by simp [scanCuts, here]
  rcases Nat.lt_trichotomy t c with first | rfl | last
  · obtain ⟨g, at_g, rfl⟩ := List.getElem?_map ▸ at_t |> Option.map_eq_some_iff.mp
    exact absurd stop (not_lt.mpr (passed t first g at_g))
  · obtain rfl := Option.some.inj (second.symm.trans at_t)
    exact absurd start (not_le.mpr before)
  · have ascending := ascending_at scanned wellFormed lt
    have apart := ascending.le_of_lt last second at_t
    exact absurd (apart.trans start) (not_le.mpr (before.trans (ascending.proper_at second)))

/-! ### The counters for later keys -/

theorem right_of_start (lt : i < v.ranges.length) (here : (v.range i).intervals[c]? = some f)
    (start : (∀ m < i, v.Pinned pos it k m) → (cuts (pos i) f).1 ≤ below (pos i) (field k i)) :
    v.Right pos it k i c := by
  refine ⟨(List.getElem?_eq_some_iff.mp here).1, ?_, fun pinned =>
    passed_of_inside scanned wellFormed lt here (start pinned)⟩
  rintro rfl g there
  obtain rfl := Option.some.inj (here.symm.trans there)
  exact start fun m none => absurd none (Nat.not_lt_zero m)

/-- The counters that `advance` has set, for keys that come later. -/
theorem right_of_stands (lt : i < v.ranges.length) (stands : ∀ m ≤ i, v.Stands pos it key m)
    (later : Agree i (place pos key) (place pos k) → place pos key i ≤ place pos k i)
    (known : it.i i = some c) : v.Right pos it k i c := by
  obtain ⟨g, at_i, inside⟩ := stands i le_rfl
  refine right_of_start scanned wellFormed lt (at_i.getElem? known) fun pinned => ?_
  exact inside.1.trans
    (below_mono (later (agree_of_pinned scanned (fun m lt => stands m lt.le) pinned)))

omit scanned in
theorem Reset.right (reset : v.Reset it i) {j : Nat} (lt : i < j)
    (small : j < v.endNonUniversalRanges) (known : it.i j = some c) : v.Right pos it k j c := by
  rcases reset with zero | none
  · obtain rfl := Option.some.inj ((zero j lt).symm.trans known)
    exact ⟨List.length_pos_iff.mpr (wellFormed.nonempty j (lt_ranges small)), fun front => by omega,
      fun _ t none => absurd none (Nat.not_lt_zero t)⟩
  · cases (none j lt small).symm.trans known

omit scanned wellFormed in
theorem Reset.unknown (reset : v.Reset it i) {a b : Nat} (lt : i < a) (le : a ≤ b)
    (small : b < v.endNonUniversalRanges) (unset : it.i a = none) : it.i b = none := by
  rcases reset with zero | none
  · cases (zero a lt).symm.trans unset
  · exact none b (lt.trans_le le) small

/-- The counters for keys that come later, when `advance` stopped at field `i`. -/
theorem ready_after (lt : i < v.endNonUniversalRanges) (stands : ∀ m < i, v.Stands pos it key m)
    (known : it.i i = some c) (here : (v.range i).intervals[c]? = some f) (reset : v.Reset it i)
    (later : PrefixLe i (place pos key) (place pos k))
    (start : Agree i (place pos key) (place pos k) →
      (cuts (pos i) f).1 ≤ below (pos i) (field k i)) : v.Ready pos it k 0 := by
  have inside := lt_ranges lt
  refine ⟨fun a b _ le small unset => ?_, fun j _ small d counter => ?_⟩
  · rcases Nat.lt_trichotomy a i with before | rfl | after
    · obtain ⟨_, ⟨d, counter, _⟩, _⟩ := stands a before
      cases counter.symm.trans unset
    · cases known.symm.trans unset
    · exact reset.unknown after le small unset
  · rcases Nat.lt_trichotomy j i with before | rfl | after
    · exact right_of_stands scanned wellFormed (before.trans inside)
        (fun m le => stands m (le.trans_lt before)) (later.le_of_agree before) counter
    · obtain rfl := Option.some.inj (known.symm.trans counter)
      exact right_of_start scanned wellFormed inside here fun pinned =>
        start (agree_of_pinned scanned stands pinned)
    · exact reset.right wellFormed after small counter

end

/-! ### Where the loop over the fields stops -/

variable {r : Nat}

/-- The field has been gone past, and the fields between it and the last one with more values
are at their ends. -/
theorem not_admits_past (lt : i < v.ranges.length) (atEnd : ∀ m, r ≤ m → m < i → v.AtEnd pos m key)
    (past : ∀ f ∈ (v.range i).intervals, (cuts (pos i) f).2 ≤ below (pos i) (field key i))
    (later : PrefixLe v.ranges.length (place pos key) (place pos k))
    (same : Agree r (place pos key) (place pos k)) : ¬ v.Admits k := by
  intro admits
  rcases later.restrict lt.le with agree | ⟨m, before, agree, less⟩
  · obtain ⟨_, mem, _, stop⟩ := admits_covers scanned admits lt
    obtain ⟨f, listed, rfl⟩ := List.mem_map.mp mem
    exact absurd stop (not_lt.mpr ((past f listed).trans (below_mono (later.le_of_agree lt agree))))
  · have outside : r ≤ m := not_lt.mp fun inside => less.ne (same m inside)
    exact atEnd m outside before _ (above_le_below less)
      (admits_covers scanned admits (before.trans lt))

theorem reached_after_iff (after : it.after = true) :
    v.Reached it r key k ↔ PrefixLt r (place pos key) (place pos k) := by
  simp [Reached, after, prefixBefore_iff scanned]

/-- Skipping past the keys with a prefix. -/
theorem skips_after (after : it.after = true) (le : r ≤ v.ranges.length)
    (skipped : ∀ k, PrefixLe v.ranges.length (place pos key) (place pos k) →
      Agree r (place pos key) (place pos k) → ¬ v.Admits k)
    (ready : ∀ k, PrefixLt r (place pos key) (place pos k) → v.Ready pos it k 0) :
    v.Skips pos key r it := by
  refine ⟨le, ?_, fun k later short => ?_, fun exact_ => ?_, fun k _ reached => ?_⟩
  · rw [reached_after_iff scanned after]
    exact PrefixLt.irrefl _ (place pos key)
  · rw [reached_after_iff scanned after] at short
    rw [scanLe_iff scanned] at later
    exact skipped k later ((later.restrict le).resolve_right short)
  · cases after.symm.trans exact_
  · exact ready k ((reached_after_iff scanned after).mp reached)

variable {latest : Option Nat}

theorem pastLast_advised (wellFormed : v.WellFormed) (lt : i < v.endNonUniversalRanges)
    (stands : ∀ m < i, v.Stands pos it key m) (latest_lt : ∀ l, latest = some l → l < i)
    (atEnd : ∀ m < i, (∀ l, latest = some l → l < m) → v.AtEnd pos m key)
    (past : ∀ f ∈ (v.range i).intervals, (cuts (pos i) f).2 ≤ below (pos i) (field key i)) :
    ∃ a it', pastLast it latest = (.stop a, it') ∧ v.Advised pos key (a, it') := by
  have inside := lt_ranges lt
  cases latest with
  | none =>
    refine ⟨_, _, rfl, fun k later => ?_⟩
    exact not_admits_past scanned inside (r := 0) (fun m _ before => atEnd m before (by simp)) past
      ((scanLe_iff scanned).mp later) fun m none => absurd none (Nat.not_lt_zero m)
  | some l =>
    have l_lt := latest_lt l rfl
    refine ⟨_, _, rfl, skips_after scanned rfl (l_lt.trans inside) (fun k later same => ?_)
      fun k reached => ?_⟩
    · refine not_admits_past scanned inside (r := l + 1) (fun m after before => ?_) past later same
      exact atEnd m before fun l' eq => by cases eq; exact after
    · obtain ⟨f, ⟨c, known, here⟩, start, stop⟩ := stands l l_lt
      have le : PrefixLe (l + 1) (place pos key) (place pos k) := .inr reached
      refine ready_after scanned wellFormed (l_lt.trans lt) (i := l) (c := c) (fun m before => ?_)
        ?_ here (.inl fun j after => if_pos after) (le.restrict (Nat.le_succ l)) fun agree =>
          start.trans (below_mono (le.le_of_agree (Nat.lt_succ_self l) agree))
      · obtain ⟨g, ⟨d, counter, there⟩, mem⟩ := stands m (before.trans l_lt)
        refine ⟨g, ⟨d, ?_, there⟩, mem⟩
        rw [← counter]
        exact if_neg (by omega)
      · rw [← known]
        exact if_neg (by omega)

/-- Skipping the keys with the value of the field, which is in no interval. -/
theorem advised_past (wellFormed : v.WellFormed) (lt : i < v.endNonUniversalRanges)
    (stands : ∀ m < i, v.Stands pos it key m) (known : it.i i = some c)
    (here : (v.range i).intervals[c]? = some f) (reset : v.Reset it i)
    (passed : v.Passed pos i c key) (start : (cuts (pos i) f).1 = above (pos i) (field key i))
    (after : it.after = true) : v.Advised pos key (.skip (i + 1), it) := by
  have inside := lt_ranges lt
  refine skips_after scanned after inside (fun k _ agree admits => ?_) fun k reached => ?_
  · have same : below (pos i) (field k i) = below (pos i) (field key i) := by
      rw [below, below]
      exact congrArg (fun p => toLex (p, false)) (agree i (Nat.lt_succ_self i)).symm
    have covered := admits_covers scanned admits inside
    rw [same] at covered
    exact not_covers_of_gap scanned wellFormed inside here passed
      ((below_lt_above _).trans_eq start.symm) covered
  · have le : PrefixLe (i + 1) (place pos key) (place pos k) := .inr reached
    refine ready_after scanned wellFormed lt stands known here reset (le.restrict (Nat.le_succ i))
      fun agree => ?_
    obtain ⟨m, before, _, less⟩ := reached
    obtain rfl : m = i := (Nat.lt_succ_iff_lt_or_eq.mp before).resolve_left
      fun lt => less.ne (agree m lt)
    exact start.trans_le (above_le_below less)

omit scanned in
theorem getElem?_frontLower (wellFormed : v.WellFormed) {j : Nat} (lt : j < v.ranges.length) :
    ∃ f, (v.range j).intervals[0]? = some f ∧ v.frontLower j = f.lower := by
  obtain ⟨f, rest, eq⟩ := List.exists_cons_of_ne_nil (wellFormed.nonempty j lt)
  exact ⟨f, by simp [eq], by simp [frontLower, eq]⟩

theorem short_iff {j : Nat} (b : FieldBound V) :
    (scanCompare (v.reverse j) (field k j) b.bound.value < 0 ∨
      scanCompare (v.reverse j) (field k j) b.bound.value = 0 ∧ ¬ b.inclusive) ↔
      below (pos j) (field k j) < lowerCut (pos j) b := by
  simp [scanned.lt_iff, scanned.eq_iff, below, lowerCut, cut_lt_iff]

/-- Skipping to the lower bound of an interval. -/
theorem advised_lower (wellFormed : v.WellFormed) (lt : i < v.endNonUniversalRanges)
    (stands : ∀ m < i, v.Stands pos it key m) (known : it.i i = some c)
    (here : (v.range i).intervals[c]? = some f) (reset : v.Reset it i)
    (passed : v.Passed pos i c key) (before : below (pos i) (field key i) < (cuts (pos i) f).1) :
    v.Advised pos key (.skip i, v.advanceToLowerBound it i f.lower) := by
  have inside := lt_ranges lt
  have here_cmp : (v.advanceToLowerBound it i f.lower).cmp i = f.lower := by
    simp [advanceToLowerBound]
  have short_of : ∀ k, below (pos i) (field k i) < (cuts (pos i) f).1 →
      v.ShortOf (v.advanceToLowerBound it i f.lower) i k := fun k less => by
    refine ⟨i, inside, le_rfl, fun m lt le => absurd lt (not_lt.mpr le), ?_⟩
    rw [here_cmp, short_iff scanned]
    exact less
  -- a key that falls short of the position in a field has a value there that is in no interval
  have gap : ∀ j k, i ≤ j → j < v.ranges.length →
      (i = j → place pos key i ≤ place pos k i) → below (pos j) (field k j) <
        lowerCut (pos j) ((v.advanceToLowerBound it i f.lower).cmp j) → ¬ v.Admits k := by
    intro j k from_i small le short admits
    rcases from_i.eq_or_lt with rfl | after
    · rw [here_cmp] at short
      exact not_covers_of_gap scanned wellFormed inside here (passed.mono (le rfl)) short
        (admits_covers scanned admits inside)
    · obtain ⟨g, at_0, eq⟩ := getElem?_frontLower wellFormed small
      have cmp_j : (v.advanceToLowerBound it i f.lower).cmp j = g.lower := by
        simp [advanceToLowerBound, eq, not_lt.mpr from_i, after.ne']
      rw [cmp_j] at short
      exact not_covers_of_gap scanned wellFormed small at_0
        (fun t none => absurd none (Nat.not_lt_zero t)) short (admits_covers scanned admits small)
  refine ⟨inside.le, ?_, fun k later short => ?_, fun _ j from_i small excluded k same => ?_,
    fun k later reached => ?_⟩
  · rintro (less | ⟨_, _, beyond⟩)
    · exact PrefixLt.irrefl _ _ ((prefixBefore_iff scanned).mp less)
    · exact beyond (short_of key before)
  · rw [scanLe_iff scanned] at later
    have agree : Agree i (place pos key) (place pos k) := (later.restrict inside.le).resolve_right
      fun less => short (.inl ((prefixBefore_iff scanned).mpr less))
    have falls : v.ShortOf (v.advanceToLowerBound it i f.lower) i k := by
      by_contra beyond
      exact short (.inr ⟨rfl, (samePrefix_iff scanned).mpr agree, beyond⟩)
    obtain ⟨j, small, from_i, _, short_j⟩ := falls
    exact gap j k from_i small (fun _ => later.le_of_agree inside agree)
      ((short_iff scanned _).mp short_j)
  · rw [woCompareValues_eq_iff scanned j] at same
    refine gap j k from_i small (fun eq => ?_)
      (cut_lt_iff.mpr (.inr ⟨same, rfl, by simpa using excluded⟩))
    subst eq
    rw [here_cmp] at same
    exact (le_of_cut_le before.le).trans_eq same.symm
  · refine ready_after scanned wellFormed lt stands known here reset
      (((scanLe_iff scanned).mp later).restrict inside.le) fun agree => ?_
    rcases reached with less | ⟨_, _, beyond⟩
    · exact absurd agree ((prefixBefore_iff scanned).mp less).not_agree
    · exact not_lt.mp fun less => beyond (short_of k less)

/-! ### One field -/

variable {it' : FieldRangeVectorIterator V}

omit scanned in
theorem Stands.congr (same : it'.i m = it.i m) (stands : v.Stands pos it key m) :
    v.Stands pos it' key m := by
  obtain ⟨f, ⟨c, known, here⟩, inside⟩ := stands
  exact ⟨f, ⟨c, same.trans known, here⟩, inside⟩

omit scanned in
theorem Pinned.congr (same : it'.i m = it.i m) (pinned : v.Pinned pos it key m) :
    v.Pinned pos it' key m := by
  obtain ⟨f, ⟨c, known, here⟩, equality, inside⟩ := pinned
  exact ⟨f, ⟨c, same.trans known, here⟩, equality, inside⟩

theorem atEnd_of_last (wellFormed : v.WellFormed) (lt : i < v.ranges.length)
    (here : (v.range i).intervals[c]? = some f) (last : (v.range i).intervals.length = c + 1)
    (stop : (cuts (pos i) f).2 ≤ above (pos i) (field key i)) : v.AtEnd pos i key := by
  rintro p le ⟨r, mem, _, within⟩
  obtain ⟨t, at_t⟩ := List.mem_iff_getElem?.mp mem
  have ascending := ascending_at scanned wellFormed lt
  have second : (v.scanCuts pos i)[c]? = some (cuts (pos i) f) := by simp [scanCuts, here]
  have small : t < c + 1 := by
    have := (List.getElem?_eq_some_iff.mp at_t).1
    simpa [scanCuts, last] using this
  have ends : r.2 ≤ (cuts (pos i) f).2 := by
    rcases Nat.lt_succ_iff_lt_or_eq.mp small with before | rfl
    · exact (ascending.le_of_lt before at_t second).trans (ascending.proper_at second).le
    · exact (Option.some.inj (at_t.symm.trans second)).symm ▸ le_rfl
  exact absurd (within.trans_le (ends.trans stop)) (not_lt.mpr le)

theorem validateCurrentInterval_spec (wellFormed : v.WellFormed)
    (lt : i < v.endNonUniversalRanges) (stands : ∀ m < i, v.Stands pos it key m)
    (known : it.i i = some c) (here : (v.range i).intervals[c]? = some f)
    (passed : v.Passed pos i c key) {first : Bool}
    (front : i = 0 → first = true → (cuts (pos i) f).1 ≤ below (pos i) (field key i)) :
    (v.validateCurrentInterval it i f (field key i) first = (.past, it) ∧
      (cuts (pos i) f).2 ≤ below (pos i) (field key i)) ∨
    (v.validateCurrentInterval it i f (field key i) first).1 ≠ .past ∧
      v.FoundFor pos it key i (v.validateCurrentInterval it i f (field key i) first) := by
  have inside := lt_ranges lt
  have proper : (cuts (pos i) f).1 < (cuts (pos i) f).2 :=
    (ascending_at scanned wellFormed inside).proper_at (t := c) (by simp [scanCuts, here])
  have ge : 0 ≤ scanCompare (v.reverse i) (field key i) f.upper.bound.value ↔
      pos i f.upper.bound.value ≤ pos i (field key i) := by
    rw [← not_lt, scanned.lt_iff, not_lt]
  have before : ∀ m < i, (it.setZeroes (i + 1)).i m = it.i m := fun m lt => if_neg (by omega)
  have counter : (it.setZeroes (i + 1)).i i = some c := (if_neg (by omega)).trans known
  have reset : v.Reset (it.setZeroes (i + 1)) i := .inl fun j after => if_pos after
  rw [validateCurrentInterval]
  simp only [ge_iff_le, ge, scanned.lt_iff, scanned.eq_iff]
  split_ifs with atUpper beyond unchecked atLower short
  · have stop : (cuts (pos i) f).2 = above (pos i) (field key i) := by
      rw [cuts, upperCut, above, atUpper.1, atUpper.2]
    refine .inr ⟨by simp, fun _ _ => rfl, .inl rfl, c, f, known, here, ?_, fun _ => stop.le⟩
    exact ⟨le_below_of_lt_above (proper.trans_eq stop), (below_lt_above _).trans_eq stop.symm⟩
  · refine .inl ⟨rfl, cut_le_iff.mpr ?_⟩
    rcases beyond.lt_or_eq with less | same
    · exact .inl less
    · exact .inr ⟨same, fun inclusive => absurd ⟨same.symm, inclusive⟩ atUpper⟩
  · exact .inr ⟨by simp, fun _ _ => rfl, .inl rfl, c, f, known, here,
      ⟨front unchecked.1 unchecked.2, cut_lt_iff.mpr (.inl (not_le.mp beyond))⟩, by simp⟩
  · have start : (cuts (pos i) f).1 = above (pos i) (field key i) := by
      rw [cuts, lowerCut, above, atLower.1]
      simp [atLower.2]
    exact .inr ⟨by simp, advised_past scanned wellFormed lt
      (fun m lt => (stands m lt).congr (before m lt)) counter here reset passed start rfl⟩
  · exact .inr ⟨by simp, advised_lower scanned wellFormed lt
      (fun m lt => (stands m lt).congr (before m lt)) counter here reset passed
      (cut_lt_iff.mpr (.inl short))⟩
  · refine .inr ⟨by simp, fun _ _ => rfl, .inl rfl, c, f, known, here,
      ⟨cut_le_iff.mpr ?_, cut_lt_iff.mpr (.inl (not_le.mp beyond))⟩, by simp⟩
    rcases (not_lt.mp short).lt_or_eq with less | same
    · exact .inl less
    · exact .inr ⟨same, fun excluded => absurd ⟨same.symm, by simpa using excluded⟩ atLower⟩

/-- The loop over the intervals keeps to the ones that the key is not past yet. -/
theorem findInterval_spec (wellFormed : v.WellFormed) (lt : i < v.endNonUniversalRanges)
    (rest : List (FieldInterval V)) (c : Nat) (it : FieldRangeVectorIterator V) (first : Bool)
    (left : (v.range i).intervals.drop c = rest) (stands : ∀ m < i, v.Stands pos it key m)
    (known : it.i i = some c) (passed : v.Passed pos i c key)
    (front : i = 0 → first = true → ∀ f, (v.range i).intervals[c]? = some f →
      (cuts (pos i) f).1 ≤ below (pos i) (field key i)) :
    v.FoundFor pos it key i (v.findInterval i (field key i) rest first it) := by
  induction rest generalizing c it first with
  | nil =>
    refine ⟨fun _ _ => rfl, fun f mem => ?_⟩
    obtain ⟨t, at_t⟩ := List.mem_iff_getElem?.mp mem
    have := (List.getElem?_eq_some_iff.mp at_t).1
    have := List.drop_eq_nil_iff.mp left
    exact passed t (by omega) f at_t
  | cons f rest ih =>
    have here : (v.range i).intervals[c]? = some f := by
      rw [← List.head?_drop, left, List.head?_cons]
    have front_f : i = 0 → first = true → (cuts (pos i) f).1 ≤ below (pos i) (field key i) :=
      fun zero checked => front zero checked f here
    rw [findInterval]
    rcases validateCurrentInterval_spec scanned wellFormed lt stands known here passed front_f with
      ⟨past, stop⟩ | ⟨other, found⟩
    · rw [past]
      dsimp only
      rw [known, Option.getD_some]
      have before : ∀ m < i, ((it.set i (c + 1)).setZeroes (i + 1)).i m = it.i m := fun m lt => by
        simp only [FieldRangeVectorIterator.setZeroes, FieldRangeVectorIterator.set]
        rw [if_neg (by omega), if_neg (by omega)]
      have after : ∀ j, i < j → ((it.set i (c + 1)).setZeroes (i + 1)).i j = some 0 :=
        fun j lt => if_pos lt
      have tail := ih (c + 1) ((it.set i (c + 1)).setZeroes (i + 1)) false
        (by rw [← List.tail_drop, left, List.tail_cons])
        (fun m lt => (stands m lt).congr (before m lt))
        (by simp [FieldRangeVectorIterator.setZeroes, FieldRangeVectorIterator.set])
        (fun t small g at_t => by
          rcases Nat.lt_succ_iff_lt_or_eq.mp small with earlier | rfl
          · exact passed t earlier g at_t
          · exact (Option.some.inj (here.symm.trans at_t)) ▸ stop)
        (by simp)
      revert tail
      generalize v.findInterval i (field key i) rest false _ = result
      obtain ⟨found, it'⟩ := result
      cases found with
      | inside eq =>
        rintro ⟨same, zeroes, inside⟩
        refine ⟨fun m lt => (same m lt).trans (before m lt), .inr ?_, inside⟩
        rcases zeroes with rfl | zeroes
        · exact .inl after
        · exact zeroes
      | past =>
        rintro ⟨same, all⟩
        exact ⟨fun m lt => (same m lt).trans (before m lt), all⟩
      | skip r => exact id
    · revert other found
      generalize v.validateCurrentInterval it i f (field key i) first = result
      obtain ⟨found, it'⟩ := result
      cases found with
      | inside eq => exact fun _ found => found
      | past => exact fun other _ => absurd rfl other
      | skip r => exact fun _ found => found

omit scanned in
/-- The counters that are not to be relied on have been made unknown. -/
theorem Visit.entered (visit : v.Visit pos it key i latest)
    (eq : it' = if i > 0 ∧ ¬ v.equalityAt it (i - 1) then it.setUnknowns i else it) :
    v.Visit pos it' key i latest ∧
      (i < v.endNonUniversalRanges → it'.i i ≠ none → ∀ m < i, v.Pinned pos it' key m) := by
  subst eq
  split_ifs with reset
  · have kept : ∀ m < i, (it.setUnknowns i).i m = it.i m := fun m lt => if_neg (by omega)
    have unset : ∀ j, i ≤ j → (it.setUnknowns i).i j = none := fun j le => if_pos le
    refine ⟨⟨fun m lt => (visit.stands m lt).congr (kept m lt), ⟨fun j k le le' _ _ =>
      unset k (le.trans le'), fun j le _ c known => ?_⟩, fun j le _ known =>
      absurd (unset j le) known, visit.latest_lt, visit.atEnd⟩, fun _ known =>
      absurd (unset i le_rfl) known⟩
    cases (unset j le).symm.trans known
  · refine ⟨visit, fun small known m lt => ?_⟩
    rcases Nat.lt_or_ge (m + 1) i with before | last
    · exact visit.pinned i le_rfl small known m before
    · obtain ⟨f, ⟨c, counter, here⟩, inside⟩ := visit.stands m lt
      obtain rfl : m = i - 1 := by omega
      have equality : v.equalityAt it (i - 1) = true := by
        by_contra other
        exact reset ⟨by omega, other⟩
      simp only [equalityAt, counter, here, Option.any_some] at equality
      exact ⟨f, ⟨c, counter, here⟩, equality, inside⟩

omit scanned in
/-- The field stands in an interval that contains its value. -/
theorem Visit.go (visit : v.Visit pos it key i latest) (same : ∀ m < i, it'.i m = it.i m)
    (known : it'.i i = some c) (here : (v.range i).intervals[c]? = some f)
    (inside : Inside pos i f key) (wellFormed : v.WellFormed) (rest : it' = it ∨ v.Reset it' i)
    (pinned : (∀ m < i, v.Pinned pos it key m) ∨
      ∀ j, i < j → j < v.endNonUniversalRanges → it'.i j = none)
    {latest' : Option Nat} (ends : latest' = some i ∨ latest' = latest ∧ v.AtEnd pos i key) :
    v.Visit pos it' key (i + 1) latest' := by
  refine ⟨fun m lt => ?_, ⟨fun j k le le' small unset => ?_, fun j le small d counter => ?_⟩,
    fun j le small set m lt => ?_, fun l eq => ?_, fun m lt last => ?_⟩
  · rcases Nat.lt_succ_iff_lt_or_eq.mp lt with before | rfl
    · exact (visit.stands m before).congr (same m before)
    · exact ⟨f, ⟨c, known, here⟩, inside⟩
  · rcases rest with rfl | reset
    · exact visit.ready.unknown j k (by omega) le' small unset
    · exact reset.unknown le le' small unset
  · rcases rest with rfl | reset
    · exact visit.ready.right j (by omega) small d counter
    · exact reset.right wellFormed le small counter
  · rcases pinned with pinned | none
    · exact (pinned m (by omega)).congr (same m (by omega))
    · exact absurd (none j le small) set
  · rcases ends with rfl | ⟨rfl, _⟩
    · cases eq
      exact Nat.lt_succ_self i
    · exact (visit.latest_lt l eq).trans (Nat.lt_succ_self i)
  · rcases ends with rfl | ⟨rfl, atEnd⟩
    · have := last i rfl
      omega
    · rcases Nat.lt_succ_iff_lt_or_eq.mp lt with before | rfl
      · exact visit.atEnd m before last
      · exact atEnd

section

variable (wellFormed : v.WellFormed)
include wellFormed

theorem pastLast_stepped (lt : i < v.endNonUniversalRanges) (visit : v.Visit pos it key i latest)
    (same : ∀ m < i, it'.i m = it.i m)
    (past : ∀ f ∈ (v.range i).intervals, (cuts (pos i) f).2 ≤ below (pos i) (field key i)) :
    v.Stepped pos key i (pastLast it' latest) := by
  obtain ⟨a, it'', eq, advised⟩ := pastLast_advised scanned wellFormed lt
    (fun m before => (visit.stands m before).congr (same m before)) visit.latest_lt visit.atEnd past
  rw [eq]
  exact advised

theorem searchField_spec (searchable : v.Searchable) (lt : i < v.endNonUniversalRanges)
    (visit : v.Visit pos it key i latest) (unset : it.i i = none) :
    v.Stepped pos key i (v.searchField it i (field key i) latest) := by
  have inside := lt_ranges lt
  have kept : ∀ c, ∀ m < i, (it.set i c).i m = it.i m := fun c m before => if_neg before.ne
  have known : ∀ c, (it.set i c).i i = some c := fun c => if_pos rfl
  have rest : ∀ c j, i < j → j < v.endNonUniversalRanges → (it.set i c).i j = none :=
    fun c j after small =>
      (if_neg after.ne').trans (visit.ready.unknown i j le_rfl after.le small unset)
  have stands : ∀ c, ∀ m < i, v.Stands pos (it.set i c) key m :=
    fun c m before => (visit.stands m before).congr (kept c m before)
  have located := searchable.located scanned wellFormed inside (field key i)
  rw [searchField]
  revert located
  generalize matchingLowElement (v.range i).intervals (!v.reverse i) (field key i) = result
  intro located
  cases located with
  | @inside t f lowEquality at_t mem =>
    have small := (List.getElem?_eq_some_iff.mp at_t).1
    have even : (2 * (t : Int)) % 2 = 0 := by omega
    have half : (2 * (t : Int) / 2).toNat = t := by omega
    simp only [even, if_true, half]
    refine visit.go (kept t) (known t) at_t mem wellFormed (.inr (.inr (rest t))) (.inr (rest t)) ?_
    split_ifs with more
    · exact .inl rfl
    · refine .inr ⟨rfl, atEnd_of_last scanned wellFormed inside at_t (by omega) ?_⟩
      have same : woCompareValues f.upper.bound.value (field key i) = 0 := by
        by_contra other
        exact more (.inr ⟨by omega, by simp [at_t, other]⟩)
      rw [woCompareValues_eq_iff scanned i] at same
      exact cut_le_iff.mpr (.inr ⟨same, fun _ => rfl⟩)
  | @before t lowEquality le past next low =>
    have odd : ¬ (2 * (t : Int) - 1) % 2 = 0 := by omega
    have half : ((2 * (t : Int) - 1 + 1) / 2).toNat = t := by omega
    simp only [odd, if_false, half]
    split_ifs with last equal
    · refine pastLast_stepped scanned wellFormed lt visit (fun _ _ => rfl) fun f mem => ?_
      obtain ⟨s, at_s⟩ := List.mem_iff_getElem?.mp mem
      have := (List.getElem?_eq_some_iff.mp at_s).1
      exact past s (by omega) f at_s
    · obtain ⟨f, at_t, start⟩ := low equal
      have stands' : ∀ m < i, v.Stands pos (it.set i t).advancePast key m := stands t
      exact advised_past scanned wellFormed lt stands' (known t) at_t (.inr (rest t)) past start rfl
    · obtain ⟨f, at_t⟩ : ∃ f, (v.range i).intervals[t]? = some f :=
        ⟨_, List.getElem?_eq_getElem (by omega)⟩
      rw [at_t, Option.map_some, Option.getD_some]
      exact advised_lower scanned wellFormed lt (stands t) (known t) at_t (.inr (rest t)) past
        (next f at_t)

theorem followField_spec (lt : i < v.endNonUniversalRanges) (visit : v.Visit pos it key i latest)
    (known : it.i i = some c) (pinned : ∀ m < i, v.Pinned pos it key m) :
    v.Stepped pos key i (v.followField it i c (field key i) latest) := by
  have inside := lt_ranges lt
  have right := visit.ready.right i le_rfl lt c known
  have found := findInterval_spec scanned wellFormed lt _ c it true rfl visit.stands known
    (right.passed pinned) fun zero _ => right.front zero
  rw [followField]
  revert found
  generalize v.findInterval i (field key i) ((v.range i).intervals.drop c) true it = result
  obtain ⟨found, it'⟩ := result
  cases found with
  | skip r => exact id
  | past =>
    rintro ⟨same, past⟩
    exact pastLast_stepped scanned wellFormed lt visit same past
  | inside eq =>
    rintro ⟨same, zeroes, d, f, counter, here, mem, stop⟩
    have small := (List.getElem?_eq_some_iff.mp here).1
    simp only [counter, Option.getD_some]
    refine visit.go same counter here mem wellFormed zeroes (.inl pinned) ?_
    split_ifs with more
    · exact .inl rfl
    · refine .inr ⟨rfl, atEnd_of_last scanned wellFormed inside here (by omega) (stop ?_)⟩
      by_contra open_
      exact more (.inr ⟨open_, by omega⟩)

theorem advanceField_spec (searchable : v.Searchable) (lt : i < v.endNonUniversalRanges)
    (visit : v.Visit pos it key i latest) :
    v.Stepped pos key i (v.advanceField key i latest it) := by
  obtain ⟨visit, pinned⟩ := visit.entered rfl
  rw [advanceField]
  cases known : (if i > 0 ∧ ¬ v.equalityAt it (i - 1) then it.setUnknowns i else it).i i with
  | none => exact searchField_spec scanned wellFormed searchable lt visit known
  | some c =>
    exact followField_spec scanned wellFormed lt visit known (pinned lt (by
      rw [known]
      exact Option.some_ne_none c))

/-! ### The loop over the fields -/

/-- All fields stand in intervals that contain their values. -/
theorem Visit.advised (universal : v.TrailingUniversal)
    (visit : v.Visit pos it key v.endNonUniversalRanges latest) :
    v.Advised pos key (.next, it) := by
  have front : ∀ i < v.endNonUniversalRanges, (v.oriented i).Contains (field key i) :=
    fun i before => by
      obtain ⟨f, ⟨c, _, here⟩, mem⟩ := visit.stands i before
      rw [oriented_contains_iff scanned]
      exact ⟨cuts (pos i) f, List.mem_map_of_mem (List.mem_of_getElem? here), mem⟩
  refine ⟨fun i lt => ?_, fun k later => ?_⟩
  · rcases Nat.lt_or_ge i v.endNonUniversalRanges with before | trailing
    · exact front i before
    · exact universal key front i trailing lt
  · rw [scanLe_iff scanned] at later
    refine ⟨fun a b _ le small unset => ?_, fun j _ small d counter => ?_⟩
    · obtain ⟨_, ⟨c, known, _⟩, _⟩ := visit.stands a (le.trans_lt small)
      cases known.symm.trans unset
    · exact right_of_stands scanned wellFormed (lt_ranges small)
        (fun m le => visit.stands m (le.trans_lt small)) (later.le_of_agree (lt_ranges small))
        counter

theorem advanceLoop_spec (searchable : v.Searchable) (universal : v.TrailingUniversal)
    (rounds : Nat) (left : i + rounds = v.endNonUniversalRanges)
    (visit : v.Visit pos it key i latest) :
    v.Advised pos key (v.advanceLoop key rounds i latest it) := by
  induction rounds generalizing i latest it with
  | zero =>
    obtain rfl : i = v.endNonUniversalRanges := left
    exact visit.advised scanned wellFormed universal
  | succ rounds ih =>
    have stepped := advanceField_spec scanned wellFormed searchable (by omega) visit
    rw [advanceLoop]
    revert stepped
    generalize v.advanceField key i latest it = result
    obtain ⟨step, it'⟩ := result
    cases step with
    | stop a => exact id
    | go latest => exact fun visit => ih (by omega) visit

/-- The advice is right for every key the counters are right for. -/
theorem advance_advised (searchable : v.Searchable) (universal : v.TrailingUniversal)
    (ready : v.Ready pos it key 0) : v.Advised pos key (v.advance it key) := by
  refine advanceLoop_spec scanned wellFormed searchable universal _ (Nat.zero_add _) ?_
  exact ⟨fun m lt => by omega, ready, fun _ _ _ _ m lt => by omega,
    fun l eq => (Option.some_ne_none l eq.symm).elim, fun m lt => by omega⟩

end

/-! ### The loop over the keys -/

/-- A position that a key has reached, later keys have reached. -/
theorem Reached.mono (le : r ≤ v.ranges.length) {k' : List V} (reached : v.Reached it r key k)
    (later : v.ScanLe k k') : v.Reached it r key k' := by
  rw [scanLe_iff scanned] at later
  rcases reached with less | ⟨exact_, same, beyond⟩
  · rw [prefixBefore_iff scanned] at less
    rcases later.restrict le with agree | less'
    · exact .inl ((prefixBefore_iff scanned).mpr (less.trans_agree agree))
    · exact .inl ((prefixBefore_iff scanned).mpr (less.trans less'))
  · rw [samePrefix_iff scanned] at same
    rcases later.restrict le with agree | less'
    · refine .inr ⟨exact_, (samePrefix_iff scanned).mpr (same.trans agree), fun short => beyond ?_⟩
      -- the earlier key falls short where it first differs, or where the later one does
      obtain ⟨j, small, from_r, equal, short⟩ := short
      rw [short_iff scanned] at short
      simp only [scanned.eq_iff] at equal
      rcases later.restrict small.le with agree' | ⟨m, before, agree', less⟩
      · refine ⟨j, small, from_r, fun i lt ge => ?_, (short_iff scanned _).mpr
          ((below_mono (later.le_of_agree small agree')).trans_lt short)⟩
        rw [scanned.eq_iff]
        exact ⟨(agree' i lt).trans (equal i lt ge).1, (equal i lt ge).2⟩
      · have from_m : r ≤ m := not_lt.mp fun inside => less.ne (agree m inside)
        refine ⟨m, before.trans small, from_m, fun i lt ge => ?_, .inl ?_⟩
        · have same_i := equal i (lt.trans before) ge
          rw [scanned.eq_iff]
          exact ⟨(agree' i lt).trans same_i.1, same_i.2⟩
        · rw [scanned.lt_iff, ← (equal m before from_m).1]
          exact less
    · exact .inl ((prefixBefore_iff scanned).mpr (.agree_trans same less'))

omit scanned in
theorem ready_create : v.Ready pos (v.prepDive .create) k 0 :=
  ⟨fun _ _ _ _ _ _ => rfl, nofun⟩

omit [LinearOrder P] scanned in
/-- Keys are only skipped if the vector does not admit them. -/
theorem filter_dropWhile {keys : List (List V)} (later : ∀ k ∈ keys, v.ScanLe key k)
    (skipped : ∀ k, v.ScanLe key k → ¬ v.Reached it r key k → ¬ v.Admits k)
    (searchable : v.Searchable) :
    (keys.dropWhile fun k => ¬ v.Reached it r key k).filter v.matchesKey =
      keys.filter v.matchesKey := by
  have dropped : ∀ k ∈ keys.takeWhile fun k => ¬ v.Reached it r key k, ¬ v.matchesKey k := by
    intro k mem
    rw [v.matchesKey_iff searchable]
    have short := List.mem_takeWhile_imp mem
    exact skipped k (later k (List.takeWhile_subset _ mem)) (by simpa using short)
  nth_rewrite 2 [← List.takeWhile_append_dropWhile (p := fun k => ¬ v.Reached it r key k)
    (l := keys)]
  rw [List.filter_append, List.filter_eq_nil_iff.mpr dropped, List.nil_append]

theorem reached_of_mem_dropWhile (le : r ≤ v.ranges.length) {keys : List (List V)}
    (sorted : keys.Pairwise v.ScanLe) (mem : k ∈ keys.dropWhile fun k => ¬ v.Reached it r key k) :
    v.Reached it r key k := by
  have left := sorted.sublist (List.dropWhile_sublist fun k => ¬ v.Reached it r key k)
  have first := List.head?_dropWhile_not (fun k => ¬ v.Reached it r key k) keys
  revert mem left first
  generalize (keys.dropWhile fun k => ¬ v.Reached it r key k) = kept
  intro mem left first
  cases kept with
  | nil => cases mem
  | cons k' kept =>
    have here : v.Reached it r key k' := by simpa using first
    rcases List.mem_cons.mp mem with rfl | mem
    · exact here
    · exact here.mono scanned le ((List.pairwise_cons.mp left).1 k mem)

theorem scan_eq_of_ready (wellFormed : v.WellFormed) (searchable : v.Searchable)
    (universal : v.TrailingUniversal) (keys : List (List V)) (sorted : keys.Pairwise v.ScanLe)
    (ready : ∀ k ∈ keys, v.Ready pos it k 0) : v.scan it keys = keys.filter v.matchesKey := by
  have advise : ∀ {it key}, v.Ready pos it key 0 → v.Advised pos key (v.advance it key) :=
    advance_advised scanned wellFormed searchable universal
  fun_induction scan v it keys with
  | case1 => rfl
  | case2 it key rest it' next ih =>
    have advised := advise (ready key List.mem_cons_self)
    rw [next] at advised
    obtain ⟨later, sorted⟩ := List.pairwise_cons.mp sorted
    rw [List.filter_cons_of_pos ((v.matchesKey_iff searchable key).mpr advised.1),
      ih sorted fun k mem => advised.2 k (later k mem)]
  | case3 it key rest it' finished =>
    have advised := advise (ready key List.mem_cons_self)
    rw [finished] at advised
    refine (List.filter_eq_nil_iff.mpr fun k mem => ?_).symm
    rw [v.matchesKey_iff searchable]
    refine advised k ?_
    rcases List.mem_cons.mp mem with rfl | mem
    · exact (scanLe_iff scanned).mpr (.refl _ _)
    · exact (List.pairwise_cons.mp sorted).1 k mem
  | case4 it key rest r it' skip ih =>
    have advised := advise (ready key List.mem_cons_self)
    rw [skip] at advised
    obtain ⟨bounded, behind, skipped, _, ready'⟩ := advised
    obtain ⟨later, sorted⟩ := List.pairwise_cons.mp sorted
    have not_admits : ¬ v.matchesKey key := by
      rw [v.matchesKey_iff searchable]
      exact skipped key ((scanLe_iff scanned).mpr (.refl _ _)) behind
    have sub := List.dropWhile_sublist (l := rest) fun k => ¬ v.Reached it' r key k
    rw [ih (sorted.sublist sub) fun k mem => ready' k (later k (sub.subset mem))
        (reached_of_mem_dropWhile scanned bounded sorted mem),
      filter_dropWhile later skipped searchable, List.filter_cons_of_neg not_admits]

end Scanned

/-- With all counters unknown a key that lies in the ranges in front is taken. -/
theorem advanceLoop_of_contains (searchable : v.Searchable) {key : List V} (rounds i : Nat)
    (latest : Option Nat) (it : FieldRangeVectorIterator V)
    (left : i + rounds = v.endNonUniversalRanges)
    (unset : ∀ j, i ≤ j → it.i j = none)
    (front : ∀ i < v.endNonUniversalRanges, (v.oriented i).Contains (field key i)) :
    (v.advanceLoop key rounds i latest it).1 = .next := by
  induction rounds generalizing i latest it with
  | zero => rfl
  | succ rounds ih =>
    have even :
        (matchingLowElement (v.range i).intervals (!v.reverse i) (field key i)).1 % 2 = 0 := by
      have found := (searchable i (lt_ranges (by omega)) (field key i)).mpr (front i (by omega))
      rwa [matchesElement, v.forward_eq, decide_eq_true_eq] at found
    have entered : ∀ j, i ≤ j →
        (if i > 0 ∧ ¬ v.equalityAt it (i - 1) then it.setUnknowns i else it).i j = none := by
      intro j le
      split_ifs
      · exact if_pos le
      · exact unset j le
    rw [advanceLoop, advanceField]
    simp only [entered i le_rfl, searchField, even, if_true]
    refine ih (i + 1) _ _ (by omega) fun j le => ?_
    exact (if_neg (by omega)).trans (entered j (by omega))

/-- Where the binary search is right, the loop takes the keys for which `matchesKey` is true and
no others, unless ranges at the end are wrongly taken for universal. -/
theorem scan_exact_iff {R : Type} [LinearOrder R] {rank : V → R} (ranked : Ranked rank)
    (wellFormed : v.WellFormed) (searchable : v.Searchable) :
    (∀ keys : List (List V), keys.Pairwise v.ScanLe →
      v.scan (v.prepDive .create) keys = keys.filter v.matchesKey) ↔ v.TrailingUniversal := by
  have scanned := scanned_of_ranked (v := v) ranked
  constructor
  · intro exact_ key front i _ lt
    have taken : (v.advance (v.prepDive .create) key).1 = .next :=
      advanceLoop_of_contains searchable _ 0 none _ (Nat.zero_add _)
        (fun _ _ => rfl) front
    have alone := exact_ [key] (List.pairwise_singleton _ _)
    rw [scan] at alone
    revert taken alone
    generalize v.advance (v.prepDive .create) key = result
    obtain ⟨a, it⟩ := result
    rintro rfl alone
    have member : key ∈ [key].filter v.matchesKey := alone ▸ List.mem_cons_self
    exact (v.matchesKey_iff searchable key).mp (List.mem_filter.mp member).2 i lt
  · intro universal keys sorted
    exact scan_eq_of_ready scanned wellFormed searchable universal keys sorted
      fun _ _ => ready_create

/-- An ascending field between 1 and 2 or 4, and a descending one from 5 down to 3. -/
def twoFields : FieldRangeVector RegularValue where
  keyPattern := [1, -1]
  direction := 1
  ranges := [
    .ofIntervals [.closed (regularInt 1) (regularInt 2), .closed (regularInt 4) (regularInt 4)],
    .ofIntervals [.closed (regularInt 5) (regularInt 3)]]

theorem scan_exact_iff_twoFields : twoFields.WellFormed ∧ twoFields.Searchable ∧
    ∀ keys, keys.Pairwise twoFields.ScanLe →
      twoFields.scan (twoFields.prepDive .create) keys = keys.filter twoFields.matchesKey := by
  have wellFormed : twoFields.WellFormed := by
    refine ⟨by decide, fun i lt => ?_⟩
    have cases : i = 0 ∨ i = 1 := by
      have : twoFields.ranges.length = 2 := rfl
      omega
    rcases cases with rfl | rfl <;> exact List.cons_ne_nil _ _
  obtain ⟨R, order, rank, ranked⟩ := exists_ranked BSON.regular_ordered
  have searchable : twoFields.Searchable :=
    searchable_of_apart (scanned_of_ranked ranked) wellFormed (by decide)
  have universal : twoFields.TrailingUniversal := fun key _ i trailing lt => by
    have ends : twoFields.endNonUniversalRanges = 2 := by decide
    have : twoFields.ranges.length = 2 := rfl
    omega
  exact ⟨wellFormed, searchable, (scan_exact_iff ranked wellFormed searchable).mpr universal⟩

/-- Between 1 and 5, above 5 up to 7, or between 8 and 9: the search looks at the exclusive bound
5 first. -/
def sharedBound : FieldRangeVector BSON.Value where
  keyPattern := [1]
  direction := 1
  ranges := [.ofIntervals [⟨⟨⟨[], .numberInt 1⟩, true⟩, ⟨⟨[], .numberInt 5⟩, true⟩⟩,
    ⟨⟨⟨[], .numberInt 5⟩, false⟩, ⟨⟨[], .numberInt 7⟩, true⟩⟩,
    ⟨⟨⟨[], .numberInt 8⟩, true⟩, ⟨⟨[], .numberInt 9⟩, true⟩⟩]]

/-- All values above `MinKey`. -/
def aboveMinKey : FieldRangeVector BSON.Value where
  keyPattern := [1]
  direction := 1
  ranges := [.ofIntervals [⟨⟨⟨[], .minKey⟩, false⟩, ⟨⟨[], .maxKey⟩, true⟩⟩]]

/-- Keys are taken for which `matchesKey` is false: the integer 5 where two intervals meet, after
the key 3, and `MinKey`, which a range that is taken for universal excludes. -/
theorem taken_unmatched :
    (sharedBound.WellFormed ∧ [[.numberInt 3], [.numberInt 5]].Pairwise sharedBound.ScanLe ∧
      (sharedBound.scan (sharedBound.prepDive .create)
        [[.numberInt 3], [.numberInt 5]]).length = 2 ∧
      sharedBound.matchesKey [.numberInt 5] = false) ∧
    aboveMinKey.WellFormed ∧
      (aboveMinKey.scan (aboveMinKey.prepDive .create) [[.minKey]]).length = 1 ∧
      aboveMinKey.matchesKey [.minKey] = false := by
  have single : ∀ v : FieldRangeVector BSON.Value, v.ranges.length = 1 →
      (v.oriented 0).WellFormed → (v.range 0).intervals ≠ [] → v.WellFormed := by
    intro v one ordered nonempty
    constructor <;> intro i lt <;> obtain rfl : i = 0 := by omega
    · exact ordered
    · exact nonempty
  exact ⟨⟨single _ rfl (by decide) (List.cons_ne_nil _ _), by decide, by decide +kernel,
    by decide +kernel⟩, single _ rfl (by decide) (List.cons_ne_nil _ _), by decide +kernel,
    by decide +kernel⟩

end FieldRangeVector

end TokuMX.Query
