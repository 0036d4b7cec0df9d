import TokuMX.BSON.ValueOrder
import TokuMX.Lib.Checked
import TokuMX.Lib.Comparison
import TokuMX.Lib.SortFields
import TokuMX.Query.FieldRangeSet

/-!
Whether an index gives the order of a sort (`QueryPlan::init`, `db/query_plan.cpp`).

The loop goes through the sort and the key pattern side by side. A field of the key pattern that
the sort does not ask for next is passed over if its range is an equality. The two numbers of a
common field fix the direction of the scan: forwards if they are equal, backwards otherwise. It
must be the same for all fields.

* `walk_sorted_iff` — walking the index is in the order of the sort exactly if numbers that are
  not equal have opposite signs, and the fields passed over do not vary. Fields in which the
  entries do not differ may break either rule.

The numbers are compared themselves, not their signs, so `{a: 2}` is taken for the opposite of
`{a: 1}` (`sort_by_two`).
-/

namespace TokuMX.Query

open TokuMX.Lib BSON

/-- A key pattern or the specification of a sort. -/
abbrev Pattern := List (String × Value)

variable {p : Pattern}

namespace Pattern

def fieldNames (p : Pattern) : List String := p.map Prod.fst

def values (p : Pattern) : List Value := p.map Prod.snd

theorem mem_fieldNames {e : String × Value} (mem : e ∈ p) : e.1 ∈ p.fieldNames :=
  List.mem_map_of_mem mem

end Pattern

/-- `elementDirection`. -/
def elementDirection (e : Value) : Binary64.Word := e.number.getD (Binary64.ofInt 1)

/-- The direction in which the values of a field of the key pattern come in the order of the
sort. -/
def scanDirection (oe ke : Value) : Int :=
  if Binary64.eq (elementDirection oe) (elementDirection ke) then 1 else -1

/-! ### The plan -/

inductive Utility where
  | impossible
  | helpful
  deriving DecidableEq

/-- A plan, as far as the choice of the order goes. -/
structure QueryPlan where
  utility : Utility
  scanAndOrderRequired : Bool
  direction : Int
  deriving DecidableEq

namespace QueryPlan

variable (frs : FieldRangeSet Value)

/-- The inner loop: the next element of the key pattern with the name, and what follows it. -/
def nextKeyElement (fieldName : String) : Pattern → Option (Value × Pattern)
  | [] => none
  | ke :: k =>
    if fieldName = ke.1 then some (ke.2, k)
    else if !(frs.range ke.1).equality then none
    else nextKeyElement fieldName k

/-- The outer loop, with `_scanAndOrderRequired` and `_direction` as it leaves them. -/
def checkOrder : Pattern → Pattern → Int → Bool × Int
  | [], _, direction => (false, direction)
  | oe :: o, k, direction =>
    match nextKeyElement frs oe.1 k with
    | none => (true, direction)
    | some (ke, k) =>
      let d := scanDirection oe.2 ke
      if direction = 0 then checkOrder o k d
      else if direction ≠ d then (true, direction)
      else checkOrder o k direction

/-- `init`, up to the end of the check of the order. Without a key pattern the plan is a table
scan; `special` says that the query or the index is special. -/
def init (idxKey : Option Pattern) (order : Pattern) (special : Bool) : QueryPlan :=
  if !frs.matchPossibleForIndex (idxKey.getD []).fieldNames then ⟨.impossible, false, 0⟩
  else
    match idxKey with
    | none => ⟨.helpful, !(order.isEmpty || order.head?.any (·.1 = "$natural")), 0⟩
    | some idxKey =>
      if special then ⟨.helpful, !order.isEmpty, 0⟩
      else
        let (required, direction) := checkOrder frs order idxKey 0
        ⟨.helpful, required, if required then 0 else direction⟩

/-! ### Walking the index -/

/-- The entry's values lie in the ranges of their fields. -/
def Within (idxKey : Pattern) (entry : List Value) : Prop :=
  List.Forall₂ (fun k v => (frs.range k.1).Contains v) idxKey entry

instance (idxKey : Pattern) (entry : List Value) : Decidable (Within frs idxKey entry) :=
  inferInstanceAs (Decidable (List.Forall₂ _ _ _))

/-- The value that an index entry has for a field. -/
def valueOf : Pattern → List Value → String → Value
  | k :: idxKey, v :: entry, fieldName =>
    if k.1 = fieldName then v else valueOf idxKey entry fieldName
  | _, _, _ => .null

/-- The values that the sort looks at. -/
def sortKey (idxKey order : Pattern) (entry : List Value) : List Value :=
  order.map fun o => valueOf idxKey entry o.1

/-- The order of the index. -/
def compareEntries (idxKey : Pattern) : List Value → List Value → Int :=
  woCompareKey idxKey.values

/-- The order of the sort. -/
def compareSorted (idxKey order : Pattern) (l r : List Value) : Int :=
  woCompareKey order.values (sortKey idxKey order l) (sortKey idxKey order r)

/-- Forwards, or backwards if the direction is negative. -/
def walk (direction : Int) (entries : List (List Value)) : List (List Value) :=
  if 0 ≤ direction then entries else entries.reverse

/-- Every list of entries in index order that lie within the ranges is met in the order of the
sort. -/
def WalksSorted (idxKey order : Pattern) (direction : Int) : Prop :=
  ∀ entries : List (List Value), (∀ e ∈ entries, Within frs idxKey e) →
    entries.Pairwise (InOrder (compareEntries idxKey)) →
    (walk direction entries).Pairwise (InOrder (compareSorted idxKey order))

/-- No value of the range is below another. -/
def Pinned (r : FieldRange Value) : Prop :=
  ∀ v, r.Contains v → ∀ w, r.Contains w → ¬ (v.woCompare w < 0 ∧ 0 < w.woCompare v)

/-- All values of the range are equal. -/
def Flat (r : FieldRange Value) : Prop :=
  ∀ v, r.Contains v → ∀ w, r.Contains w → v.woCompare w = 0

/-- The numbers of a common field are equal or have opposite signs, unless the entries do not
differ in it. -/
def SignsTell (idxKey order : Pattern) : Prop :=
  ∀ k ∈ idxKey, ∀ o ∈ order, o.1 = k.1 →
    Binary64.eq (elementDirection o.2) (elementDirection k.2) ∨ o.2.descends ≠ k.2.descends ∨
      Pinned (frs.range k.1)

/-- The entries do not differ in a field that the sort passes over, or not in the later ones that
it looks at. -/
def PassedOver (idxKey order : Pattern) : Prop :=
  idxKey.Pairwise fun k k' => k.1 ∉ order.fieldNames → k'.1 ∈ order.fieldNames →
    Pinned (frs.range k.1) ∨ Flat (frs.range k'.1)

variable {frs} {idxKey order : Pattern} {direction : Int}

/-! ### The loop -/

/-- The sort's fields in the key pattern, in their order, with other fields between them. -/
inductive Aligned (direction : Int) : Pattern → Pattern → Prop
  | done (k : Pattern) : Aligned direction [] k
  | pass {oe ke : String × Value} {o k : Pattern} (other : oe.1 ≠ ke.1)
      (rest : Aligned direction (oe :: o) k) : Aligned direction (oe :: o) (ke :: k)
  | meet {oe ke : String × Value} {o k : Pattern} (same : oe.1 = ke.1)
      (agrees : scanDirection oe.2 ke.2 = direction) (rest : Aligned direction o k) :
      Aligned direction (oe :: o) (ke :: k)

variable {oe : String × Value} {o k : Pattern}

theorem aligned_of_next {k' : Pattern} {ke : Value}
    (found : nextKeyElement frs oe.1 k = some (ke, k'))
    (agrees : scanDirection oe.2 ke = direction) (rest : Aligned direction o k') :
    Aligned direction (oe :: o) k := by
  induction k with
  | nil => cases found
  | cons e k ih =>
    rw [nextKeyElement] at found
    split_ifs at found with same varies
    · cases found
      exact .meet same agrees rest
    · exact .pass same (ih found)

theorem checkOrder_aligned {order : Pattern} {start : Int}
    (found : checkOrder frs order k start = (false, direction)) :
    (start ≠ 0 → start = direction) ∧ Aligned direction order k := by
  induction order generalizing k start with
  | nil =>
    cases found
    exact ⟨fun _ => rfl, .done k⟩
  | cons oe o ih =>
    rw [checkOrder] at found
    cases next : nextKeyElement frs oe.1 k with
    | none => simp [next] at found
    | some e =>
      simp only [next] at found
      split_ifs at found with first turned
      · obtain ⟨kept, rest⟩ := ih found
        have same : scanDirection oe.2 e.1 = direction := kept (by
          unfold scanDirection
          split_ifs <;> omega)
        exact ⟨fun late => absurd first late, aligned_of_next next same rest⟩
      · cases found
      · obtain ⟨kept, rest⟩ := ih found
        have same : scanDirection oe.2 e.1 = direction := by
          rw [← not_not.mp turned]
          exact kept first
        exact ⟨kept, aligned_of_next next same rest⟩

open Pattern

theorem Aligned.subset (aligned : Aligned direction o k) :
    ∀ name ∈ o.fieldNames, name ∈ k.fieldNames := by
  induction aligned with
  | done => simp [fieldNames]
  | pass other rest ih => exact fun name mem => List.mem_cons_of_mem _ (ih name mem)
  | meet same agrees rest ih =>
    intro name mem
    rcases List.mem_cons.mp mem with rfl | mem
    · rw [same]
      exact List.mem_cons_self
    · exact List.mem_cons_of_mem _ (ih name mem)

/-- The numbers of every common field give the direction. -/
theorem Aligned.scanDirection_eq (aligned : Aligned direction o k) (distinct : k.fieldNames.Nodup)
    (distinct' : o.fieldNames.Nodup) {ke : String × Value} (ho : oe ∈ o) (hk : ke ∈ k)
    (same : oe.1 = ke.1) : scanDirection oe.2 ke.2 = direction := by
  induction aligned with
  | done => cases ho
  | pass other rest ih =>
    obtain ⟨fresh, distinct⟩ := List.nodup_cons.mp distinct
    rcases List.mem_cons.mp hk with rfl | hk
    · exact absurd (same ▸ rest.subset oe.1 (mem_fieldNames ho)) fresh
    · exact ih distinct distinct' ho hk
  | meet here agrees rest ih =>
    obtain ⟨fresh, distinct⟩ := List.nodup_cons.mp distinct
    obtain ⟨fresh', distinct'⟩ := List.nodup_cons.mp distinct'
    rcases List.mem_cons.mp ho with rfl | ho
    · rcases List.mem_cons.mp hk with rfl | hk
      · exact agrees
      · exact absurd (mem_fieldNames hk) (by rwa [← same, here])
    · rcases List.mem_cons.mp hk with rfl | hk
      · exact absurd (mem_fieldNames ho) (by rwa [same, ← here])
      · exact ih distinct distinct' ho hk

/-! ### The two orders -/

/-- A field of the key pattern, walked in a direction, as a field of the sort. -/
def sortField (frs : FieldRangeSet Value) (backward : Bool) (order : Pattern)
    (k : String × Value) : SortField Value where
  values := {v | (frs.range k.1).Contains v}
  descends := xor k.2.descends backward
  sorts := (order.lookup k.1).map Value.descends

def sortFields (frs : FieldRangeSet Value) (backward : Bool) (order idxKey : Pattern) :
    List (SortField Value) :=
  idxKey.map (sortField frs backward order)

variable {backward : Bool} {l r : List Value}

theorem compareFirst_sortFields (hl : l.length = idxKey.length) (hr : r.length = idxKey.length) :
    compareFirst Value.woCompare (sortFields frs backward order idxKey) l r =
      directed backward (compareEntries idxKey l r) := by
  induction idxKey generalizing l r with
  | nil =>
    obtain rfl := List.length_eq_zero_iff.mp hl
    obtain rfl := List.length_eq_zero_iff.mp hr
    cases backward <;> rfl
  | cons k idxKey ih =>
    cases l with
    | nil => cases hl
    | cons a l =>
      cases r with
      | nil => cases hr
      | cons b r =>
        have rest := ih (Nat.succ.inj hl) (Nat.succ.inj hr)
        have step : compareEntries (k :: idxKey) (a :: l) (b :: r) =
            orElse (directed k.2.descends (a.woCompare b)) (compareEntries idxKey l r) := rfl
        rw [step, directed_orElse, ← directed_xor, ← rest]
        rfl

/-- A sort without fields. -/
theorem compareSecond_unsorted (idxKey : Pattern) (l r : List Value) :
    compareSecond Value.woCompare (sortFields frs backward [] idxKey) l r = 0 := by
  induction idxKey generalizing l r with
  | nil => rfl
  | cons k idxKey ih =>
    cases l with
    | nil => rfl
    | cons a l =>
      cases r with
      | nil => rfl
      | cons b r => exact ih l r

/-- A field that no later field of the key pattern has. -/
theorem sortFields_cons_of_notMem (fresh : oe.1 ∉ k.fieldNames) :
    sortFields frs backward (oe :: o) k = sortFields frs backward o k := by
  apply List.map_congr_left
  intro ke mem
  have other : (ke.1 == oe.1) = false := by
    rw [beq_eq_false_iff_ne]
    intro same
    exact fresh (same ▸ mem_fieldNames mem)
  rw [sortField, sortField, List.lookup_cons, other]

theorem lookup_eq_none {name : String} : p.lookup name = none ↔ name ∉ p.fieldNames := by
  rw [List.lookup_eq_none_iff, fieldNames, List.mem_map]
  simp only [bne_iff_ne, not_exists, not_and, ne_comm (a := name), ne_eq]

theorem sortKey_cons_of_notMem {ke : String × Value} (v : Value) (fresh : ke.1 ∉ o.fieldNames) :
    sortKey (ke :: k) o (v :: l) = sortKey k o l := by
  apply List.map_congr_left
  intro oe mem
  have other : ke.1 ≠ oe.1 := by
    intro same
    exact fresh (same ▸ mem_fieldNames mem)
  rw [valueOf, if_neg other]

theorem compareSecond_sortFields (aligned : Aligned direction order idxKey)
    (distinct : idxKey.fieldNames.Nodup) (distinct' : order.fieldNames.Nodup)
    (hl : l.length = idxKey.length) (hr : r.length = idxKey.length) :
    compareSecond Value.woCompare (sortFields frs backward order idxKey) l r =
      compareSorted idxKey order l r := by
  induction aligned generalizing l r with
  | done k => exact compareSecond_unsorted k l r
  | @pass oe ke o k other rest ih =>
    obtain ⟨fresh, distinct⟩ := List.nodup_cons.mp distinct
    have unsorted : ke.1 ∉ fieldNames (oe :: o) := fun mem => fresh (rest.subset _ mem)
    cases l with
    | nil => cases hl
    | cons a l =>
      cases r with
      | nil => cases hr
      | cons b r =>
        have tail := ih distinct distinct' (Nat.succ.inj hl) (Nat.succ.inj hr)
        rw [compareSorted, sortKey_cons_of_notMem a unsorted,
          sortKey_cons_of_notMem b unsorted, sortFields, List.map_cons, compareSecond,
          sortField, lookup_eq_none.mpr unsorted]
        exact tail
  | @meet oe ke o k same agrees rest ih =>
    obtain ⟨fresh, distinct⟩ := List.nodup_cons.mp distinct
    obtain ⟨fresh', distinct'⟩ := List.nodup_cons.mp distinct'
    cases l with
    | nil => cases hl
    | cons a l =>
      cases r with
      | nil => cases hr
      | cons b r =>
        have tail := ih distinct distinct' (Nat.succ.inj hl) (Nat.succ.inj hr)
        have sorted : List.lookup ke.1 (oe :: o) = some oe.2 := by
          rw [List.lookup_cons, same, beq_self_eq_true]
        have first : ∀ v l, sortKey (ke :: k) (oe :: o) (v :: l) = v :: sortKey k o l := by
          intro v l
          have here : valueOf (ke :: k) (v :: l) oe.1 = v := by
            rw [valueOf, if_pos same.symm]
          have later : sortKey (ke :: k) o (v :: l) = sortKey k o l :=
            sortKey_cons_of_notMem v (by rwa [← same])
          rw [← later, sortKey, List.map_cons, here, sortKey]
        have sides : compareSorted (ke :: k) (oe :: o) (a :: l) (b :: r) =
            orElse (directed oe.2.descends (a.woCompare b)) (compareSorted k o l r) := by
          rw [compareSorted, first, first]
          rfl
        rw [sides, sortFields, List.map_cons, ← sortFields,
          sortFields_cons_of_notMem (by rwa [same]), compareSecond, tail, sortField, sorted]
        rfl

/-! ### Soundness -/

theorem Within.length_eq (within : Within frs idxKey l) : l.length = idxKey.length :=
  (List.Forall₂.length_eq within).symm

theorem keys_sortFields : Keys (sortFields frs backward order idxKey) l ↔ Within frs idxKey l :=
  List.forall₂_map_left_iff

theorem inOrder_directed {K : Type} {cmp : K → K → Int} {x y : K} :
    InOrder (fun x y => directed true (cmp x y)) x y ↔ InOrder cmp y x := by
  simp only [InOrder, directed, if_true]
  omega

/-- Walking is sorted if any two entries that it meets in this order are in the order of the
sort. -/
theorem walksSorted_iff_pairs : WalksSorted frs idxKey order direction ↔
    ∀ l r, Within frs idxKey l → Within frs idxKey r →
      InOrder (fun l r => directed (decide (direction < 0)) (compareEntries idxKey l r)) l r →
      InOrder (compareSorted idxKey order) l r := by
  by_cases forward : 0 ≤ direction
  · have ahead : decide (direction < 0) = false := by simpa using forward
    rw [ahead]
    constructor
    · intro sorted l r hl hr inOrder
      have pair := sorted [l, r] (by simp [hl, hr]) (List.pairwise_pair.mpr inOrder)
      rw [walk, if_pos forward] at pair
      simpa using pair
    · intro pairs entries within inOrder
      rw [walk, if_pos forward]
      exact inOrder.imp_of_mem fun hl hr => pairs _ _ (within _ hl) (within _ hr)
  · have back : decide (direction < 0) = true := by simpa using forward
    simp only [back, inOrder_directed]
    constructor
    · intro sorted l r hl hr inOrder
      have pair := sorted [r, l] (by simp [hl, hr]) (List.pairwise_pair.mpr inOrder)
      rw [walk, if_neg forward] at pair
      simpa using pair
    · intro pairs entries within inOrder
      rw [walk, if_neg forward, List.pairwise_reverse]
      exact inOrder.imp_of_mem fun hl hr => pairs _ _ (within _ hr) (within _ hl)

theorem walksSorted_iff_follows (aligned : Aligned direction order idxKey)
    (distinct : idxKey.fieldNames.Nodup) (distinct' : order.fieldNames.Nodup) :
    WalksSorted frs idxKey order direction ↔
      Follows Value.woCompare (sortFields frs (decide (direction < 0)) order idxKey) := by
  rw [walksSorted_iff_pairs, Follows]
  refine forall₂_congr fun l r => ?_
  rw [keys_sortFields, keys_sortFields]
  refine imp_congr_right fun hl => imp_congr_right fun hr => ?_
  have hl := hl.length_eq
  have hr := hr.length_eq
  simp only [InOrder, compareFirst_sortFields hl hr, compareFirst_sortFields hr hl,
    compareSecond_sortFields aligned distinct distinct' hl hr,
    compareSecond_sortFields aligned distinct distinct' hr hl]

theorem descends_eq (v : Value) : v.descends = Binary64.lt (elementDirection v) 0 := by
  rw [Value.descends, elementDirection]
  cases v.number with
  | none => decide +kernel
  | some d => rfl

/-- Equal numbers have one sign. -/
theorem descends_eq_of_eq {o k : Value}
    (same : Binary64.eq (elementDirection o) (elementDirection k)) : o.descends = k.descends := by
  simp only [Binary64.eq, Bool.and_eq_true, Bool.not_eq_true', decide_eq_true_eq] at same
  simp [descends_eq, Binary64.lt, same]

theorem lookup_eq_some (distinct : p.fieldNames.Nodup) {name : String} {v : Value} :
    p.lookup name = some v ↔ (name, v) ∈ p := by
  induction p with
  | nil => simp
  | cons e p ih =>
    obtain ⟨fresh, distinct⟩ := List.nodup_cons.mp distinct
    rw [List.lookup_cons, List.mem_cons]
    by_cases here : name = e.1
    · subst here
      have absent : (e.1, v) ∉ p := fun mem => fresh (List.mem_map.mpr ⟨_, mem, rfl⟩)
      simp [absent, Prod.ext_iff, eq_comm]
    · have other : (name == e.1) = false := beq_eq_false_iff_ne.mpr here
      simp [other, ih distinct, here, Prod.ext_iff]

/-- Which direction a pair of numbers should give. -/
theorem descends_iff {o k : Value} (gives : scanDirection o k = direction) :
    o.descends = xor k.descends (decide (direction < 0)) ↔
      Binary64.eq (elementDirection o) (elementDirection k) ∨ o.descends ≠ k.descends := by
  rw [scanDirection] at gives
  split_ifs at gives with same
  · simp [← gives, same, descends_eq_of_eq same]
  · simp only [← gives, same]
    cases o.descends <;> cases k.descends <;> decide

theorem agrees_iff (aligned : Aligned direction order idxKey)
    (distinct : idxKey.fieldNames.Nodup) (distinct' : order.fieldNames.Nodup) :
    (∀ f ∈ sortFields frs (decide (direction < 0)) order idxKey, f.Agrees Value.woCompare) ↔
      SignsTell frs idxKey order := by
  rw [sortFields, List.forall_mem_map]
  refine forall₂_congr fun k hk => ?_
  constructor
  · rintro agrees ⟨name, o⟩ ho rfl
    have found : order.lookup k.1 = some o := (lookup_eq_some distinct').mpr ho
    have gives := aligned.scanDirection_eq distinct distinct' ho hk rfl
    rw [← or_assoc, ← descends_iff gives]
    exact agrees o.descends (by rw [sortField, found]; rfl)
  · intro tell descends sorts
    obtain ⟨o, found, rfl⟩ := Option.map_eq_some_iff.mp sorts
    have ho := (lookup_eq_some distinct').mp found
    have gives := aligned.scanDirection_eq distinct distinct' ho hk rfl
    have told := tell _ ho rfl
    rw [← or_assoc, ← descends_iff gives] at told
    exact told

theorem passes_iff :
    (sortFields frs backward order idxKey).Pairwise (SortField.Passes Value.woCompare) ↔
      PassedOver frs idxKey order := by
  have unsorted : ∀ k : String × Value,
      (sortField frs backward order k).sorts = none ↔ k.1 ∉ order.fieldNames := by
    intro k
    rw [sortField, Option.map_eq_none_iff, lookup_eq_none]
  rw [sortFields, List.pairwise_map]
  apply List.Pairwise.iff
  intro k k'
  rw [SortField.Passes, ne_eq, unsorted, unsorted, not_not]
  rfl

/-- A plan that leaves the sort to the index has run through both patterns. -/
theorem aligned_of_init (possible : (init frs (some idxKey) order false).utility ≠ .impossible)
    (skipped : (init frs (some idxKey) order false).scanAndOrderRequired = false) :
    Aligned (init frs (some idxKey) order false).direction order idxKey := by
  rcases found : checkOrder frs order idxKey 0 with ⟨required, d⟩
  by_cases impossible : !frs.matchPossibleForIndex (fieldNames idxKey)
  · rw [init, Option.getD_some, if_pos impossible] at possible
    exact absurd rfl possible
  · have plan : init frs (some idxKey) order false =
        ⟨.helpful, required, if required then 0 else d⟩ := by
      simp [init, impossible, found]
    rw [plan] at skipped ⊢
    cases skipped
    exact (checkOrder_aligned found).2

/-- When the index gives the order of a sort that the plan leaves to it. -/
theorem walk_sorted_iff (distinct : idxKey.fieldNames.Nodup) (distinct' : order.fieldNames.Nodup)
    (possible : (init frs (some idxKey) order false).utility ≠ .impossible)
    (skipped : (init frs (some idxKey) order false).scanAndOrderRequired = false) :
    WalksSorted frs idxKey order (init frs (some idxKey) order false).direction ↔
      ((∃ entry, Within frs idxKey entry) →
        SignsTell frs idxKey order ∧ PassedOver frs idxKey order) := by
  have aligned := aligned_of_init possible skipped
  generalize (init frs (some idxKey) order false).direction = direction at aligned ⊢
  by_cases some_entry : ∃ entry, Within frs idxKey entry
  · have inhabited : ∀ f ∈ sortFields frs (decide (direction < 0)) order idxKey,
        f.values.Nonempty := by
      obtain ⟨entry, within⟩ := some_entry
      rw [sortFields, List.forall_mem_map]
      intro k hk
      exact forall₂_left within hk
    rw [walksSorted_iff_follows aligned distinct distinct',
      follows_iff Value.woCompare_self (fun a b => (a.woCompare_eq_zero_comm b).mp) inhabited,
      agrees_iff aligned distinct distinct', passes_iff]
    exact ⟨fun holds _ => holds, fun holds => holds some_entry⟩
  · refine iff_of_true (fun entries within _ => ?_) fun entry => absurd entry some_entry
    have none_there : entries = [] :=
      List.eq_nil_iff_forall_not_mem.mpr fun e he => some_entry ⟨e, within e he⟩
    subst none_there
    rw [walk]
    split_ifs <;> exact .nil

/-- A sort by both fields of an index, each in the opposite direction. -/
theorem walk_sorted_iff_backward :
    let frs : FieldRangeSet Value := ⟨.empty, true⟩
    let idxKey : Pattern := [("a", .numberInt 1), ("b", .numberInt (-1))]
    let order : Pattern := [("a", .numberInt (-1)), ("b", .numberInt 2)]
    (init frs (some idxKey) order false) = ⟨.helpful, false, -1⟩ ∧
      WalksSorted frs idxKey order (-1) := by
  intro frs idxKey order
  have plan : init frs (some idxKey) order false = ⟨.helpful, false, -1⟩ := by decide +kernel
  have signs : SignsTell frs idxKey order := by
    intro k hk o ho same
    refine .inr (.inl ?_)
    simp only [idxKey, order, List.mem_cons, List.not_mem_nil, or_false] at hk ho
    rcases hk with rfl | rfl <;> rcases ho with rfl | rfl
    · decide +kernel
    · simp at same
    · simp at same
    · decide +kernel
  have passed : PassedOver frs idxKey order := by
    simp [PassedOver, idxKey, order, Pattern.fieldNames]
  have sorted : WalksSorted frs idxKey order (init frs (some idxKey) order false).direction :=
    (walk_sorted_iff (by decide) (by decide) (by rw [plan]; decide) (by rw [plan])).mpr
      fun _ => ⟨signs, passed⟩
  rw [plan] at sorted
  exact ⟨plan, sorted⟩

/-- The index `{a: 1}` is taken to have the opposite order of the sort `{a: 2}`. -/
theorem sort_by_two :
    let frs : FieldRangeSet Value := ⟨.empty, true⟩
    let idxKey : Pattern := [("a", .numberInt 1)]
    let order : Pattern := [("a", .numberInt 2)]
    init frs (some idxKey) order false = ⟨.helpful, false, -1⟩ ∧
      ¬ WalksSorted frs idxKey order (-1) := by
  intro frs idxKey order
  refine ⟨by decide +kernel, fun sorted => ?_⟩
  have met := sorted [[.numberInt 1], [.numberInt 2]] (by decide +kernel) (by decide +kernel)
  exact absurd met (by decide +kernel)

/-- The range of one value is flat as far as `woCompare` orders its values. -/
theorem flat_of_equality {S : Set Value} (law : ComparesOn Value.woCompare S)
    {r : FieldRange Value} {i : FieldInterval Value} (single : r.intervals = [i])
    (equality : r.equality) (bound : i.lower.bound.value ∈ S) (bound' : i.upper.bound.value ∈ S)
    (values : ∀ v, r.Contains v → v ∈ S) : Flat r := by
  have ends : i.lower.bound.value.woCompare i.upper.bound.value = 0 := by
    simp only [FieldRange.equality, single, List.head?_cons, List.getLast?_singleton,
      Bool.and_eq_true, decide_eq_true_eq, Element.woCompare_false] at equality
    exact equality.1.1
  have atBound : ∀ v, r.Contains v → i.lower.bound.value.woCompare v = 0 := by
    rintro v inside
    have mem := values v inside
    obtain ⟨j, hj, above, below⟩ := inside
    rw [single, List.mem_singleton] at hj
    subst hj
    have le : j.lower.bound.value.woCompare v ≤ 0 := above.elim le_of_lt fun same => same.1.le
    have ge : v.woCompare j.upper.bound.value ≤ 0 := below.elim le_of_lt fun same => same.1.le
    have back : v.woCompare j.lower.bound.value ≤ 0 :=
      law.trans _ mem _ bound' _ bound ge (law.symm bound bound' ends).le
    exact le_antisymm le ((law.le_iff mem bound).mp back)
  intro v hv w hw
  exact law.eq_trans (values v hv) bound (values w hw)
    (law.symm bound (values v hv) (atBound v hv)) (atBound w hw)

-- Two longs that equal a double need not be equal, so an equality alone does not pin a field.
example :
    let r : FieldRange Value := .ofIntervals [.point ⟨[], .numberDouble (Binary64.ofInt (2 ^ 53))⟩]
    r.equality ∧ ¬ Pinned r := by
  intro r
  refine ⟨by decide +kernel, fun pinned => ?_⟩
  exact pinned (.numberLong (2 ^ 53)) (by decide +kernel) (.numberLong (2 ^ 53 + 1))
    (by decide +kernel) (by decide +kernel)

end QueryPlan

end TokuMX.Query
