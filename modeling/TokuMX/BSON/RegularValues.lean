import TokuMX.BSON.Object
import TokuMX.BSON.ValueOrder

/-!
A set of values that `woCompare` orders.

A value is regular if neither it nor a value embedded in it is a 64-bit integer of `2 ^ 53` or
beyond, which a double does not hold exactly, or a timestamp, whose bits are read differently next
to a date. All other values are: numbers of all types, NaN included, strings, objects, arrays.

* `regular_ordered` — on regular values `woCompare` is the comparison of a total preorder.
-/

namespace TokuMX.BSON

open TokuMX.Lib

mutual

/-- The value is, and holds, no 64-bit integer from `2 ^ 53` on and no timestamp. -/
def Value.Regular : Value → Prop
  | .numberLong n => n.toInt.natAbs < 2 ^ 53
  | .timestamp _ => False
  | .object fields | .array fields => fields.Regular
  | _ => True

/-- The same of all elements. -/
def Fields.Regular : Fields → Prop
  | .nil => True
  | .cons _ v rest => v.Regular ∧ rest.Regular

end

/-! ### Numbers and strings -/

/-- Where a double stands; NaN is before all others. -/
def doublePlace (d : Binary64.Word) : Int :=
  if Binary64.isNaN d then -2 ^ 64 else Binary64.rank d

theorem sign_compareDoubles (l r : Binary64.Word) :
    (compareDoubles l r).sign = (doublePlace l - doublePlace r).sign := by
  have hl := l.isLt
  have hr := r.isLt
  unfold compareDoubles doublePlace Binary64.lt Binary64.eq
  cases Binary64.isNaN l <;> cases Binary64.isNaN r <;>
    simp only [sign_eq_iff, Binary64.rank, Binary64.magnitude] <;> simp <;> split_ifs <;> omega

theorem comparesOn_compareCounted : ComparesOn compareCounted Set.univ := by
  have signs : ∀ l r, Signs (compareCounted l r) (l.map UInt8.toNat) (r.map UInt8.toNat) := by
    intro l
    induction l with
    | nil =>
      intro r
      cases r with
      | nil => exact ⟨by simp [compareCounted], by simp [compareCounted]⟩
      | cons b r =>
        exact .of_lt (Int.sign_eq_neg_one_iff_neg.mp (compareCounted_nil_cons b r))
          (List.nil_lt_cons _ _)
    | cons a l ih =>
      intro r
      cases r with
      | nil =>
        exact .of_gt (Int.sign_eq_one_iff_pos.mp (compareCounted_cons_nil a l))
          (List.nil_lt_cons _ _)
      | cons b r =>
        rw [compareCounted_cons_cons]
        split_ifs with less greater
        · exact .of_head_lt (by decide) (UInt8.lt_iff_toNat_lt.mp less)
        · exact .of_head_gt (by decide) (UInt8.lt_iff_toNat_lt.mp greater)
        · obtain rfl : a = b := UInt8.le_antisymm (UInt8.not_lt.mp greater) (UInt8.not_lt.mp less)
          exact (ih r).cons _
  constructor
  · intro l _ r _
    rw [(signs l r).lt_iff, (signs r l).gt_iff]
  · intro l _ m _ r _
    rw [← not_lt, ← not_lt, ← not_lt, (signs l m).gt_iff, (signs m r).gt_iff, (signs l r).gt_iff]
    simp only [not_lt]
    exact le_trans

/-! ### What decides -/

/-- The number that is compared, or a length that comes first. -/
def Value.place : Value → Int
  | .numberDouble d => doublePlace d
  | .numberInt n => doublePlace (Binary64.ofInt n.toInt)
  | .numberLong n => doublePlace (Binary64.ofInt n.toInt)
  | .bool b => b.toNat
  | .date millis => millis.toInt
  | .dbRef value => value.length
  | .binData _ data => data.length
  | _ => 0

/-- The strings that are compared. -/
def Value.texts : Value → List UInt8 × List UInt8
  | .string s | .symbol s | .code s => (s, [])
  | .oid bytes => (bytes.val, [])
  | .dbRef value => (value, [])
  | .binData subtype data => (subtype :: data, [])
  | .regEx regex flags => (cString regex, cString flags)
  | .codeWScope data => (cString data, cString (codeWScopeScopeDataUnsafe data))
  | _ => ([], [])

/-- Elements by types, names and values. -/
def compareElements (l r : List UInt8 × Value) : Int :=
  comparePairs (· - ·) (comparePairs strcmp Value.woCompare) (l.2.canonicalType, l)
    (r.2.canonicalType, r)

/-- What decides between values of one canonical type. -/
def Value.body (v : Value) : Int × (List UInt8 × List UInt8) × List (List UInt8 × Value) :=
  (v.place, v.texts, (embeddedObject v).pairs)

def compareBodies : Int × (List UInt8 × List UInt8) × List (List UInt8 × Value) →
    Int × (List UInt8 × List UInt8) × List (List UInt8 × Value) → Int :=
  comparePairs (· - ·)
    (comparePairs (comparePairs compareCounted compareCounted) (compareLists compareElements))

theorem woCompare_eq (l r : Value) :
    l.woCompare r = if l.canonicalType - r.canonicalType ≠ 0 then
      l.canonicalType - r.canonicalType else compareElementValues l r := by
  by_cases types : l.canonicalType = r.canonicalType
  · simp [Value.woCompare, types]
  · rw [woCompare_of_types types, if_pos (sub_ne_zero.mpr types)]

theorem compareFields_eq :
    ∀ l r : Fields, compareFields l r = compareLists compareElements l.pairs r.pairs
  | .nil, .nil | .nil, .cons _ _ _ | .cons _ _ _, .nil => rfl
  | .cons name v vs, .cons name' w ws => by
    have element : compareElements (name, v) (name', w) =
        if v.canonicalType - w.canonicalType ≠ 0 then v.canonicalType - w.canonicalType
        else if strcmp name name' ≠ 0 then strcmp name name' else compareElementValues v w := by
      simp only [compareElements, comparePairs, woCompare_eq]
      split_ifs <;> rfl
    rw [compareFields_cons, Fields.pairs, Fields.pairs, compareLists, element,
      compareFields_eq vs ws]

theorem ite_eq_zero_self (x : Int) : (if x = 0 then 0 else x) = x := by
  split_ifs with zero
  · exact zero.symm
  · rfl

/-- Values that differ in a number only. -/
theorem sign_of_place {l r : Value} {x : Int} (texts : l.texts = r.texts)
    (inner : embeddedObject l = embeddedObject r) (sign : x.sign = (l.place - r.place).sign) :
    x.sign = (compareBodies l.body r.body).sign := by
  have rest : comparePairs (comparePairs compareCounted compareCounted)
      (compareLists compareElements) l.body.2 r.body.2 = 0 := by
    simp [comparePairs, Value.body, texts, inner, ← compareFields_eq, compareFields_self]
  rw [sign, compareBodies, comparePairs, rest]
  exact congrArg Int.sign (ite_eq_left_iff.mpr fun same => (not_not.mp same).symm).symm

/-- Values that differ in their strings, after the number. -/
theorem sign_of_texts {l r : Value} {x : Int} (inner : embeddedObject l = embeddedObject r)
    (sign : x.sign = (if l.place - r.place ≠ 0 then l.place - r.place
      else if compareCounted l.texts.1 r.texts.1 ≠ 0 then compareCounted l.texts.1 r.texts.1
      else compareCounted l.texts.2 r.texts.2).sign) :
    x.sign = (compareBodies l.body r.body).sign := by
  have rest : compareLists compareElements (embeddedObject l).pairs (embeddedObject r).pairs =
      0 := by
    rw [inner, ← compareFields_eq, compareFields_self]
  rw [sign]
  simp only [compareBodies, comparePairs, Value.body, rest]
  congr 1
  split_ifs <;> simp_all

/-- Of values of one canonical type, the bodies decide. -/
theorem sign_compareElementValues {l r : Value} (alike : Alike l r) (hl : l.Regular)
    (hr : r.Regular) :
    (compareElementValues l r).sign = (compareBodies l.body r.body).sign := by
  cases alike with
  | undefined | null | maxKey | minKey => rfl
  | bool a b => exact sign_of_place rfl rfl rfl
  | timestamps a b | timestampDate a b => cases hl
  | dateTimestamp a b => cases hr
  | dates a b => exact sign_of_place rfl rfl (sign_compareInts _ _)
  | doubles a b | doubleLong a b | doubleInt a b | longDouble a b | intDouble a b | longInt a b
  | intLong a b => exact sign_of_place rfl rfl (sign_compareDoubles _ _)
  | longs a b =>
    refine sign_of_place rfl rfl ((congrArg Int.sign ?_).trans (sign_compareDoubles _ _))
    exact (compareDoubles_ofInt (natAbs_toInt_le a) (natAbs_toInt_le b) (.inl hl)).symm
  | ints a b =>
    have ha := natAbs_toInt_lt_of_int a
    have hb := natAbs_toInt_lt_of_int b
    refine sign_of_place rfl rfl ((congrArg Int.sign ?_).trans (sign_compareDoubles _ _))
    exact (compareDoubles_ofInt (by omega) (by omega) (.inl ha)).symm
  | oids a b =>
    refine sign_of_texts rfl ?_
    simp [compareElementValues, compareScalars, Value.place, Value.texts, ite_eq_zero_self,
      compareCounted_of_length (a.property.trans b.property.symm)]
  | strings a b | stringSymbol a b | symbolString a b | symbols a b | codes a b =>
    refine sign_of_texts rfl ((compareCounted_terminated a b).trans ?_)
    simp [Value.place, Value.texts, ite_eq_zero_self]
  | dbRefs a b =>
    refine sign_of_texts rfl (sign_ite rfl fun same => ?_)
    have length : a.length = b.length := Int.ofNat.inj (sub_eq_zero.mp same)
    simp [Value.texts, compareCounted_of_length length, ite_eq_zero_self]
  | binDatas t u a b =>
    refine sign_of_texts rfl (sign_ite rfl fun same => ?_)
    have length : (t :: a).length = (u :: b).length :=
      congrArg Nat.succ (Int.ofNat.inj (sub_eq_zero.mp same))
    simp [Value.texts, compareCounted_of_length length, ite_eq_zero_self]
  | regExs a f b g =>
    exact sign_of_texts rfl ((sign_ite (sign_strcmp a b) fun _ => sign_strcmp f g).trans
      (congrArg Int.sign (if_neg (not_not.mpr rfl)).symm))
  | codeWScopes a b =>
    exact sign_of_texts rfl ((sign_ite (sign_strcmp a b) fun _ => sign_strcmp _ _).trans
      (congrArg Int.sign (if_neg (not_not.mpr rfl)).symm))
  | objects a b | arrays a b =>
    rw [compareElementValues, compareFields_eq]
    rfl

/-! ### The order -/

theorem mem_pairs_regular {fields : Fields} {name : List UInt8} {v : Value}
    (regular : fields.Regular) (mem : (name, v) ∈ fields.pairs) :
    v.Regular ∧ sizeOf v < sizeOf fields := by
  match fields with
  | .cons name' w rest =>
    rcases List.mem_cons.mp mem with same | later
    · cases same
      exact ⟨regular.1, by simp; omega⟩
    · obtain ⟨inside, less⟩ := mem_pairs_regular regular.2 later
      exact ⟨inside, by simp; omega⟩

theorem mem_embedded_regular {v w : Value} {name : List UInt8} (regular : v.Regular)
    (mem : (name, w) ∈ (embeddedObject v).pairs) : w.Regular ∧ sizeOf w < sizeOf v := by
  cases v with
  | object fields | array fields =>
    obtain ⟨inside, less⟩ := mem_pairs_regular regular mem
    exact ⟨inside, by simp only [Value.object.sizeOf_spec, Value.array.sizeOf_spec]; omega⟩
  | _ => cases mem

/-- By induction on the size: the elements of an embedded object are smaller than it. -/
theorem regular_ordered_bounded (n : Nat) :
    ComparesOn Value.woCompare {v | v.Regular ∧ sizeOf v ≤ n} := by
  induction n with
  | zero =>
    have none : ∀ v : Value, ¬ sizeOf v ≤ 0 := by
      intro v
      cases v <;> simp
    exact ⟨fun v hv => absurd hv.2 (none v), fun v hv => absurd hv.2 (none v)⟩
  | succ n ih =>
    have strings := comparesOn_compareCounted
    have names : ComparesOn strcmp Set.univ :=
      strings.of_key cString (fun _ _ => trivial) fun l _ r _ => sign_strcmp l r
    have elements : ComparesOn compareElements {p | p.2.Regular ∧ sizeOf p.2 ≤ n} :=
      (comparesOn_sub.lex (names.lex ih)).of_key (fun p => (p.2.canonicalType, p))
        (fun _ hp => ⟨trivial, trivial, hp⟩) fun _ _ _ _ => rfl
    have bodies := comparesOn_sub.lex ((strings.lex strings).lex elements.lists)
    refine (comparesOn_sub.lex bodies).of_key (fun v => (v.canonicalType, v.body))
      (fun v hv => ⟨trivial, trivial, ⟨trivial, trivial⟩, fun p mem => ?_⟩) fun l hl r hr => ?_
    · obtain ⟨inside, less⟩ := mem_embedded_regular hv.1 mem
      have small := hv.2
      exact ⟨inside, by omega⟩
    · rw [woCompare_eq]
      exact sign_ite rfl fun same => sign_compareElementValues
        (alike_of_canonicalType (sub_eq_zero.mp same)) hl.1 hr.1

/-- On regular values `woCompare` is the comparison of a total preorder. -/
theorem regular_ordered : ComparesOn Value.woCompare {v | v.Regular} where
  flip a ha b hb :=
    (regular_ordered_bounded (sizeOf a + sizeOf b)).flip a ⟨ha, by omega⟩ b ⟨hb, by omega⟩
  trans a ha b hb c hc :=
    (regular_ordered_bounded (sizeOf a + sizeOf b + sizeOf c)).trans a ⟨ha, by omega⟩
      b ⟨hb, by omega⟩ c ⟨hc, by omega⟩

end TokuMX.BSON
