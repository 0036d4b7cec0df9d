import TokuMX.Pipeline.Value

/-!
How the order and the hash of aggregation values relate to the order of BSON values.

`Value::compare` is to behave as `BSONElement::woCompare` does. It does so on all values without
embedded ones but `DBRef`s, whose namespaces it does not compare (`sign_compareScalars`). In
embedded objects it looks at names before types, where `woCompare` looks at types first.

* `compare_refines` — two elements that agree (`Agrees`) give values that are ordered alike, and
  hashed alike where they compare equal; others do not, unless values embedded in them differ only
  for `woCompare` (`EmbeddedApart`).
-/

namespace TokuMX.Pipeline

open TokuMX.Lib BSON Value Document

/-! ### Signs -/

@[simp] theorem canonicalType_ofElement (v : BSON.Value) :
    (ofElement v).canonicalType = v.canonicalType := by
  cases v <;> rfl

theorem sign_compareStrings (l r : List UInt8) :
    (compareStrings l r).sign = (compareCounted l r).sign := by
  rw [sign_eq_iff, compareStrings, compareCounted, compareInts]
  split_ifs <;> omega

theorem compareStrings_self (s : List UInt8) : compareStrings s s = 0 := by
  simp [compareStrings, compareInts_eq_zero]

theorem sign_compareStrings_cString (l r : List UInt8) :
    (compareStrings (cString l) (cString r)).sign = (strcmp l r).sign := by
  rw [sign_compareStrings, sign_strcmp]

/-- A pattern and its flags in one string. -/
theorem sign_compareStrings_regEx (a f b g : List UInt8) :
    (compareStrings (cString a ++ 0 :: cString f) (cString b ++ 0 :: cString g)).sign =
      (if strcmp a b ≠ 0 then strcmp a b else strcmp f g).sign := by
  rw [sign_compareStrings,
    compareCounted_zero_append (zero_notMem_cString a) (zero_notMem_cString b)]
  exact sign_ite rfl fun _ => (sign_strcmp f g).symm

theorem sign_binData (t u : UInt8) {a b : List UInt8} (length : a.length = b.length) :
    (if compareInts t.toNat u.toNat ≠ 0 then compareInts t.toNat u.toNat
      else compareStrings a b).sign = (memcmp (t :: a) (u :: b)).sign := by
  rw [sign_eq_iff, memcmp]
  have data := sign_eq_iff.mp (sign_compareStrings a b)
  rw [compareCounted_of_length length] at data
  simp only [compareInts, UInt8.lt_iff_toNat_lt]
  split_ifs <;> omega

/-- Values without embedded ones, `DBRef` apart, are compared alike. -/
theorem sign_compareScalars {l r : BSON.Value} (alike : Alike l r)
    (dbRef : ∀ a, l ≠ .dbRef a) (object : ∀ a, l ≠ .object a) (array : ∀ a, l ≠ .array a) :
    (compareScalars (ofElement l) (ofElement r)).sign = (BSON.compareScalars l r).sign := by
  cases alike with
  | undefined | null | maxKey | minKey | bool | timestamps | timestampDate | dates
  | dateTimestamp | oids | doubles | doubleLong | doubleInt | longDouble | intDouble | longs
  | ints => rfl
  | longInt a b =>
    exact congrArg Int.sign (compareDoubles_ofInt (natAbs_toInt_le a) (by
      have := natAbs_toInt_lt_of_int b
      omega) (.inr (natAbs_toInt_lt_of_int b))).symm
  | intLong a b =>
    exact congrArg Int.sign (compareDoubles_ofInt (by
      have := natAbs_toInt_lt_of_int a
      omega) (natAbs_toInt_le b) (.inl (natAbs_toInt_lt_of_int a))).symm
  | strings a b | stringSymbol a b | symbolString a b | symbols a b | codes a b =>
    exact (sign_compareStrings a b).trans (compareCounted_terminated a b).symm
  | objects a b => exact absurd rfl (object a)
  | arrays a b => exact absurd rfl (array a)
  | dbRefs a b => exact absurd rfl (dbRef a)
  | binDatas t u a b =>
    exact sign_ite (sign_compareInts _ _) fun same => sign_binData t u (by omega)
  | regExs a f b g => exact sign_compareStrings_regEx a f b g
  | codeWScopes a b => exact sign_ite (sign_compareStrings_cString a b) fun _ => rfl

/-! ### Equal values -/

theorem cString_eq_of_strcmp {l r : List UInt8} (same : strcmp l r = 0) :
    cString l = cString r := by
  have whole := compareCounted_zero_append (zero_notMem_cString l) (zero_notMem_cString r) [] []
  rw [← strcmp, if_neg (not_not.mpr same)] at whole
  exact List.append_cancel_right (eq_of_compareCounted whole)

/-- Doubles at one place of the order are the same word, or the two zeros. -/
theorem eq_or_zero_of_rank {l r : Binary64.Word} (same : Binary64.rank l = Binary64.rank r) :
    l = r ∨ Binary64.magnitude l = 0 ∧ Binary64.magnitude r = 0 := by
  have hl := l.isLt
  have hr := r.isLt
  unfold Binary64.rank Binary64.magnitude at *
  by_cases word : l.toNat = r.toNat
  · exact .inl (BitVec.eq_of_toNat_eq word)
  · right
    split_ifs at same <;> omega

theorem floatHashValue_eq (float_hash_impl : Binary64.Word → BitVec 64) {l r : Binary64.Word}
    (same : compareDoubles l r = 0) :
    floatHashValue float_hash_impl l = floatHashValue float_hash_impl r := by
  rcases compareDoubles_eq_zero.mp same with equal | ⟨nan, nan'⟩
  · simp only [Binary64.eq, Bool.and_eq_true, decide_eq_true_eq] at equal
    rcases eq_or_zero_of_rank equal.2 with word | ⟨zero, zero'⟩
    · rw [word]
    · rw [floatHashValue, floatHashValue, if_pos zero, if_pos zero']
  · have large := nan
    have large' := nan'
    simp only [Binary64.isNaN, decide_eq_true_eq] at large large'
    rw [floatHashValue, floatHashValue, if_neg (by omega), if_neg (by omega), if_pos nan,
      if_neg (by omega), if_neg (by omega), if_pos nan']

variable (float_hash_impl : Binary64.Word → BitVec 64)

/-- The two values compare equal and have the same hash. -/
def SameHash (l r : BSON.Value) : Prop :=
  Value.compare (Value.ofElement l) (Value.ofElement r) = 0 ∧
    ∀ seed, Value.hashCombine float_hash_impl seed (Value.ofElement l) =
      Value.hashCombine float_hash_impl seed (Value.ofElement r)

theorem compare_of_scalar {l r : BSON.Value} (alike : Alike l r) (object : ∀ a, l ≠ .object a)
    (array : ∀ a, l ≠ .array a) :
    compare (ofElement l) (ofElement r) = compareScalars (ofElement l) (ofElement r) := by
  cases alike with
  | objects a b => exact absurd rfl (object a)
  | arrays a b => exact absurd rfl (array a)
  | _ => rfl

theorem hashScalars_eq {l r : BSON.Value} (alike : Alike l r)
    (same : BSON.compareScalars l r = 0) (seed : BitVec 64) :
    hashScalars float_hash_impl seed (ofElement l) =
      hashScalars float_hash_impl seed (ofElement r) := by
  cases alike with
  | undefined | null | maxKey | minKey | objects | arrays => rfl
  | bool a b =>
    have equal : a.toNat = b.toNat := Int.ofNat.inj (sub_eq_zero.mp same)
    simp only [ofElement, hashScalars, equal]
  | timestamps a b | timestampDate a b =>
    obtain rfl : a = b := BitVec.eq_of_toNat_eq (Int.ofNat.inj (compareInts_eq_zero.mp same))
    rfl
  | dates a b | dateTimestamp a b =>
    obtain rfl : a = b := BitVec.eq_of_toInt_eq (compareInts_eq_zero.mp same)
    rfl
  | doubles a b | doubleLong a b | doubleInt a b | longDouble a b | intDouble a b | longInt a b
  | intLong a b =>
    exact congrArg (hashCombine seed) (floatHashValue_eq float_hash_impl same)
  | longs a b | ints a b =>
    rw [BitVec.eq_of_toInt_eq (compareInts_eq_zero.mp same)]
  | oids a b =>
    rw [Subtype.ext (eq_of_memcmp (a.property.trans b.property.symm) same)]
  | strings a b | stringSymbol a b | symbolString a b | symbols a b | codes a b =>
    obtain rfl : a = b := List.append_cancel_right (eq_of_compareCounted same)
    rfl
  | dbRefs a b =>
    obtain ⟨length, bytes⟩ := ite_eq_zero_iff.mp same
    rw [eq_of_memcmp (by omega) bytes]
  | binDatas t u a b =>
    obtain ⟨length, bytes⟩ := ite_eq_zero_iff.mp same
    obtain ⟨rfl, rfl⟩ := List.cons.inj
      (eq_of_memcmp (l := t :: a) (r := u :: b) (by simp only [List.length_cons]; omega) bytes)
    rfl
  | regExs a f b g =>
    obtain ⟨pattern, flags⟩ := ite_eq_zero_iff.mp same
    simp only [ofElement, cString_eq_of_strcmp pattern, cString_eq_of_strcmp flags]
  | codeWScopes a b =>
    obtain ⟨code, -⟩ := ite_eq_zero_iff.mp same
    simp only [ofElement, hashScalars, cString_eq_of_strcmp code]

/-- `DBRef`s that are the same. -/
theorem compareScalars_eq_zero {l r : BSON.Value} (alike : Alike l r)
    (object : ∀ a, l ≠ .object a) (array : ∀ a, l ≠ .array a)
    (same : BSON.compareScalars l r = 0) :
    compareScalars (ofElement l) (ofElement r) = 0 := by
  by_cases dbRef : ∃ a, l = .dbRef a
  · obtain ⟨a, rfl⟩ := dbRef
    cases alike with
    | dbRefs a b =>
      obtain ⟨length, bytes⟩ := ite_eq_zero_iff.mp same
      obtain rfl := eq_of_memcmp (by omega) bytes
      simp [ofElement, compareScalars, compareInts_eq_zero]
  · have sign := sign_compareScalars alike (fun a eq => dbRef ⟨a, eq⟩) object array
    rw [same] at sign
    exact Int.sign_eq_zero_iff_zero.mp sign

/-- Objects that are equal have equal first elements. -/
theorem compareFields_eq_zero {name name' : List UInt8} {v w : BSON.Value} {vs ws : Fields}
    (same : compareFields (.cons name v vs) (.cons name' w ws) = 0) :
    Alike v w ∧ strcmp name name' = 0 ∧ compareElementValues v w = 0 ∧ compareFields vs ws = 0 := by
  rw [compareFields_cons] at same
  obtain ⟨first, rest⟩ := ite_eq_zero_iff.mp same
  obtain ⟨types, values⟩ := ite_eq_zero_iff.mp first
  obtain ⟨names, equal⟩ := ite_eq_zero_iff.mp values
  exact ⟨alike_of_canonicalType (sub_eq_zero.mp types), names, equal, rest⟩

theorem hashCombine_scalar {v : BSON.Value} (object : ∀ a, v ≠ .object a)
    (array : ∀ a, v ≠ .array a) (seed : BitVec 64) :
    Value.hashCombine float_hash_impl seed (Value.ofElement v) =
      hashScalars float_hash_impl (hashCombine seed (BitVec.ofInt 64 v.canonicalType))
        (ofElement v) := by
  cases v with
  | object a => exact absurd rfl (object a)
  | array a => exact absurd rfl (array a)
  | _ => rfl

theorem sameHash_of_scalar {l r : BSON.Value} (alike : Alike l r) (object : ∀ a, l ≠ .object a)
    (array : ∀ a, l ≠ .array a) (same : compareElementValues l r = 0) :
    SameHash float_hash_impl l r := by
  rw [compareElementValues_scalar object array] at same
  have object' : ∀ a, r ≠ .object a := by
    rintro a rfl
    cases alike
    exact object _ rfl
  have array' : ∀ a, r ≠ .array a := by
    rintro a rfl
    cases alike
    exact array _ rfl
  constructor
  · rw [compare_of_scalar alike object array]
    exact compareScalars_eq_zero alike object array same
  · intro seed
    rw [hashCombine_scalar float_hash_impl object array,
      hashCombine_scalar float_hash_impl object' array', alike.canonicalType_eq]
    exact hashScalars_eq float_hash_impl alike same _

mutual

/-- Elements that are equal give values that are equal and have the same hash. -/
theorem sameHash_of_equal {l r : BSON.Value} (alike : Alike l r)
    (same : compareElementValues l r = 0) : SameHash float_hash_impl l r := by
  cases l with
  | object a =>
    cases alike with
    | objects a b =>
      obtain ⟨equal, hash⟩ := sameHash_of_fields same
      exact ⟨equal, fun seed => hash _⟩
  | array a =>
    cases alike with
    | arrays a b =>
      obtain ⟨equal, hash⟩ := sameHash_of_elements same
      exact ⟨equal, fun seed => hash _⟩
  | _ => exact sameHash_of_scalar float_hash_impl alike (by simp) (by simp) same

theorem sameHash_of_fields {l r : Fields} (same : compareFields l r = 0) :
    compare (ofObject l) (ofObject r) = 0 ∧
      ∀ seed, Document.hashCombine float_hash_impl seed (Document.ofObject l) =
        Document.hashCombine float_hash_impl seed (Document.ofObject r) := by
  cases l <;> cases r
  case nil.nil => exact ⟨rfl, fun _ => rfl⟩
  case cons.cons name v vs name' w ws =>
    obtain ⟨alike, names, values, rest⟩ := compareFields_eq_zero same
    obtain ⟨equal, hash⟩ := sameHash_of_equal alike values
    obtain ⟨equal', hash'⟩ := sameHash_of_fields rest
    rw [ofObject, ofObject, cString_eq_of_strcmp names]
    constructor
    · rw [Document.compare, compareStrings_self, equal]
      exact equal'
    · intro seed
      rw [Document.hashCombine, Document.hashCombine, hash]
      exact hash' _
  all_goals cases same

theorem sameHash_of_elements {l r : Fields} (same : compareFields l r = 0) :
    Values.compare (Values.ofObject l) (Values.ofObject r) = 0 ∧
      ∀ seed, Values.hashCombine float_hash_impl seed (Values.ofObject l) =
        Values.hashCombine float_hash_impl seed (Values.ofObject r) := by
  cases l <;> cases r
  case nil.nil => exact ⟨rfl, fun _ => rfl⟩
  case cons.cons name v vs name' w ws =>
    obtain ⟨alike, -, values, rest⟩ := compareFields_eq_zero same
    obtain ⟨equal, hash⟩ := sameHash_of_equal alike values
    obtain ⟨equal', hash'⟩ := sameHash_of_elements rest
    constructor
    · rw [Values.ofObject, Values.ofObject, Values.compare, equal]
      exact equal'
    · intro seed
      rw [Values.ofObject, Values.ofObject, Values.hashCombine, Values.hashCombine, hash]
      exact hash' _
  all_goals cases same

end

/-! ### Where the two orders agree -/

/-- The lengths and bytes of two `DBRef`s are in the order of the lengths of their namespaces and
their object ids. -/
def DBRefsAgree (a b : List UInt8) : Prop :=
  (if (a.length : Int) - b.length ≠ 0 then (a.length : Int) - b.length else memcmp a b).sign =
    (if ((dbrefNS a).length : Int) - (dbrefNS b).length ≠ 0 then
      ((dbrefNS a).length : Int) - (dbrefNS b).length
    else memcmp (dbrefOID a) (dbrefOID b)).sign

mutual

/-- Whether two values of one canonical type are ordered alike. -/
def Agrees : BSON.Value → BSON.Value → Prop
  | .object l, .object r => FieldsAgree l r
  | .array l, .array r => ElementsAgree l r
  | .dbRef a, .dbRef b => DBRefsAgree a b
  | _, _ => True

/-- Whether two objects are: at the first field where they differ, the values are if the names are
the same; otherwise the types must be the same or in the same order as the names. -/
def FieldsAgree : Fields → Fields → Prop
  | .cons name v vs, .cons name' w ws =>
    if strcmp name name' ≠ 0 then
      v.canonicalType = w.canonicalType ∨
        (v.canonicalType - w.canonicalType).sign = (strcmp name name').sign
    else
      v.canonicalType = w.canonicalType →
        if compareElementValues v w = 0 then FieldsAgree vs ws else Agrees v w
  | _, _ => True

/-- Whether two arrays are: up to the first element where they differ the names are the same, as
they are if an array builder has written them, and there the values are ordered alike. -/
def ElementsAgree : Fields → Fields → Prop
  | .cons name v vs, .cons name' w ws =>
    v.canonicalType = w.canonicalType → strcmp name name' = 0 ∧
      if compareElementValues v w = 0 then ElementsAgree vs ws else Agrees v w
  | _, _ => True

end

/-- Two `DBRef`s with namespaces of one length and one object id are the same. -/
def RefsApart : BSON.Value → BSON.Value → Prop
  | .dbRef a, .dbRef b => (dbrefNS a).length = (dbrefNS b).length →
      memcmp (dbrefOID a) (dbrefOID b) = 0 → a = b
  | _, _ => True

mutual

/-- No embedded values at one place of both differ only for `woCompare`: neither in the namespace
of a `DBRef`, nor in the name of an element of an array. -/
def EmbeddedApart : BSON.Value → BSON.Value → Prop
  | .object l, .object r => FieldsApart l r
  | .array l, .array r => ElementsApart l r
  | _, _ => True

/-- The same of the fields of two objects. -/
def FieldsApart : Fields → Fields → Prop
  | .cons _ v vs, .cons _ w ws => (RefsApart v w ∧ EmbeddedApart v w) ∧ FieldsApart vs ws
  | _, _ => True

/-- The same of the elements of two arrays. -/
def ElementsApart : Fields → Fields → Prop
  | .cons name v vs, .cons name' w ws =>
    strcmp name name' = 0 ∧ (RefsApart v w ∧ EmbeddedApart v w) ∧ ElementsApart vs ws
  | _, _ => True

end

/-! ### The orders -/

/-- How two results relate: they have one sign if the values agree; only if, where the embedded
values are `apart`; and then the first is zero only if the second is, if `refs` holds too. -/
structure Relates (agrees refs apart : Prop) (value bson : Int) : Prop where
  sound : agrees → value.sign = bson.sign
  exact : apart → value.sign = bson.sign → agrees
  equal : refs ∧ apart → value = 0 → bson = 0

/-- A first pair of values decides if it can. -/
theorem Relates.step {agrees agrees' refs apart apart' : Prop} {value bson later later' : Int}
    (same : bson = 0 → value = 0) (first : Relates agrees refs apart value bson)
    (second : Relates agrees' True apart' later later') :
    Relates (if bson = 0 then agrees' else agrees) True ((refs ∧ apart) ∧ apart')
      (if value ≠ 0 then value else later) (if bson ≠ 0 then bson else later') := by
  by_cases undecided : bson = 0
  · simp only [undecided, same undecided, ne_eq, not_true_eq_false, if_false, if_true]
    exact ⟨second.sound, fun apart => second.exact apart.2,
      fun ⟨_, apart⟩ => second.equal ⟨trivial, apart.2⟩⟩
  · simp only [undecided, ne_eq, not_false_eq_true, if_true, if_false]
    refine ⟨fun agrees => ?_, fun ⟨here, _⟩ sign => ?_, fun ⟨_, here, _⟩ zero => ?_⟩
    · have sign := first.sound agrees
      have decided : value ≠ 0 := by
        rintro rfl
        exact undecided (Int.sign_eq_zero_iff_zero.mp (by rw [← sign, Int.sign_zero]))
      rwa [if_pos decided]
    · have decided : value ≠ 0 := fun zero => undecided (first.equal here zero)
      rw [if_pos decided] at sign
      exact first.exact here.2 sign
    · exact first.equal here (ite_eq_zero_iff.mp zero).1

theorem Relates.of_sign {agrees refs apart : Prop} {value bson : Int} (agree : agrees)
    (sign : value.sign = bson.sign) : Relates agrees refs apart value bson where
  sound _ := sign
  exact _ _ := agree
  equal _ zero := Int.sign_eq_zero_iff_zero.mp (by rw [← sign, zero, Int.sign_zero])

theorem compare_of_types {l r : BSON.Value} (differ : l.canonicalType ≠ r.canonicalType) :
    compare (ofElement l) (ofElement r) = compareInts l.canonicalType r.canonicalType := by
  have decided : compareInts l.canonicalType r.canonicalType ≠ 0 := by
    rwa [ne_eq, compareInts_eq_zero]
  have oneType : (ofElement l).canonicalType ≠ (ofElement r).canonicalType := by
    rwa [canonicalType_ofElement, canonicalType_ofElement]
  rw [Value.compare, canonicalType_ofElement, canonicalType_ofElement, if_pos decided]
  · exact fun a b hl hr => oneType (by rw [hl, hr]; rfl)
  · exact fun a b hl hr => oneType (by rw [hl, hr]; rfl)

theorem relates_scalar {l r : BSON.Value} (alike : Alike l r) (dbRef : ∀ a, l ≠ .dbRef a)
    (object : ∀ a, l ≠ .object a) (array : ∀ a, l ≠ .array a) :
    Relates (Agrees l r) (RefsApart l r) (EmbeddedApart l r)
      (compare (ofElement l) (ofElement r)) (compareElementValues l r) := by
  refine .of_sign ?_ ?_
  · cases alike with
    | dbRefs a b => exact absurd rfl (dbRef a)
    | objects a b => exact absurd rfl (object a)
    | arrays a b => exact absurd rfl (array a)
    | _ => trivial
  · rw [compare_of_scalar alike object array, compareElementValues_scalar object array]
    exact sign_compareScalars alike dbRef object array

theorem relates_dbRef (a b : List UInt8) :
    Relates (Agrees (.dbRef a) (.dbRef b)) (RefsApart (.dbRef a) (.dbRef b)) True
      (compare (ofElement (.dbRef a)) (ofElement (.dbRef b)))
      (compareElementValues (.dbRef a) (.dbRef b)) := by
  have pointers := sign_ite (sign_compareInts (dbrefNS a).length (dbrefNS b).length)
    (d := memcmp (dbrefOID a) (dbrefOID b)) fun _ => rfl
  have agrees : (compare (ofElement (.dbRef a)) (ofElement (.dbRef b))).sign =
      (compareElementValues (.dbRef a) (.dbRef b)).sign ↔ Agrees (.dbRef a) (.dbRef b) := by
    rw [Agrees, DBRefsAgree, ← pointers]
    exact eq_comm
  refine ⟨agrees.mpr, fun _ => agrees.mp, fun ⟨apart, _⟩ zero => ?_⟩
  obtain ⟨lengths, ids⟩ := ite_eq_zero_iff.mp zero
  obtain rfl := apart (Int.ofNat.inj (compareInts_eq_zero.mp lengths)) ids
  simp [compareElementValues, BSON.compareScalars]

/-- Values of one canonical type whose elements are equal are equal. -/
theorem compare_eq_zero {l r : BSON.Value} (alike : Alike l r)
    (same : compareElementValues l r = 0) :
    compare (ofElement l) (ofElement r) = 0 :=
  (sameHash_of_equal (fun _ => 0) alike same).1

mutual

theorem relates_value {l r : BSON.Value} (alike : Alike l r) :
    Relates (Agrees l r) (RefsApart l r) (EmbeddedApart l r)
      (compare (ofElement l) (ofElement r)) (compareElementValues l r) := by
  cases l with
  | object a =>
    cases alike with
    | objects a b => exact relates_document a b
  | array a =>
    cases alike with
    | arrays a b => exact relates_values a b
  | dbRef a =>
    cases alike with
    | dbRefs a b => exact relates_dbRef a b
  | _ => exact relates_scalar alike (by simp) (by simp) (by simp)

theorem relates_document (l r : Fields) :
    Relates (FieldsAgree l r) True (FieldsApart l r) (compare (ofObject l) (ofObject r))
      (compareFields l r) := by
  cases l with
  | nil => cases r <;> exact .of_sign (by simp [FieldsAgree]) rfl
  | cons name v vs =>
    cases r with
    | nil => exact .of_sign (by simp [FieldsAgree]) rfl
    | cons name' w ws =>
      have nameSign := sign_compareStrings_cString name name'
      have later := relates_document vs ws
      rw [Document.ofObject, Document.ofObject, Document.compare, compareFields_cons, FieldsAgree,
        FieldsApart]
      by_cases names : strcmp name name' = 0
      · have named : compareStrings (cString name) (cString name') = 0 := by
          simpa [names] using nameSign
        by_cases types : v.canonicalType = w.canonicalType
        · have alike := alike_of_canonicalType types
          have step := Relates.step (compare_eq_zero alike) (relates_value alike) later
          simpa [names, named, types] using step
        · have differ : v.canonicalType - w.canonicalType ≠ 0 := sub_ne_zero.mpr types
          refine .of_sign (by simp [names, types]) ?_
          simp [named, differ, compare_of_types types, compareInts_eq_zero, sign_compareInts,
            types]
      · have named : compareStrings (cString name) (cString name') ≠ 0 := by
          intro same
          rw [same] at nameSign
          exact names (Int.sign_eq_zero_iff_zero.mp nameSign.symm)
        by_cases types : v.canonicalType = w.canonicalType
        · exact .of_sign (by simp [names, types]) (by simp [names, named, types, nameSign])
        · have differ : v.canonicalType - w.canonicalType ≠ 0 := sub_ne_zero.mpr types
          simp only [names, named, types, differ, ne_eq, not_false_eq_true, if_true, false_or]
          exact ⟨fun sign => nameSign.trans sign.symm,
            fun _ sign => sign.symm.trans nameSign, fun _ zero => absurd zero named⟩

theorem relates_values (l r : Fields) :
    Relates (ElementsAgree l r) True (ElementsApart l r)
      (Values.compare (Values.ofObject l) (Values.ofObject r)) (compareFields l r) := by
  cases l with
  | nil => cases r <;> exact .of_sign (by simp [ElementsAgree]) rfl
  | cons name v vs =>
    cases r with
    | nil => exact .of_sign (by simp [ElementsAgree]) rfl
    | cons name' w ws =>
      have later := relates_values vs ws
      rw [Values.ofObject, Values.ofObject, Values.compare, compareFields_cons, ElementsAgree,
        ElementsApart]
      by_cases types : v.canonicalType = w.canonicalType
      · have alike := alike_of_canonicalType types
        by_cases names : strcmp name name' = 0
        · have step := Relates.step (compare_eq_zero alike) (relates_value alike) later
          simpa [names, types] using step
        · refine ⟨?_, ?_, ?_⟩ <;> simp [names, types]
      · have differ : v.canonicalType - w.canonicalType ≠ 0 := sub_ne_zero.mpr types
        refine .of_sign (by simp [types]) ?_
        simp [differ, compare_of_types types, compareInts_eq_zero, sign_compareInts, types]

end

/-- Values of different canonical types are ordered by them. -/
theorem agrees_of_types {l r : BSON.Value} (differ : l.canonicalType ≠ r.canonicalType) :
    Agrees l r := by
  rw [Agrees]
  · trivial
  · rintro a b rfl rfl
    exact differ rfl
  · rintro a b rfl rfl
    exact differ rfl
  · rintro a b rfl rfl
    exact differ rfl

/-- Two elements that agree give values that are ordered as they are, and have the same hash if
they compare equal. If the embedded values of both are apart, only elements that agree do. -/
theorem compare_refines (float_hash_impl : Binary64.Word → BitVec 64) (l r : BSON.Value) :
    let refines := (Value.compare (Value.ofElement l) (Value.ofElement r)).sign =
        (l.woCompare r).sign ∧
      (Value.compare (Value.ofElement l) (Value.ofElement r) = 0 →
        ∀ seed, Value.hashCombine float_hash_impl seed (Value.ofElement l) =
          Value.hashCombine float_hash_impl seed (Value.ofElement r))
    (Agrees l r → refines) ∧ (EmbeddedApart l r → refines → Agrees l r) := by
  by_cases types : l.canonicalType = r.canonicalType
  · have alike := alike_of_canonicalType types
    have order : l.woCompare r = compareElementValues l r := by
      rw [BSON.Value.woCompare, types, sub_self]
      simp
    have relates := relates_value alike
    rw [order]
    refine ⟨fun agrees => ⟨relates.sound agrees, fun same seed => ?_⟩,
      fun apart refines => relates.exact apart refines.1⟩
    have sign := relates.sound agrees
    rw [same, Int.sign_zero, eq_comm, Int.sign_eq_zero_iff_zero] at sign
    exact (sameHash_of_equal float_hash_impl alike sign).2 seed
  · have decided : compareInts l.canonicalType r.canonicalType ≠ 0 := by
      rwa [ne_eq, compareInts_eq_zero]
    refine ⟨fun _ => ⟨?_, ?_⟩, fun _ _ => agrees_of_types types⟩
    · rw [compare_of_types types, sign_compareInts, woCompare_of_types types]
    · rw [compare_of_types types]
      exact fun same => absurd same decided

/-! ### Where they do not -/

/-- The value of a `DBRef`. -/
def dbRefBytes (ns oid : List UInt8) : List UInt8 := leBytes 4 (ns.length + 1) ++ (ns ++ 0 :: oid)

/-- `{a: "x"}` and `{b: 1}`: the name decides, not the type. Two `DBRef`s with the namespaces `a`
and `b` and one object id: they are equal but their hashes are not. -/
theorem compare_disagrees :
    let l : BSON.Value := .object (.cons [97] (.string [120]) .nil)
    let r : BSON.Value := .object (.cons [98] (.numberInt 1) .nil)
    let p : BSON.Value := .dbRef (dbRefBytes [97] (List.replicate 12 0))
    let q : BSON.Value := .dbRef (dbRefBytes [98] (List.replicate 12 0))
    (Value.compare (Value.ofElement l) (Value.ofElement r) < 0 ∧ 0 < l.woCompare r) ∧
      Value.compare (Value.ofElement p) (Value.ofElement q) = 0 ∧ p.woCompare q < 0 ∧
      Value.hashCombine (fun _ => 0) 0 (Value.ofElement p) ≠
        Value.hashCombine (fun _ => 0) 0 (Value.ofElement q) := by
  decide +kernel

end TokuMX.Pipeline
