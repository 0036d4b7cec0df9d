import Mathlib.Data.List.TakeWhile
import TokuMX.BSON.Value

/-!
What holds of `woCompare` for all values: a value is equal to itself (`Value.woCompare_self`),
and being equal is symmetric (`Value.woCompare_eq_zero_comm`). Objects are compared under a key
pattern, by the signs of its numbers (`woCompareKey`); an `Ordering` made from the pattern gives
the same (`woCompare_make`).

`woCompare` is no order of all values. It is not transitive where 64-bit integers beyond
`2 ^ 53` meet a double, and not antisymmetric between a date and a timestamp, whose bits are
read with a sign or without one, as the left one's type has it.
-/

namespace TokuMX.BSON

open TokuMX.Lib

/-! ### The comparisons of single types -/

theorem compareInts_eq_zero {l r : Int} : compareInts l r = 0 ↔ l = r := by
  unfold compareInts
  split_ifs with less same
  · simp [less.ne]
  · simp [same]
  · simp [same]

theorem sign_compareInts (l r : Int) : (compareInts l r).sign = (l - r).sign := by
  rw [sign_eq_iff, compareInts]
  split_ifs <;> omega

theorem zero_notMem_cString (s : List UInt8) : 0 ∉ cString s := by
  intro mem
  simpa using List.mem_takeWhile_imp mem

/-- Strings that end at a zero byte. -/
theorem sign_strcmp (l r : List UInt8) :
    (strcmp l r).sign = (compareCounted (cString l) (cString r)).sign := by
  rw [← compareCounted_terminated,
    compareCounted_zero_append (zero_notMem_cString l) (zero_notMem_cString r), strcmp]
  split_ifs with differ
  · rfl
  · rw [not_not.mp differ]
    rfl

theorem memcmp_eq_zero_comm {l r : List UInt8} : memcmp l r = 0 ↔ memcmp r l = 0 := by
  induction l generalizing r with
  | nil => cases r <;> simp [memcmp]
  | cons a l ih =>
    cases r with
    | nil => simp [memcmp]
    | cons b r =>
      rw [memcmp, memcmp]
      split_ifs with less greater greater
      · exact absurd greater (UInt8.lt_asymm less)
      · simp
      · simp
      · exact ih

theorem strcmp_eq_zero_comm {l r : List UInt8} : strcmp l r = 0 ↔ strcmp r l = 0 :=
  memcmp_eq_zero_comm

theorem compareCounted_eq_zero_comm {l r : List UInt8} :
    compareCounted l r = 0 ↔ compareCounted r l = 0 := by
  have common := memcmp_eq_zero_comm (l := l.take (min l.length r.length))
    (r := r.take (min l.length r.length))
  simp only [compareCounted, min_comm r.length]
  split_ifs with left right right
  · exact common
  · exact absurd (common.mpr (not_not.mp right)) left
  · exact absurd (common.mp (not_not.mp left)) right
  · omega

theorem compareDoubles_eq_zero {l r : Binary64.Word} :
    compareDoubles l r = 0 ↔ Binary64.eq l r ∨ Binary64.isNaN l ∧ Binary64.isNaN r := by
  unfold compareDoubles Binary64.lt Binary64.eq
  cases Binary64.isNaN l <;> cases Binary64.isNaN r <;> simp
  split_ifs with less same
  · simp [less.ne]
  · simp [same]
  · simp [same]

theorem compareDoubles_eq_zero_comm {l r : Binary64.Word} :
    compareDoubles l r = 0 ↔ compareDoubles r l = 0 := by
  have same : Binary64.eq l r = Binary64.eq r l := by
    simp only [Binary64.eq, eq_comm (a := Binary64.rank l), Bool.and_comm (!Binary64.isNaN l)]
  rw [compareDoubles_eq_zero, compareDoubles_eq_zero, same,
    and_comm (a := Binary64.isNaN l = true)]

/-- Integers convert in order, and one below `2 ^ 53` apart from every other. -/
theorem compareDoubles_ofInt {a b : Int} (ha : a.natAbs ≤ 2 ^ 63) (hb : b.natAbs ≤ 2 ^ 63)
    (exact : a.natAbs < 2 ^ 53 ∨ b.natAbs < 2 ^ 53) :
    compareDoubles (Binary64.ofInt a) (Binary64.ofInt b) = compareInts a b := by
  unfold compareDoubles compareInts Binary64.lt Binary64.eq
  rw [Binary64.isNaN_ofInt ha, Binary64.isNaN_ofInt hb]
  rcases lt_trichotomy a b with less | same | greater
  · have := Binary64.rank_ofInt_lt less ha hb exact
    simp [this, less]
  · simp [same]
  · have := Binary64.rank_ofInt_lt greater hb ha exact.symm
    simp [greater.not_gt, greater.ne', this.not_gt, this.ne']

theorem natAbs_toInt_le (n : BitVec 64) : n.toInt.natAbs ≤ 2 ^ 63 := by
  have := n.toInt_lt
  have := n.le_toInt
  omega

theorem natAbs_toInt_lt_of_int (n : BitVec 32) : n.toInt.natAbs < 2 ^ 53 := by
  have := n.toInt_lt
  have := n.le_toInt
  omega

/-- One result, or another where it does not decide. -/
theorem ite_eq_zero_comm {c c' d d' : Int} (first : c = 0 ↔ c' = 0) (second : d = 0 ↔ d' = 0) :
    (if c ≠ 0 then c else d) = 0 ↔ (if c' ≠ 0 then c' else d') = 0 := by
  split_ifs with left right right
  · exact first
  · exact absurd (first.mpr (not_not.mp right)) left
  · exact absurd (first.mp (not_not.mp left)) right
  · exact second

/-- The first of two results if it decides, otherwise the second. -/
theorem sign_ite {c c' d d' : Int} (first : c.sign = c'.sign) (second : c' = 0 → d.sign = d'.sign) :
    (if c ≠ 0 then c else d).sign = (if c' ≠ 0 then c' else d').sign := by
  rw [sign_eq_iff] at *
  split_ifs <;> omega

theorem ite_eq_zero_iff {c d : Int} : (if c ≠ 0 then c else d) = 0 ↔ c = 0 ∧ d = 0 := by
  split_ifs <;> omega

theorem sub_eq_zero_comm (l r : Int) : l - r = 0 ↔ r - l = 0 := by omega

/-! ### Types -/

section Types

variable {e e' : Value}

theorem canonicalType_of_isNumber (number : e.isNumber) : e.canonicalType = 10 := by
  cases e with
  | numberInt n => rfl
  | numberLong n => rfl
  | numberDouble d => rfl
  | _ => cases number

theorem woCompare_of_types (types : e.canonicalType ≠ e'.canonicalType) :
    e.woCompare e' = e.canonicalType - e'.canonicalType := by
  have notBoth : ¬ (e.isNumber ∧ e'.isNumber) := by
    rintro ⟨number, number'⟩
    exact types (by rw [canonicalType_of_isNumber number, canonicalType_of_isNumber number'])
  exact if_pos ⟨sub_ne_zero.mpr types, notBoth⟩

theorem woCompare_minKey (v : Value) : 0 ≤ v.woCompare .minKey := by
  cases v <;> simp [Value.woCompare, Value.canonicalType, Value.isNumber, Value.number,
    compareElementValues, compareScalars]

theorem woCompare_maxKey (v : Value) : v.woCompare .maxKey ≤ 0 := by
  cases v <;> simp [Value.woCompare, Value.canonicalType, Value.isNumber, Value.number,
    compareElementValues, compareScalars]

end Types

/-! ### Values of one canonical type -/

/-- The pairs of values that have one canonical type. -/
inductive Alike : Value → Value → Prop
  | undefined : Alike .undefined .undefined
  | null : Alike .null .null
  | maxKey : Alike .maxKey .maxKey
  | minKey : Alike .minKey .minKey
  | bool (a b : Bool) : Alike (.bool a) (.bool b)
  | timestamps (a b : BitVec 64) : Alike (.timestamp a) (.timestamp b)
  | timestampDate (a b : BitVec 64) : Alike (.timestamp a) (.date b)
  | dates (a b : BitVec 64) : Alike (.date a) (.date b)
  | dateTimestamp (a b : BitVec 64) : Alike (.date a) (.timestamp b)
  | doubles (a b : Binary64.Word) : Alike (.numberDouble a) (.numberDouble b)
  | doubleLong (a : Binary64.Word) (b : BitVec 64) : Alike (.numberDouble a) (.numberLong b)
  | doubleInt (a : Binary64.Word) (b : BitVec 32) : Alike (.numberDouble a) (.numberInt b)
  | longDouble (a : BitVec 64) (b : Binary64.Word) : Alike (.numberLong a) (.numberDouble b)
  | longs (a b : BitVec 64) : Alike (.numberLong a) (.numberLong b)
  | longInt (a : BitVec 64) (b : BitVec 32) : Alike (.numberLong a) (.numberInt b)
  | intDouble (a : BitVec 32) (b : Binary64.Word) : Alike (.numberInt a) (.numberDouble b)
  | intLong (a : BitVec 32) (b : BitVec 64) : Alike (.numberInt a) (.numberLong b)
  | ints (a b : BitVec 32) : Alike (.numberInt a) (.numberInt b)
  | oids (a b : OID) : Alike (.oid a) (.oid b)
  | strings (a b : List UInt8) : Alike (.string a) (.string b)
  | stringSymbol (a b : List UInt8) : Alike (.string a) (.symbol b)
  | symbolString (a b : List UInt8) : Alike (.symbol a) (.string b)
  | symbols (a b : List UInt8) : Alike (.symbol a) (.symbol b)
  | codes (a b : List UInt8) : Alike (.code a) (.code b)
  | objects (a b : Fields) : Alike (.object a) (.object b)
  | arrays (a b : Fields) : Alike (.array a) (.array b)
  | dbRefs (a b : List UInt8) : Alike (.dbRef a) (.dbRef b)
  | binDatas (t u : UInt8) (a b : List UInt8) : Alike (.binData t a) (.binData u b)
  | regExs (a f b g : List UInt8) : Alike (.regEx a f) (.regEx b g)
  | codeWScopes (a b : List UInt8) : Alike (.codeWScope a) (.codeWScope b)

theorem alike_of_canonicalType {l r : Value} (same : l.canonicalType = r.canonicalType) :
    Alike l r := by
  cases l <;> cases r <;> first | constructor | cases same

theorem Alike.canonicalType_eq {l r : Value} (alike : Alike l r) :
    l.canonicalType = r.canonicalType := by
  cases alike <;> rfl

/-! ### All values -/

@[simp] theorem strcmp_self (l : List UInt8) : strcmp l l = 0 := memcmp_self _

@[simp] theorem compareCounted_self (l : List UInt8) : compareCounted l l = 0 := by
  simp [compareCounted]

theorem compareDoubles_self (d : Binary64.Word) : compareDoubles d d = 0 := by
  rw [compareDoubles_eq_zero, Binary64.eq]
  cases Binary64.isNaN d <;> simp

mutual

theorem compareElementValues_self (v : Value) : compareElementValues v v = 0 := by
  cases v with
  | object fields => exact compareFields_self fields
  | array fields => exact compareFields_self fields
  | _ => simp [compareElementValues, compareScalars, Value.number, compareInts_eq_zero,
      compareDoubles_self]

theorem compareFields_self (fields : Fields) : compareFields fields fields = 0 := by
  cases fields with
  | nil => rfl
  | cons name v rest =>
    simp [compareFields, compareElementValues_self v, compareFields_self rest]

end

theorem Value.woCompare_self (v : Value) : v.woCompare v = 0 := by
  simp [woCompare, compareElementValues_self]

/-- The order of objects: types first, then names, then values. -/
theorem compareFields_cons (name name' : List UInt8) (v w : Value) (vs ws : Fields) :
    compareFields (.cons name v vs) (.cons name' w ws) =
      let types := v.canonicalType - w.canonicalType
      let values := if strcmp name name' ≠ 0 then strcmp name name' else compareElementValues v w
      let x := if types ≠ 0 then types else values
      if x ≠ 0 then x else compareFields vs ws := by
  have numbers : v.canonicalType - w.canonicalType ≠ 0 ∧ ¬ (v.isNumber ∧ w.isNumber) ↔
      v.canonicalType - w.canonicalType ≠ 0 := by
    refine and_iff_left_of_imp fun differ both => differ ?_
    rw [canonicalType_of_isNumber both.1, canonicalType_of_isNumber both.2, sub_self]
  rw [compareFields]
  simp only [numbers]

theorem compareElementValues_scalar {l r : Value} (object : ∀ a, l ≠ .object a)
    (array : ∀ a, l ≠ .array a) : compareElementValues l r = compareScalars l r := by
  rw [compareElementValues]
  · exact fun a _ eq => absurd eq (object a)
  · exact fun a _ eq => absurd eq (array a)

variable {l r : Value}

/-- The types without a value are alone in their canonical types. -/
theorem eq_of_canonicalType (valueless : l ∈ [.undefined, .null, .maxKey, .minKey])
    (same : (l.canonicalType - r.canonicalType).sign = 0) : l = r := by
  rw [Int.sign_eq_zero_iff_zero] at same
  simp only [List.mem_cons, List.not_mem_nil, or_false] at valueless
  rcases valueless with rfl | rfl | rfl | rfl <;> cases r <;> first | rfl | cases same

/-- Numbers that are compared as doubles one way are so the other way. -/
theorem compareNumbers_eq_zero_comm {left right : Binary64.Word} (hl : l.number = some left)
    (hr : r.number = some right) (long : ∀ a b, l = .numberLong a → r = .numberLong b → False)
    (int : ∀ a b, l = .numberInt a → r = .numberInt b → False)
    (same : compareDoubles left right = 0) : compareScalars r l = 0 := by
  cases l <;> cases hl <;> cases r <;> cases hr <;>
    first
    | exact compareDoubles_eq_zero_comm.mp same
    | exact (long _ _ rfl rfl).elim
    | exact (int _ _ rfl rfl).elim

/-- Values that are equal without being embedded objects are so from both sides. -/
theorem compareScalars_eq_zero_comm : compareScalars l r = 0 → compareScalars r l = 0 := by
  fun_cases compareScalars l r
  case case1 | case2 | case3 | case4 =>
      intro same
      obtain rfl := eq_of_canonicalType (by simp) same
      exact same
  case case5 => exact (sub_eq_zero_comm _ _).mp
  case case6 | case8 | case10 | case11 =>
      simp only [compareScalars, compareInts_eq_zero]
      exact Eq.symm
  case case7 =>
      simp only [compareScalars, compareInts_eq_zero]
      intro same
      rw [BitVec.eq_of_toNat_eq (Int.ofNat.inj same)]
  case case9 =>
      simp only [compareScalars, compareInts_eq_zero]
      intro same
      rw [BitVec.eq_of_toInt_eq same]
  case case12 => exact memcmp_eq_zero_comm.mp
  case case13 | case14 | case15 | case16 | case17 => exact compareCounted_eq_zero_comm.mp
  case case18 | case20 | case22 | case24 => exact fun same => absurd same ‹_›
  case case19 | case21 =>
      intro same
      exact (ite_eq_zero_comm (sub_eq_zero_comm _ _) memcmp_eq_zero_comm).mp
        ((if_neg ‹_›).trans same)
  case case23 | case25 =>
      intro same
      exact (ite_eq_zero_comm strcmp_eq_zero_comm strcmp_eq_zero_comm).mp ((if_neg ‹_›).trans same)
  case case26 => exact compareNumbers_eq_zero_comm ‹_› ‹_› ‹_› ‹_›
  case case27 => exact fun absurdly => by cases absurdly

/-- Values of which not both are embedded. -/
theorem compareElementValues_of_scalar (object : ∀ a b, l = .object a → r = .object b → False)
    (array : ∀ a b, l = .array a → r = .array b → False) :
    compareElementValues l r = 0 ↔ compareElementValues r l = 0 := by
  have left : compareElementValues l r = compareScalars l r := by
    rw [compareElementValues]
    · exact object
    · exact array
  have right : compareElementValues r l = compareScalars r l := by
    rw [compareElementValues]
    · exact fun a b hr hl => object b a hl hr
    · exact fun a b hr hl => array b a hl hr
  rw [left, right]
  exact ⟨compareScalars_eq_zero_comm, compareScalars_eq_zero_comm⟩

/-- The canonical types decide, unless they are the same or of numbers. -/
theorem byTypes_eq_zero_comm {c c' : Int} (rest : c = 0 ↔ c' = 0) :
    (if l.canonicalType - r.canonicalType ≠ 0 ∧ ¬ (l.isNumber ∧ r.isNumber) then
      l.canonicalType - r.canonicalType else c) = 0 ↔
    (if r.canonicalType - l.canonicalType ≠ 0 ∧ ¬ (r.isNumber ∧ l.isNumber) then
      r.canonicalType - l.canonicalType else c') = 0 := by
  simp only [and_comm (a := (r.isNumber : Prop)), ne_eq, sub_eq_zero_comm r.canonicalType]
  split_ifs with differ
  · exact sub_eq_zero_comm _ _
  · exact rest

mutual

theorem compareElementValues_eq_zero_comm (l r : Value) :
    compareElementValues l r = 0 ↔ compareElementValues r l = 0 := by
  cases l with
  | object l =>
    cases r with
    | object r => exact compareFields_eq_zero_comm l r
    | _ => exact compareElementValues_of_scalar (by simp) (by simp)
  | array l =>
    cases r with
    | array r => exact compareFields_eq_zero_comm l r
    | _ => exact compareElementValues_of_scalar (by simp) (by simp)
  | _ => exact compareElementValues_of_scalar (by simp) (by simp)

theorem compareFields_eq_zero_comm (l r : Fields) :
    compareFields l r = 0 ↔ compareFields r l = 0 := by
  cases l with
  | nil => cases r <;> simp [compareFields]
  | cons name l ls =>
    cases r with
    | nil => simp [compareFields]
    | cons name' r rs =>
      have values := compareElementValues_eq_zero_comm l r
      rw [compareFields, compareFields]
      exact ite_eq_zero_comm (byTypes_eq_zero_comm (ite_eq_zero_comm strcmp_eq_zero_comm values))
        (compareFields_eq_zero_comm ls rs)

end

theorem Value.woCompare_eq_zero_comm (l r : Value) : l.woCompare r = 0 ↔ r.woCompare l = 0 :=
  byTypes_eq_zero_comm (compareElementValues_eq_zero_comm l r)

/-! ### Key patterns -/

/-- Objects all of whose fields ascend. -/
theorem woCompareLoop_ascending {α : Type} (compare : α → α → Int) (mask : BitVec 32)
    (l r : List α) : woCompareLoop compare ⟨0⟩ mask l r = compareLists compare l r := by
  fun_induction woCompareLoop compare ⟨0⟩ mask l r with
  | case4 mask l ls r rs x differ => simp_all [compareLists, x, Ordering.descending]
  | case5 mask l ls r rs x same ih => simp_all [compareLists, x, Ordering.descending]
  | _ => rfl

/-- `number() < 0`, of an element of a key pattern. -/
def Value.descends (v : Value) : Bool := v.number.any (Binary64.lt · 0)

/-- `BSONObj::woCompare` under a key pattern, whose end counts as ascending. -/
def woCompareKey : List Value → List Value → List Value → Int
  | _, [], [] => 0
  | _, [], _ :: _ => -1
  | _, _ :: _, [] => 1
  | idxKey, l :: ls, r :: rs =>
    let x := if idxKey.head?.any Value.descends then -l.woCompare r else l.woCompare r
    if x ≠ 0 then x else woCompareKey idxKey.tail ls rs

/-- The loop of `Ordering::make`. It refuses more than 32 fields (13103). -/
def makeLoop : BitVec 32 → Nat → List Value → Option (BitVec 32)
  | b, _, [] => some b
  | b, n, e :: rest =>
    if n ≤ 31 then makeLoop (if e.descends then b ||| 1#32 <<< n else b) (n + 1) rest else none

/-- `Ordering::make`. -/
def Ordering.make (obj : List Value) : Option Ordering := (makeLoop 0 0 obj).map .mk

variable {obj : List Value}

/-- The bits that the loop sets. -/
theorem makeLoop_getLsbD {b bits : BitVec 32} {n : Nat} (made : makeLoop b n obj = some bits)
    (i : Nat) :
    bits.getLsbD i = (b.getLsbD i || (decide (n ≤ i) && obj[i - n]?.any Value.descends)) := by
  induction obj generalizing b n with
  | nil =>
    cases made
    simp
  | cons e rest ih =>
    rw [makeLoop] at made
    by_cases few : n ≤ 31
    · rw [if_pos few] at made
      have bit : (if e.descends then b ||| 1#32 <<< n else b).getLsbD i =
          (b.getLsbD i || (e.descends && decide (i = n))) := by
        cases e.descends with
        | false => simp
        | true =>
          rw [if_pos rfl, BitVec.getLsbD_or, ← BitVec.twoPow, BitVec.getLsbD_twoPow]
          simp [Nat.lt_succ_of_le few, eq_comm (a := i)]
      rw [ih made, bit]
      rcases lt_trichotomy i n with below | rfl | above
      · simp [below.ne, not_le.mpr below, not_le.mpr (below.trans (Nat.lt_succ_self n))]
      · simp
      · have index : i - n = i - (n + 1) + 1 := by omega
        simp [above.ne', above.le, Nat.succ_le_of_lt above, index]
    · rw [if_neg few] at made
      cases made

theorem makeLoop_length {b bits : BitVec 32} {n : Nat} (made : makeLoop b n obj = some bits) :
    obj = [] ∨ n + obj.length ≤ 32 := by
  induction obj generalizing b n with
  | nil => exact .inl rfl
  | cons e rest ih =>
    rw [makeLoop] at made
    by_cases few : n ≤ 31
    · rw [if_pos few] at made
      simp only [List.length_cons]
      rcases ih made with rfl | short
      · exact .inr (Nat.succ_le_succ few)
      · exact .inr (by omega)
    · rw [if_neg few] at made
      cases made

variable {order : Ordering}

section

variable (made : Ordering.make obj = some order)
include made

theorem Ordering.descending_make (n : Nat) :
    order.descending (1#32 <<< n) = obj[n]?.any Value.descends := by
  obtain ⟨bits, looped, rfl⟩ := Option.map_eq_some_iff.mp made
  have bit := makeLoop_getLsbD looped n
  rw [Ordering.descending, ← BitVec.twoPow, BitVec.and_twoPow, bit]
  simp only [Nat.zero_le, decide_true, Bool.true_and, Nat.sub_zero]
  cases here : obj[n]?.any Value.descends with
  | false => simp
  | true =>
    have inside : n < obj.length := by
      by_contra outside
      rw [List.getElem?_eq_none (not_lt.mp outside)] at here
      cases here
    have few : n < 32 := by
      rcases makeLoop_length looped with rfl | short
      · cases inside
      · omega
    have set : BitVec.twoPow 32 n ≠ 0 := by
      intro zero
      have unset := congrArg (BitVec.getLsbD · n) zero
      simp [few] at unset
    simpa using set

theorem woCompareLoop_make (n : Nat) (l r : List Value) :
    woCompareLoop Value.woCompare order (1#32 <<< n) l r = woCompareKey (obj.drop n) l r := by
  induction l generalizing r n with
  | nil => cases r <;> rfl
  | cons a l ih =>
    cases r with
    | nil => rfl
    | cons b r =>
      rw [woCompareLoop, woCompareKey, Ordering.descending_make made, List.head?_drop,
        List.tail_drop, ← ih, BitVec.shiftLeft_add]

end

end TokuMX.BSON
