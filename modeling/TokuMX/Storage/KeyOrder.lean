import TokuMX.Lib.FieldOrder
import TokuMX.Storage.KeyV1

/-!
The order of stored index keys (`db/storage/key.cpp`) against the order of the objects they
were made from.

* `compare_stored` — what comparing two stored fields finds: the order of the values, except
  that numbers of a field with more fields behind it are taken for doubles as they lie there.
* `woCompare_agrees_iff` — stored keys are ordered as their objects, under every `Ordering`,
  exactly when no long beyond `2 ^ 53` is misread with consequences.
* `woCompare_misread` — one that is.

A long beyond `2 ^ 53` is stored as it is, and `compare` recognises one by its type byte. It
does so with the bit for more fields in it, so only in the last field of a key.
-/

namespace TokuMX.Storage

open TokuMX.Lib TokuMX.BSON

/-- The two comparisons of `compare` for doubles. -/
def compareWords (left right : Binary64.Word) : Int :=
  if Binary64.lt left right then -1 else if Binary64.eq left right = false then 1 else 0

/-- The `cdouble` case of `compare`. -/
def compareNumbers (ltReal rtReal : UInt8) (l r : BitVec 64) : Int :=
  if ltReal = cint64 ∧ rtReal = cint64 then
    if l.toInt < r.toInt then -1 else if l.toInt ≠ r.toInt then 1 else 0
  else
    compareWords (if ltReal = cint64 then Binary64.ofInt l.toInt else l)
      (if rtReal = cint64 then Binary64.ofInt r.toInt else r)

/-- `compare`: the result for one field and, if it is zero, where the next one starts. -/
def KeyV1.compare (l r : List UInt8) : Option (Int × List UInt8 × List UInt8) := do
  let (ltReal, l) ← readByte l
  let (rtReal, r) ← readByte r
  let lt := ltReal &&& cCANONTYPEMASK
  let rt := rtReal &&& cCANONTYPEMASK
  if (lt.toNat : Int) - rt.toNat ≠ 0 then some ((lt.toNat : Int) - rt.toNat, l, r)
  else if lt = cdouble then
    let (x, l) ← readWord l
    let (y, r) ← readWord r
    some (compareNumbers ltReal rtReal x y, l, r)
  else if lt = cstring then
    let (lsz, l) ← readByte l
    let (rsz, r) ← readByte r
    let (s, l) ← readBytes lsz.toNat l
    let (t, r) ← readBytes rsz.toNat r
    some (compareCounted s t, l, r)
  else if lt = cbindata then
    let (x, l) ← readByte l
    let (y, r) ← readByte r
    let diff := (x.toNat : Int) - y.toNat
    let lengths := (binDataCodeToLength x : Int) - binDataCodeToLength y
    if diff ≠ 0 then some (if lengths ≠ 0 then lengths else diff, l, r)
    else
      let (s, l) ← readBytes (binDataCodeToLength x) l
      let (t, r) ← readBytes (binDataCodeToLength x) r
      some (memcmp s t, l, r)
  else if lt = cdate then
    let (x, l) ← readWord l
    let (y, r) ← readWord r
    some (if x.toInt < y.toInt then -1 else if y.toInt < x.toInt then 1 else 0, l, r)
  else if lt = coid then
    let (s, l) ← readBytes 12 l
    let (t, r) ← readBytes 12 r
    some (memcmp s t, l, r)
  else some (0, l, r)

/-- The loop of `KeyV1::woCompare`; every round reads at least one byte. -/
def compactLoop (order : BSON.Ordering) :
    Nat → BitVec 32 → List UInt8 → List UInt8 → Option Int
  | 0, _, _, _ => none
  | rounds + 1, mask, l, r => do
    let (lval, _) ← readByte l
    let (rval, _) ← readByte r
    let (x, l, r) ← KeyV1.compare l r
    if x ≠ 0 then some (if order.descending mask then -x else x)
    else
      let x := ((lval &&& cHASMORE).toNat : Int) - (rval &&& cHASMORE).toNat
      if x ≠ 0 then some x
      else if lval &&& cHASMORE = 0 then some 0
      else compactLoop order rounds (mask <<< 1) l r

/-- The byte a key's data starts with. -/
def KeyV1.firstByte : KeyV1 → Option UInt8
  | .traditional _ => some IsBSON
  | .compact bytes => bytes.head?

/-- `compareHybrid`. -/
def KeyV1.compareHybrid (left right : KeyV1) (order : BSON.Ordering) : Option Int := do
  let l ← left.toBson
  let r ← right.toBson
  some (BSON.woCompare l r order)

/-- `KeyV1::woCompare`. -/
def KeyV1.woCompare (left right : KeyV1) (order : BSON.Ordering) : Option Int := do
  let l ← left.firstByte
  let r ← right.firstByte
  if l ||| r = IsBSON then left.compareHybrid right order
  else
    match left, right with
    | .compact l, .compact r => compactLoop order l.length 1 l r
    | _, _ => none

/-! ### Numbers -/

/-- The word of a stored number, read with regard to its type. -/
def readNumber (code : UInt8) (word : Binary64.Word) : Binary64.Word :=
  if code = cint64 then Binary64.ofInt word.toInt else word

theorem compareDoubles_eq {x y : Binary64.Word} (number : Binary64.isNaN x = false) :
    compareDoubles x y = compareWords x y := by
  unfold compareDoubles compareWords
  rw [number]
  cases Binary64.lt x y <;> cases Binary64.eq x y <;> rfl

/-- Integers convert in order, and one below `2 ^ 53` apart from every other. -/
theorem compareWords_ofInt {a b : Int} (ha : a.natAbs ≤ 2 ^ 63) (hb : b.natAbs ≤ 2 ^ 63)
    (exact : a.natAbs < 2 ^ 53 ∨ b.natAbs < 2 ^ 53) :
    compareWords (Binary64.ofInt a) (Binary64.ofInt b) = compareInts a b := by
  rw [← compareDoubles_eq (Binary64.isNaN_ofInt ha), compareDoubles_ofInt ha hb exact]

variable {e : Value} {code : UInt8} {word : Binary64.Word}

/-- Read with regard to its type, a stored number is the double the objects are compared by. -/
theorem number_of_stored (stored : storedNumber e = some (code, word)) :
    e.number = some (readNumber code word) ∧ Binary64.isNaN (readNumber code word) = false := by
  cases e with
  | numberInt n =>
    cases stored
    have := natAbs_toInt_lt_of_int n
    exact ⟨rfl, Binary64.isNaN_ofInt (by omega)⟩
  | numberLong n =>
    simp only [storedNumber] at stored
    split_ifs at stored
    · cases stored
      exact ⟨rfl, Binary64.isNaN_ofInt (natAbs_toInt_le _)⟩
    · cases stored
      exact ⟨rfl, Binary64.isNaN_ofInt (natAbs_toInt_le n)⟩
  | numberDouble d =>
    simp only [storedNumber] at stored
    split_ifs at stored with nan
    cases stored
    exact ⟨rfl, (Bool.not_eq_true _).mp nan⟩
  | _ => cases stored

theorem natAbs_toInt_lt_of_code {n : BitVec 64}
    (stored : storedNumber (.numberLong n) = some (code, word)) (narrow : code ≠ cint64) :
    n.toInt.natAbs < 2 ^ 53 := by
  simp only [storedNumber] at stored
  split_ifs at stored with far
  · cases stored
    exact absurd rfl narrow
  · exact natAbs_toInt_lt (by simpa using far)

section Pair

variable {l r : Value} {c d : UInt8} {x y u v : Binary64.Word}

/-- Unless both are longs beyond `2 ^ 53`, the doubles are in the order of the numbers. -/
theorem compareWords_eq_woCompare (left : l.number = some u) (right : r.number = some v)
    (number : Binary64.isNaN u = false) (exact : ∀ a b, l = .numberLong a → r = .numberLong b →
      a.toInt.natAbs < 2 ^ 53 ∨ b.toInt.natAbs < 2 ^ 53) :
    compareWords u v = l.woCompare r := by
  cases l <;> cases left <;> cases r <;> cases right
  case numberInt.refl.numberInt.refl a b =>
    have ha := natAbs_toInt_lt_of_int a
    have hb := natAbs_toInt_lt_of_int b
    exact compareWords_ofInt (by omega) (by omega) (.inl ha)
  case numberLong.refl.numberLong.refl a b =>
    exact compareWords_ofInt (natAbs_toInt_le a) (natAbs_toInt_le b) (exact a b rfl rfl)
  all_goals exact (compareDoubles_eq number).symm

theorem compareWords_readNumber (left : storedNumber l = some (c, x))
    (right : storedNumber r = some (d, y)) (narrow : c ≠ cint64 ∨ d ≠ cint64) :
    compareWords (readNumber c x) (readNumber d y) = l.woCompare r := by
  obtain ⟨hl, number⟩ := number_of_stored left
  obtain ⟨hr, -⟩ := number_of_stored right
  apply compareWords_eq_woCompare hl hr number
  rintro a b rfl rfl
  exact narrow.imp (natAbs_toInt_lt_of_code left) (natAbs_toInt_lt_of_code right)

theorem eq_numberLong_of_code (stored : storedNumber l = some (cint64, x)) :
    l = .numberLong x ∧ wide x = true := by
  cases l with
  | numberInt n => cases stored
  | numberLong n =>
    simp only [storedNumber] at stored
    split_ifs at stored with far
    · cases stored
      exact ⟨rfl, far⟩
    · cases stored
  | numberDouble d =>
    simp only [storedNumber] at stored
    split_ifs at stored
    cases stored
  | _ => cases stored

/-- In the last field the type byte is the code, and numbers are compared as in the objects. -/
theorem compareNumbers_last (left : storedNumber l = some (c, x))
    (right : storedNumber r = some (d, y)) : compareNumbers c d x y = l.woCompare r := by
  by_cases both : c = cint64 ∧ d = cint64
  · obtain ⟨rfl, rfl⟩ := both
    obtain ⟨rfl, -⟩ := eq_numberLong_of_code left
    obtain ⟨rfl, -⟩ := eq_numberLong_of_code right
    show _ = compareInts x.toInt y.toInt
    rw [compareNumbers, if_pos ⟨rfl, rfl⟩, compareInts]
    by_cases less : x.toInt < y.toInt
    · rw [if_pos less, if_pos less]
    · by_cases same : x.toInt = y.toInt
      · simp [same]
      · rw [if_neg less, if_neg less, if_pos same, if_neg same]
  · rw [compareNumbers, if_neg both]
    exact compareWords_readNumber left right (not_and_or.mp both)

/-- With more fields behind it no type byte is `cint64`: the words are taken for doubles. -/
theorem compareNumbers_more (left : storedNumber l = some (c, x))
    (right : storedNumber r = some (d, y)) :
    compareNumbers (c ||| moreBits true) (d ||| moreBits true) x y = compareWords x y := by
  have hc : c ||| moreBits true ≠ cint64 := by
    rcases storedNumber_code left with rfl | rfl | rfl | rfl <;> decide
  have hd : d ||| moreBits true ≠ cint64 := by
    rcases storedNumber_code right with rfl | rfl | rfl | rfl <;> decide
  simp [compareNumbers, hc, hd]

end Pair

/-! ### One field -/

/-- What `compare` finds for two fields that are not the last: numbers are taken for doubles
as they are stored. -/
def compareStored (l r : Value) : Int :=
  match storedNumber l, storedNumber r with
  | some (_, x), some (_, y) => compareWords x y
  | _, _ => l.woCompare r

/-- What `compare` finds for two fields, with or without more fields behind them. -/
def compareAt (more : Bool) (l r : Value) : Int := if more then compareStored l r else l.woCompare r

theorem compareAt_of_not_number {l r : Value} (other : storedNumber l = none) (more : Bool) :
    compareAt more l r = l.woCompare r := by
  cases more with
  | false => rfl
  | true => simp [compareAt, compareStored, other]

/-- A comparison with the sign of `expected` that, if it finds no difference, goes on at `l`
and `r`. -/
def ComparesAs (outcome : Option (Int × List UInt8 × List UInt8)) (expected : Int)
    (l r : List UInt8) : Prop :=
  ∃ x l' r', outcome = some (x, l', r') ∧ x.sign = expected.sign ∧ (x = 0 → l' = l ∧ r' = r)

theorem ComparesAs.intro {outcome : Option (Int × List UInt8 × List UInt8)} {x expected : Int}
    {l r : List UInt8} (found : outcome = some (x, l, r)) (sign : x.sign = expected.sign) :
    ComparesAs outcome expected l r :=
  ⟨x, l, r, found, sign, fun _ => ⟨rfl, rfl⟩⟩

/-- The canonical type in the code of a field, and that of its value. -/
def canonicals : List (UInt8 × Int) :=
  [(1, -1), (2, 5), (4, 10), (6, 15), (7, 30), (8, 35), (10, 40), (11, 40), (12, 45), (14, 127)]

section Field

variable {e e' : Value} {c c' : UInt8} {data data' : List UInt8}

theorem canonicalType_of_storedNumber (stored : storedNumber e = some (c, word)) :
    e.canonicalType = 10 := by
  cases e with
  | numberInt n => rfl
  | numberLong n => rfl
  | numberDouble d => rfl
  | _ => cases stored

theorem compareAt_of_types (types : e.canonicalType ≠ e'.canonicalType) (more : Bool) :
    compareAt more e e' = e.canonicalType - e'.canonicalType := by
  rw [← woCompare_of_types types]
  cases number : storedNumber e with
  | none => exact compareAt_of_not_number number more
  | some stored =>
    cases number' : storedNumber e' with
    | none => cases more <;> simp [compareAt, compareStored, number, number']
    | some stored' =>
      exact absurd ((canonicalType_of_storedNumber number).trans
        (canonicalType_of_storedNumber number').symm) types

theorem Stored.canonical_mem (stored : Stored e c data) :
    (c &&& cCANONTYPEMASK, e.canonicalType) ∈ canonicals := by
  cases stored with
  | bool b => cases b <;> decide
  | number number =>
    rw [canonicalType_of_storedNumber number]
    rcases storedNumber_code number with rfl | rfl | rfl | rfl <;> decide
  | _ =>
    rw [Value.canonicalType]
    decide

/-- Different canonical types are told apart by the codes. -/
theorem compare_of_types (left : Stored e c data) (right : Stored e' c' data')
    (types : e.canonicalType ≠ e'.canonicalType) (more : Bool) (l r : List UInt8) :
    ComparesAs (KeyV1.compare ((c ||| moreBits more) :: data ++ l)
      ((c' ||| moreBits more) :: data' ++ r)) (compareAt more e e') l r := by
  have order : ∀ p ∈ canonicals, ∀ q ∈ canonicals, p.2 ≠ q.2 → (p.1.toNat : Int) - q.1.toNat ≠ 0 ∧
        ((p.1.toNat : Int) - q.1.toNat).sign = (p.2 - q.2).sign := by
    decide
  obtain ⟨different, sign⟩ := order _ left.canonical_mem _ right.canonical_mem types
  obtain ⟨-, -, hc⟩ := code_or_more c left.code_mem more
  obtain ⟨-, -, hc'⟩ := code_or_more c' right.code_mem more
  refine ⟨_, data ++ l, data' ++ r, ?_, ?_, fun same => absurd same different⟩
  · simp only [KeyV1.compare, List.cons_append, readByte_cons, Option.bind_eq_bind,
      Option.bind_some, hc, hc']
    rw [if_pos different]
  · rw [compareAt_of_types types, sign]

/-- Two fields of one canonical type whose data `compare` does not look at. -/
theorem compare_plain (code : UInt8) (mem : code ∈ [cminkey, cnull, cmaxkey]) (more : Bool)
    (l r : List UInt8) :
    KeyV1.compare ((code ||| moreBits more) :: l) ((code ||| moreBits more) :: r) =
      some (0, l, r) := by
  simp only [List.mem_cons, List.not_mem_nil, or_false] at mem
  rcases mem with rfl | rfl | rfl <;> cases more <;> rfl

theorem compare_bool (a b more : Bool) (l r : List UInt8) :
    ComparesAs (KeyV1.compare (((if a then ctrue else cfalse) ||| moreBits more) :: l)
      (((if b then ctrue else cfalse) ||| moreBits more) :: r))
      ((Value.bool a).woCompare (.bool b)) l r := by
  cases a <;> cases b <;> cases more <;> exact .intro rfl rfl

theorem compare_oid (a b : OID) (more : Bool) (l r : List UInt8) :
    ComparesAs (KeyV1.compare ((coid ||| moreBits more) :: a.val ++ l)
      ((coid ||| moreBits more) :: b.val ++ r)) ((Value.oid a).woCompare (.oid b)) l r := by
  have found : KeyV1.compare ((coid ||| moreBits more) :: a.val ++ l)
      ((coid ||| moreBits more) :: b.val ++ r) = (readBytes 12 (a.val ++ l)).bind fun (s, l) =>
          (readBytes 12 (b.val ++ r)).bind fun (t, r) => some (memcmp s t, l, r) := by
    cases more <;> rfl
  rw [readBytes_append a.property, readBytes_append b.property] at found
  exact .intro found rfl

theorem compare_date (a b : BitVec 64) (more : Bool) (l r : List UInt8) :
    ComparesAs (KeyV1.compare ((cdate ||| moreBits more) :: wordBytes a ++ l)
      ((cdate ||| moreBits more) :: wordBytes b ++ r))
      ((Value.date a).woCompare (.date b)) l r := by
  have found : KeyV1.compare ((cdate ||| moreBits more) :: wordBytes a ++ l)
      ((cdate ||| moreBits more) :: wordBytes b ++ r) =
        (readWord (wordBytes a ++ l)).bind fun (x, l) =>
          (readWord (wordBytes b ++ r)).bind fun (y, r) =>
            some (if x.toInt < y.toInt then -1 else if y.toInt < x.toInt then 1 else 0, l, r) := by
    cases more <;> rfl
  rw [readWord_wordBytes, readWord_wordBytes] at found
  refine .intro found (congrArg Int.sign ?_)
  show _ = compareInts a.toInt b.toInt
  unfold compareInts
  split_ifs <;> omega

theorem compare_string {s t : List UInt8} (hs : s.length ≤ 255) (ht : t.length ≤ 255)
    (more : Bool) (l r : List UInt8) :
    ComparesAs (KeyV1.compare ((cstring ||| moreBits more) :: UInt8.ofNat s.length :: s ++ l)
      ((cstring ||| moreBits more) :: UInt8.ofNat t.length :: t ++ r))
      ((Value.string s).woCompare (.string t)) l r := by
  have found : KeyV1.compare ((cstring ||| moreBits more) :: UInt8.ofNat s.length :: s ++ l)
      ((cstring ||| moreBits more) :: UInt8.ofNat t.length :: t ++ r) =
        (readBytes (UInt8.ofNat s.length).toNat (s ++ l)).bind fun (s, l) =>
          (readBytes (UInt8.ofNat t.length).toNat (t ++ r)).bind fun (t, r) =>
            some (compareCounted s t, l, r) := by
    cases more <;> rfl
  have hs : s.length = (UInt8.ofNat s.length).toNat :=
    (UInt8.toNat_ofNat_of_lt' (Nat.lt_succ_of_le hs)).symm
  have ht : t.length = (UInt8.ofNat t.length).toNat :=
    (UInt8.toNat_ofNat_of_lt' (Nat.lt_succ_of_le ht)).symm
  rw [readBytes_append hs, readBytes_append ht] at found
  exact .intro found (compareCounted_terminated s t).symm

theorem compare_binData {t u x y : UInt8} {d d' : List UInt8}
    (left : binDataByte t d.length = some x) (right : binDataByte u d'.length = some y)
    (more : Bool) (l r : List UInt8) :
    ComparesAs (KeyV1.compare ((cbindata ||| moreBits more) :: x :: d ++ l)
      ((cbindata ||| moreBits more) :: y :: d' ++ r))
      ((Value.binData t d).woCompare (.binData u d')) l r := by
  obtain ⟨hx, ht⟩ := binDataByte_inv left
  obtain ⟨hy, hu⟩ := binDataByte_inv right
  have found : KeyV1.compare ((cbindata ||| moreBits more) :: x :: d ++ l)
      ((cbindata ||| moreBits more) :: y :: d' ++ r) =
        if (x.toNat : Int) - y.toNat ≠ 0 then
          some (if (binDataCodeToLength x : Int) - binDataCodeToLength y ≠ 0 then
            (binDataCodeToLength x : Int) - binDataCodeToLength y
            else (x.toNat : Int) - y.toNat, d ++ l, d' ++ r)
        else (readBytes (binDataCodeToLength x) (d ++ l)).bind fun (s, l) =>
          (readBytes (binDataCodeToLength x) (d' ++ r)).bind fun (t, r) =>
            some (memcmp s t, l, r) := by
    cases more <;> rfl
  have value : (Value.binData t d).woCompare (.binData u d') =
      if (d.length : Int) - d'.length ≠ 0 then (d.length : Int) - d'.length
      else memcmp (t :: d) (u :: d') := rfl
  by_cases same : x = y
  · -- one byte: length and subtype are the same, the data decide
    subst same
    have length : d.length = d'.length := hx.symm.trans hy
    rw [if_neg (by simp), readBytes_append hx.symm, readBytes_append hy.symm] at found
    refine .intro found ?_
    rw [value, if_neg (by omega), ← ht, ← hu, memcmp, if_neg (UInt8.lt_irrefl _),
      if_neg (UInt8.lt_irrefl _)]
  · have different : (x.toNat : Int) - y.toNat ≠ 0 := by
      intro zero
      exact same (UInt8.toNat_inj.mp (by omega))
    rw [if_pos different, hx, hy] at found
    refine ⟨_, _, _, found, ?_, ?_⟩
    · rw [value]
      split_ifs with lengths
      · rfl
      · have length : d'.length = d.length := by omega
        rw [length] at right
        have sign := binDataByte_sub left right
        have order : t < u ∨ u < t := by
          by_contra neither
          rw [not_or] at neither
          rw [if_neg neither.1, if_neg neither.2] at sign
          exact different (Int.sign_eq_zero_iff_zero.mp sign)
        rw [sign, memcmp]
        split_ifs <;> first | rfl | tauto
    · intro zero
      split_ifs at zero with lengths
      · exact absurd zero lengths
      · exact absurd zero different

theorem compare_number {x y : Binary64.Word} (left : storedNumber e = some (c, x))
    (right : storedNumber e' = some (c', y)) (more : Bool) (l r : List UInt8) :
    ComparesAs (KeyV1.compare ((c ||| moreBits more) :: wordBytes x ++ l)
      ((c' ||| moreBits more) :: wordBytes y ++ r)) (compareAt more e e') l r := by
  have hc : (c ||| moreBits more) &&& cCANONTYPEMASK = cdouble := by
    rcases storedNumber_code left with rfl | rfl | rfl | rfl <;> cases more <;> rfl
  have hc' : (c' ||| moreBits more) &&& cCANONTYPEMASK = cdouble := by
    rcases storedNumber_code right with rfl | rfl | rfl | rfl <;> cases more <;> rfl
  have found : KeyV1.compare ((c ||| moreBits more) :: wordBytes x ++ l)
      ((c' ||| moreBits more) :: wordBytes y ++ r) =
        some (compareNumbers (c ||| moreBits more) (c' ||| moreBits more) x y, l, r) := by
    simp only [KeyV1.compare, List.cons_append, readByte_cons, Option.bind_eq_bind,
      Option.bind_some, hc, hc', sub_self, ne_eq, not_true_eq_false, if_false, if_true,
      readWord_wordBytes]
  refine .intro found (congrArg Int.sign ?_)
  cases more with
  | true =>
    rw [compareNumbers_more left right]
    simp [compareAt, compareStored, left, right]
  | false =>
    have last : ∀ code, code ||| moreBits false = code := fun _ => UInt8.or_zero
    rw [last, last, compareNumbers_last left right]
    rfl

/-- What `compare` finds for two stored fields. -/
theorem compare_stored (left : Stored e c data) (right : Stored e' c' data') (more : Bool)
    (l r : List UInt8) :
    ComparesAs (KeyV1.compare ((c ||| moreBits more) :: data ++ l)
      ((c' ||| moreBits more) :: data' ++ r)) (compareAt more e e') l r := by
  by_cases types : e.canonicalType = e'.canonicalType
  · cases left <;> cases right
    case minKey.minKey | null.null | maxKey.maxKey =>
      exact .intro (compare_plain _ (by decide) more l r) (by cases more <;> rfl)
    case bool.bool a b =>
      rw [compareAt_of_not_number rfl]
      exact compare_bool a b more l r
    case oid.oid a b =>
      rw [compareAt_of_not_number rfl]
      exact compare_oid a b more l r
    case binData.binData coded _ _ _ coded' =>
      rw [compareAt_of_not_number rfl]
      exact compare_binData coded coded' more l r
    case date.date a b =>
      rw [compareAt_of_not_number rfl]
      exact compare_date a b more l r
    case string.string short _ short' =>
      rw [compareAt_of_not_number rfl]
      exact compare_string short short' more l r
    case number.number number _ number' => exact compare_number number number' more l r
    -- the canonical types differ
    all_goals first
      | cases types
      | cases types.trans (canonicalType_of_storedNumber ‹_›)
      | cases (canonicalType_of_storedNumber ‹_›).symm.trans types
  · exact compare_of_types left right types more l r

end Field

/-! ### Keys -/

/-- Whether the `i`-th field descends. -/
def descends (order : BSON.Ordering) (i : Nat) : Bool := order.descending ((1 : BitVec 32) <<< i)

/-- What the fields of two objects compare as. -/
def valueResults (l r : List Value) : List Int := List.zipWith Value.woCompare l r

/-- What the fields of two stored keys compare as. -/
def storedResults : List Value → List Value → List Int
  | l :: l' :: ls, r :: r' :: rs => compareStored l r :: storedResults (l' :: ls) (r' :: rs)
  | l, r => valueResults l r

theorem length_storedResults (l r : List Value) :
    (storedResults l r).length = (valueResults l r).length := by
  fun_induction storedResults l r with
  | case1 l l' ls r r' rs ih =>
    rw [List.length_cons, ih]
    simp [valueResults]
  | case2 => rfl

variable {l r : List Value}

theorem woCompareLoop_eq (order : BSON.Ordering) (length : l.length = r.length) (i : Nat) :
    woCompareLoop Value.woCompare order ((1 : BitVec 32) <<< i) l r =
      decides (descends order) i (valueResults l r) := by
  induction l generalizing r i with
  | nil =>
    cases r with
    | nil => rfl
    | cons b r => simp at length
  | cons a l ih =>
    cases r with
    | nil => simp at length
    | cons b r =>
      rw [woCompareLoop, ← BitVec.shiftLeft_add, ih (by simpa using length)]
      show _ = decides (descends order) i (a.woCompare b :: valueResults l r)
      by_cases zero : a.woCompare b = 0
      · rw [decides_cons_zero zero]
        simp [zero]
      · have directed : (if order.descending ((1 : BitVec 32) <<< i) then -a.woCompare b
            else a.woCompare b) ≠ 0 := by
          split_ifs
          · exact neg_ne_zero.mpr zero
          · exact zero
        rw [if_pos directed, decides, if_pos zero, descends]

/-- One round: the result for the field decides, or the next round does. -/
theorem compactLoop_succ (order : BSON.Ordering) {e' : Value} {c c' : UInt8}
    {data data' : List UInt8} (left : Stored e c data) (right : Stored e' c' data') (more : Bool)
    (rounds : Nat) (mask : BitVec 32) (l r : List UInt8) :
    ∃ x : Int, x.sign = (compareAt more e e').sign ∧
      compactLoop order (rounds + 1) mask ((c ||| moreBits more) :: data ++ l)
        ((c' ||| moreBits more) :: data' ++ r) =
          if x ≠ 0 then some (if order.descending mask then -x else x)
          else if more then compactLoop order rounds (mask <<< 1) l r else some 0 := by
  obtain ⟨x, l', r', found, sign, next⟩ := compare_stored left right more l r
  obtain ⟨-, flag, -⟩ := code_or_more c left.code_mem more
  obtain ⟨-, flag', -⟩ := code_or_more c' right.code_mem more
  refine ⟨x, sign, ?_⟩
  rw [List.cons_append, List.cons_append] at found ⊢
  simp only [compactLoop, readByte_cons, Option.bind_eq_bind, Option.bind_some, found, flag, flag',
    sub_self]
  by_cases zero : x = 0
  · obtain ⟨rfl, rfl⟩ := next zero
    cases more <;> simp [zero, moreBits, cHASMORE]
  · rw [if_pos zero, if_pos zero]

variable {bytes : List UInt8}

theorem compactLoop_sign (order : BSON.Ordering) {bytes' : List UInt8} {rounds : Nat}
    (left : compactFields l = some bytes) (right : compactFields r = some bytes')
    (length : l.length = r.length) (enough : bytes.length ≤ rounds) (i : Nat) :
    ∃ x, compactLoop order rounds ((1 : BitVec 32) <<< i) bytes bytes' = some x ∧
      x.sign = (decides (descends order) i (storedResults l r)).sign := by
  induction l generalizing r bytes bytes' rounds i with
  | nil => cases left
  | cons a l ih =>
    cases r with
    | nil => cases right
    | cons b r =>
      cases l with
      | nil =>
        cases r with
        | cons b' r => simp at length
        | nil =>
          obtain ⟨c, data, stored, rfl⟩ := compactFields_singleton left
          obtain ⟨c', data', stored', rfl⟩ := compactFields_singleton right
          obtain ⟨rounds, rfl⟩ := Nat.exists_eq_succ_of_ne_zero
            (show rounds ≠ 0 by simp at enough; omega)
          obtain ⟨x, sign, found⟩ := compactLoop_succ order stored stored' false rounds
            ((1 : BitVec 32) <<< i) [] []
          rw [List.append_nil, List.append_nil] at found
          refine ⟨decides (descends order) i [x], ?_, sign_decides_head sign⟩
          rw [found, decides, decides, descends]
          simp only [Bool.false_eq_true, if_false]
          split_ifs <;> rfl
      | cons a' l =>
        cases r with
        | nil => simp at length
        | cons b' r =>
          obtain ⟨c, data, rest, stored, later, rfl⟩ := compactFields_cons left
          obtain ⟨c', data', rest', stored', later', rfl⟩ := compactFields_cons right
          obtain ⟨rounds, rfl⟩ := Nat.exists_eq_succ_of_ne_zero
            (show rounds ≠ 0 by simp at enough; omega)
          obtain ⟨x, sign, found⟩ := compactLoop_succ order stored stored' true rounds
            ((1 : BitVec 32) <<< i) rest rest'
          have sign : x.sign = (compareStored a b).sign := sign
          rw [storedResults, ← sign_decides_head sign]
          by_cases zero : x = 0
          · rw [decides_cons_zero zero, found, if_neg (not_not.mpr zero), if_pos rfl,
              ← BitVec.shiftLeft_add]
            exact ih later later' (by simpa using length) (by simp at enough; omega) _
          · refine ⟨_, by rw [found, if_pos zero], ?_⟩
            rw [decides, if_pos zero, descends]

/-! ### Stored keys and their objects -/

/-- The fields of an index key: at least one, and not more than an `Ordering` tells apart. -/
structure IndexKey where
  fields : List Value
  nonempty : fields ≠ []
  bounded : fields.length ≤ 32

/-- A key in the compact format. -/
def Compact (key : IndexKey) : Prop := (compactFields key.fields).isSome

/-- A long that is stored as it is. -/
def isWide : Value → Bool
  | .numberLong n => wide n
  | _ => false

/-- As long as fields are equal, and before the last one, no long beyond `2 ^ 53` that is
taken for a double falls on the wrong side of the other key's field. -/
def ReadsRight : List Value → List Value → Prop
  | l :: l' :: ls, r :: r' :: rs =>
    (isWide l ∨ isWide r → (compareStored l r).sign = (l.woCompare r).sign) ∧
      (l.woCompare r = 0 → ReadsRight (l' :: ls) (r' :: rs))
  | _, _ => True

theorem code_ne_of_narrow (stored : storedNumber e = some (code, word))
    (narrow : isWide e = false) : code ≠ cint64 := by
  rintro rfl
  obtain ⟨rfl, far⟩ := eq_numberLong_of_code stored
  exact absurd (show wide word = false from narrow) (by simp [far])

theorem compareStored_of_narrow {l r : Value} (left : isWide l = false) (right : isWide r = false) :
    compareStored l r = l.woCompare r := by
  unfold compareStored
  cases stored : storedNumber l with
  | none => rfl
  | some p =>
    cases stored' : storedNumber r with
    | none => rfl
    | some q =>
      have hp := code_ne_of_narrow stored left
      have hq := code_ne_of_narrow stored' right
      have words := compareWords_readNumber stored stored' (.inl hp)
      rwa [readNumber, readNumber, if_neg hp, if_neg hq] at words

theorem matches_iff (length : l.length = r.length) :
    Matches (storedResults l r) (valueResults l r) ↔ ReadsRight l r := by
  induction l generalizing r with
  | nil => simp [storedResults, valueResults, Matches, ReadsRight]
  | cons a l ih =>
    cases r with
    | nil => simp at length
    | cons b r =>
      cases l with
      | nil => simp [storedResults, valueResults, Matches, ReadsRight]
      | cons a' l =>
        cases r with
        | nil => simp at length
        | cons b' r =>
          have here : (compareStored a b).sign = (a.woCompare b).sign ↔
              (isWide a ∨ isWide b → (compareStored a b).sign = (a.woCompare b).sign) := by
            by_cases far : isWide a ∨ isWide b
            · simp [far]
            · simp only [not_or, Bool.not_eq_true] at far
              simp [compareStored_of_narrow far.1 far.2]
          rw [ReadsRight, ← here, ← ih (by simpa using length)]
          rfl

/-- A compact key starts with a type byte, whose highest bit is not used. -/
theorem firstByte_compact (compact : compactFields l = some bytes) :
    ∃ byte, (KeyV1.compact bytes).firstByte = some byte ∧ byte.toNat < 2 ^ 7 := by
  have low : ∀ code ∈ codes, ∀ more, (code ||| moreBits more).toNat < 2 ^ 7 := by
    simp only [codes, List.forall_mem_cons, List.not_mem_nil, false_implies, implies_true, and_true]
    decide
  cases l with
  | nil => cases compact
  | cons e l =>
    cases l with
    | nil =>
      obtain ⟨code, data, stored, rfl⟩ := compactFields_singleton compact
      exact ⟨_, rfl, low code stored.code_mem false⟩
    | cons e' l =>
      obtain ⟨code, data, rest, stored, -, rfl⟩ := compactFields_cons compact
      exact ⟨_, rfl, low code stored.code_mem true⟩

theorem woCompare_compact {bytes' : List UInt8} (left : compactFields l = some bytes)
    (right : compactFields r = some bytes') (order : BSON.Ordering) :
    (keyV1Owned l).woCompare (keyV1Owned r) order =
      compactLoop order bytes.length 1 bytes bytes' := by
  obtain ⟨byte, first, low⟩ := firstByte_compact left
  obtain ⟨byte', first', low'⟩ := firstByte_compact right
  have apart : byte ||| byte' ≠ IsBSON := by
    intro same
    have below := Nat.or_lt_two_pow low low'
    rw [← UInt8.toNat_or, same] at below
    exact absurd below (by decide)
  simp only [keyV1Owned, left, right, KeyV1.woCompare, first, first', Option.bind_eq_bind,
    Option.bind_some]
  rw [if_neg apart]

theorem firstByte_keyV1Owned (l : List Value) :
    ∃ byte, (keyV1Owned l).firstByte = some byte ∧ (compactFields l = none → byte = IsBSON) := by
  unfold keyV1Owned
  cases compact : compactFields l with
  | none => exact ⟨IsBSON, rfl, fun _ => rfl⟩
  | some bytes =>
    obtain ⟨byte, first, -⟩ := firstByte_compact compact
    exact ⟨byte, first, fun traditional => nomatch traditional⟩

/-- With a traditional key on either side, the objects themselves are compared. -/
theorem woCompare_traditional (traditional : compactFields l = none ∨ compactFields r = none)
    (order : BSON.Ordering) :
    (keyV1Owned l).woCompare (keyV1Owned r) order = some (BSON.woCompare l r order) := by
  have hybrid : (keyV1Owned l).compareHybrid (keyV1Owned r) order =
      some (BSON.woCompare l r order) := by
    simp [KeyV1.compareHybrid, toBson_keyV1Owned]
  obtain ⟨byte, first, leading⟩ := firstByte_keyV1Owned l
  obtain ⟨byte', first', leading'⟩ := firstByte_keyV1Owned r
  have bson : byte ||| byte' = IsBSON := by
    rcases traditional with none | none
    · rw [leading none]
      exact UInt8.neg_one_or
    · rw [leading' none]
      exact UInt8.or_neg_one
  simp only [KeyV1.woCompare, first, first', Option.bind_eq_bind, Option.bind_some]
  rw [if_pos bson, hybrid]

/-- Keys of one field are ordered as their values: nothing stands behind a long. -/
theorem woCompare_singleton (a b : Value) (order : BSON.Ordering) :
    ∃ x, (keyV1Owned [a]).woCompare (keyV1Owned [b]) order = some x ∧
      x.sign = (BSON.woCompare [a] [b] order).sign := by
  by_cases traditional : compactFields [a] = none ∨ compactFields [b] = none
  · exact ⟨_, woCompare_traditional traditional order, rfl⟩
  · rw [not_or, ← ne_eq, ← ne_eq, Option.ne_none_iff_exists', Option.ne_none_iff_exists']
      at traditional
    obtain ⟨⟨bytes, left⟩, ⟨bytes', right⟩⟩ := traditional
    have length : [a].length = [b].length := rfl
    have value : BSON.woCompare [a] [b] order =
        decides (descends order) 0 (storedResults [a] [b]) :=
      woCompareLoop_eq order length 0
    rw [woCompare_compact left right, value]
    exact compactLoop_sign order left right length le_rfl 0

theorem descends_ascending : descends ⟨0⟩ = fun _ => false := by
  funext i
  simp [descends, BSON.Ordering.descending]

theorem descends_single {k : Nat} (bit : k < 32) :
    descends ⟨(1 : BitVec 32) <<< k⟩ = fun i => decide (i = k) := by
  funext i
  have mask : ((1 : BitVec 32) <<< k) &&& ((1 : BitVec 32) <<< i) =
      if (BitVec.twoPow 32 k).getLsbD i then BitVec.twoPow 32 i else 0 := BitVec.and_twoPow _ _
  rw [descends, BSON.Ordering.descending, mask, BitVec.getLsbD_twoPow]
  by_cases same : i = k
  · subst same
    have nonzero : BitVec.twoPow 32 i ≠ 0#32 := by
      intro zero
      have value := congrArg BitVec.toNat zero
      rw [BitVec.toNat_twoPow_of_lt bit] at value
      exact absurd value (by positivity)
    simp [bit, nonzero]
  · simp [same, Ne.symm same]

/-- Stored keys are ordered as their objects under every `Ordering` exactly when, with both
in the compact format, no long beyond `2 ^ 53` is misread with consequences. -/
theorem woCompare_agrees_iff (L R : IndexKey) (length : L.fields.length = R.fields.length) :
    (∀ order, ∃ x, (keyV1Owned L.fields).woCompare (keyV1Owned R.fields) order = some x ∧
        x.sign = (BSON.woCompare L.fields R.fields order).sign) ↔
      (Compact L → Compact R → ReadsRight L.fields R.fields) := by
  by_cases traditional : compactFields L.fields = none ∨ compactFields R.fields = none
  · constructor
    · intro _ compactL compactR
      rcases traditional with none | none
      · simp [Compact, none] at compactL
      · simp [Compact, none] at compactR
    · intro _ order
      exact ⟨_, woCompare_traditional traditional order, rfl⟩
  · rw [not_or, ← ne_eq, ← ne_eq, Option.ne_none_iff_exists', Option.ne_none_iff_exists']
      at traditional
    obtain ⟨⟨bytes, left⟩, ⟨bytes', right⟩⟩ := traditional
    have compactL : Compact L := by simp [Compact, left]
    have compactR : Compact R := by simp [Compact, right]
    have stored : ∀ order, ∃ x,
        (keyV1Owned L.fields).woCompare (keyV1Owned R.fields) order = some x ∧
          x.sign = (decides (descends order) 0 (storedResults L.fields R.fields)).sign := by
      intro order
      rw [woCompare_compact left right]
      exact compactLoop_sign order left right length le_rfl 0
    have value : ∀ order, BSON.woCompare L.fields R.fields order =
        decides (descends order) 0 (valueResults L.fields R.fields) :=
      fun order => woCompareLoop_eq order length 0
    have ascending : (fun _ => false) ∈ Set.range descends := ⟨_, descends_ascending⟩
    have single : ∀ k < (valueResults L.fields R.fields).length,
        (fun i => decide (i = k)) ∈ Set.range descends := by
      intro k below
      have bounded := L.bounded
      rw [valueResults, List.length_zipWith] at below
      exact ⟨_, descends_single (by omega)⟩
    simp only [compactL, compactR, true_implies]
    rw [← matches_iff length, ← agree_iff (length_storedResults _ _) ascending single,
      Set.forall_mem_range]
    refine forall_congr' fun order => ?_
    obtain ⟨x, found, sign⟩ := stored order
    rw [value, ← sign]
    constructor
    · rintro ⟨y, found', sign'⟩
      cases found.symm.trans found'
      exact sign'
    · intro same
      exact ⟨x, found, same⟩

/-- Two positive longs beyond `2 ^ 53` are misread as doubles in the same order. -/
def ascendingLongs : IndexKey × IndexKey :=
  (⟨[.numberLong (2 ^ 53), .bool true], by simp, by simp⟩,
    ⟨[.numberLong (2 ^ 53 + 1), .null], by simp, by simp⟩)

theorem woCompare_agrees_ascendingLongs :
    ∃ x, (keyV1Owned ascendingLongs.1.fields).woCompare (keyV1Owned ascendingLongs.2.fields) ⟨1⟩ =
        some x ∧
      x.sign = (BSON.woCompare ascendingLongs.1.fields ascendingLongs.2.fields ⟨1⟩).sign :=
  (woCompare_agrees_iff ascendingLongs.1 ascendingLongs.2 rfl).mpr
    (fun _ _ => ⟨fun _ => by decide, fun _ => trivial⟩) ⟨1⟩

/-- `2 ^ 53` in front of another field is read as a double next to zero, below `5`. -/
theorem woCompare_misread :
    (keyV1Owned [.numberLong (2 ^ 53), .null]).woCompare (keyV1Owned [.numberInt 5, .null]) ⟨0⟩ =
        some (-1) ∧
      BSON.woCompare [.numberLong (2 ^ 53), .null] [.numberInt 5, .null] ⟨0⟩ = 1 := by
  decide

end TokuMX.Storage
