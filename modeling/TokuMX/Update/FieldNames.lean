import Mathlib.Data.List.Lex
import TokuMX.BSON.Value
import TokuMX.Lib.Dotted

/-!
Dotted field names and how they are compared (`compareDottedFieldNames` in `db/jsobj.cpp`,
`LexNumCmp` in `util/stringutils.cpp`).

* `conflicts_iff` — the comparison finds one name in the other exactly if they are equal or one
  lies below the other, for names that do not end in a dot.
-/

namespace TokuMX.Update

open TokuMX.Lib TokuMX.BSON

/-- A field name, which is a string without a zero byte. -/
structure FieldName where
  bytes : List UInt8
  zeroFree : 0 ∉ bytes
deriving DecidableEq

namespace FieldName

/-- The name at an address: it ends at the first zero byte. -/
def ofBytes (bytes : List UInt8) : FieldName :=
  ⟨cString bytes, fun mem => by simpa using List.mem_takeWhile_imp mem⟩

theorem ext_bytes {a b : FieldName} (same : a.bytes = b.bytes) : a = b := by
  cases a
  cases b
  cases same
  rfl

/-- Names are ordered as `std::string` orders them, by their bytes. -/
instance : LinearOrder FieldName :=
  LinearOrder.lift' (fun name => name.bytes.map UInt8.toNat) fun _ _ same =>
    ext_bytes (List.map_injective_iff.mpr (fun _ _ => UInt8.toNat_inj.mp) same)

def dot : UInt8 := 46

/-- The part of a name in front of its first dot. -/
def root (name : FieldName) : FieldName :=
  ⟨Dotted.first dot name.bytes, fun mem => name.zeroFree ((List.takeWhile_sublist _).subset mem)⟩

/-- One of two names is the other or lies below it. -/
def Related (a b : FieldName) : Prop := Dotted.Related dot a.bytes b.bytes

instance (a b : FieldName) : Decidable (a.Related b) :=
  inferInstanceAs (Decidable (Dotted.Related _ _ _))

/-- The name ends in a dot. -/
def EndsInDot (name : FieldName) : Prop := Dotted.Trails dot name.bytes

instance (name : FieldName) : Decidable name.EndsInDot := inferInstanceAs
  (Decidable (Dotted.Trails _ _))

end FieldName

/-! ### Comparing names -/

/-- A `char`, which is signed. -/
def char (c : UInt8) : Int := c.toBitVec.toInt

def isdigit (c : UInt8) : Bool := 48 ≤ c ∧ c ≤ 57

/-- The digits in front. Zeros do not count at the start of a word. -/
def number (startWord : Bool) (s : List UInt8) : List UInt8 :=
  (if startWord then s.dropWhile (· = 48) else s).takeWhile isdigit

open FieldName in
/-- The loop of `LexNumCmp::cmp`. Zeros are digits, so that digits end where they do without those
in front. With `lexOnly` digits are other characters. -/
def lexNumCmpFrom (lexOnly : Bool) : Nat → Bool → List UInt8 → List UInt8 → Int
  | rounds + 1, startWord, c :: s, d :: t =>
    if c = dot ∧ d ≠ dot then -1
    else if d = dot ∧ c ≠ dot then 1
    else if c = dot ∧ d = dot then lexNumCmpFrom lexOnly rounds true s t
    else if c = 255 ∧ d ≠ 255 then 1
    else if d = 255 ∧ c ≠ 255 then -1
    else if ¬ lexOnly ∧ isdigit c ∧ isdigit d then
      let m := number startWord (c :: s)
      let n := number startWord (d :: t)
      if m.length > n.length then 1
      else if n.length > m.length then -1
      else if memcmp m n ≠ 0 then memcmp m n
      else lexNumCmpFrom lexOnly rounds false (s.dropWhile isdigit) (t.dropWhile isdigit)
    else if ¬ lexOnly ∧ isdigit c then 1
    else if ¬ lexOnly ∧ isdigit d then -1
    else if char d < char c then 1
    else if char c < char d then -1
    else lexNumCmpFrom lexOnly rounds false s t
  | _, _, s, t =>
    if s.head?.any (· ≠ 0) then 1
    else if t.head?.any (· ≠ 0) then -1
    else 0

/-- `LexNumCmp::cmp`. A round takes at least one character. -/
def lexNumCmp (lexOnly : Bool) (s t : List UInt8) : Int := lexNumCmpFrom lexOnly s.length true s t

inductive FieldCompareResult where
  | leftSubfield
  | leftBefore
  | same
  | rightBefore
  | rightSubfield
deriving DecidableEq

/-- The loop of `compareDottedFieldNames`. It gives up after some number of rounds, for which `none`
stands; a dot at the end is not seen. -/
def compareDotted (lexOnly : Bool) : Nat → List UInt8 → List UInt8 → Option FieldCompareResult
  | 0, _, _ => none
  | loops + 1, l, r =>
    let x := lexNumCmp lexOnly (Dotted.first FieldName.dot l) (Dotted.first FieldName.dot r)
    let l' := Dotted.later FieldName.dot l
    let r' := Dotted.later FieldName.dot r
    if x < 0 then some .leftBefore
    else if x > 0 then some .rightBefore
    else if l' = [] then if r' = [] then some .same else some .rightSubfield
    else if r' = [] then some .leftSubfield
    else compareDotted lexOnly loops l' r'

def maxLoops : Nat := 1024 * 1024

/-- `compareDottedFieldNames` with `LexNumCmp( lexOnly )`. -/
def compareDottedFieldNames (lexOnly : Bool) (l r : FieldName) : Option FieldCompareResult :=
  compareDotted lexOnly maxLoops l.bytes r.bytes

/-- The answers for which `haveConflictingMod` returns true. -/
def FieldCompareResult.conflicts : FieldCompareResult → Bool
  | leftSubfield | same | rightSubfield => true
  | leftBefore | rightBefore => false

theorem char_injective {c d : UInt8} (same : char c = char d) : c = d :=
  UInt8.toBitVec_inj.mp (BitVec.toInt_inj.mp same)

theorem lexNumCmpFrom_self {rounds : Nat} {startWord : Bool} {s : List UInt8}
    (enough : s.length ≤ rounds) : lexNumCmpFrom true rounds startWord s s = 0 := by
  induction s generalizing rounds startWord with
  | nil => simp [lexNumCmpFrom]
  | cons c s ih =>
    obtain ⟨rounds, rfl⟩ := Nat.exists_eq_add_one.mpr (Nat.zero_lt_of_lt enough)
    simp [lexNumCmpFrom, ih (Nat.le_of_succ_le_succ enough)]

/-- Strings without a zero byte compare equal only if they are. -/
theorem eq_of_lexNumCmpFrom {rounds : Nat} {startWord : Bool} {s t : List UInt8}
    (enough : s.length ≤ rounds) (zeroFree : 0 ∉ s) (zeroFree' : 0 ∉ t)
    (same : lexNumCmpFrom true rounds startWord s t = 0) : s = t := by
  induction s generalizing rounds startWord t with
  | nil =>
    cases t with
    | nil => rfl
    | cons d t => simp_all [lexNumCmpFrom, eq_comm]
  | cons c s ih =>
    obtain ⟨rounds, rfl⟩ := Nat.exists_eq_add_one.mpr (Nat.zero_lt_of_lt enough)
    cases t with
    | nil => simp_all [lexNumCmpFrom, eq_comm]
    | cons d t =>
      have rest {word : Bool} : lexNumCmpFrom true rounds word s t = 0 → s = t :=
        ih (Nat.le_of_succ_le_succ enough) (fun mem => zeroFree (.tail _ mem))
          (fun mem => zeroFree' (.tail _ mem))
      simp only [lexNumCmpFrom, not_true_eq_false, false_and, if_false] at same
      split_ifs at same with h₁ h₂ both h₃ h₄ greater less
      any_goals omega
      · rw [both.1, both.2, rest same]
      · rw [char_injective (le_antisymm (not_lt.mp greater) (not_lt.mp less)), rest same]

theorem lexNumCmp_eq_zero {s t : List UInt8} (zeroFree : 0 ∉ s) (zeroFree' : 0 ∉ t) :
    lexNumCmp true s t = 0 ↔ s = t := by
  refine ⟨eq_of_lexNumCmpFrom le_rfl zeroFree zeroFree', ?_⟩
  rintro rfl
  exact lexNumCmpFrom_self le_rfl

open FieldName FieldCompareResult

theorem zeroFree_first {s : List UInt8} (zeroFree : 0 ∉ s) : 0 ∉ Dotted.first dot s :=
  fun mem => zeroFree ((List.takeWhile_sublist _).subset mem)

theorem zeroFree_later {s : List UInt8} (zeroFree : 0 ∉ s) : 0 ∉ Dotted.later dot s :=
  fun mem => zeroFree ((List.dropWhile_sublist _).subset (List.mem_of_mem_tail mem))

/-- The comparison finds one name in the other exactly if they are equal or one lies below the
other. -/
theorem compareDotted_conflicts_iff {loops : Nat} {l r : List UInt8} {x : FieldCompareResult}
    (zeroFree : 0 ∉ l) (zeroFree' : 0 ∉ r) (tidy : ¬ Dotted.Trails dot l)
    (tidy' : ¬ Dotted.Trails dot r) (result : compareDotted true loops l r = some x) :
    x.conflicts ↔ Dotted.Related dot l r := by
  induction loops generalizing l r with
  | zero => cases result
  | succ loops ih =>
    have first := lexNumCmp_eq_zero (zeroFree_first zeroFree) (zeroFree_first zeroFree')
    rw [Dotted.related_iff tidy tidy', ← first]
    rw [compareDotted] at result
    rcases lt_trichotomy (lexNumCmp true (Dotted.first dot l) (Dotted.first dot r)) 0
      with less | zero | greater
    · rw [if_pos less] at result
      obtain rfl := Option.some.inj result
      simp [conflicts, less.ne]
    · simp only [zero, gt_iff_lt, lt_irrefl, if_false] at result
      simp only [zero, true_and]
      split_ifs at result with none none' none'
      · obtain rfl := Option.some.inj result
        simp [conflicts, none]
      · obtain rfl := Option.some.inj result
        simp [conflicts, none]
      · obtain rfl := Option.some.inj result
        simp [conflicts, none']
      · rw [ih (zeroFree_later zeroFree) (zeroFree_later zeroFree') (Dotted.tidy_later tidy)
          (Dotted.tidy_later tidy') result]
        simp [none, none']
    · rw [if_neg greater.not_gt, if_pos greater] at result
      obtain rfl := Option.some.inj result
      simp [conflicts, greater.ne']

theorem conflicts_iff {a b : FieldName} {x : FieldCompareResult} (tidy : ¬ a.EndsInDot)
    (tidy' : ¬ b.EndsInDot) (result : compareDottedFieldNames true a b = some x) :
    x.conflicts ↔ a.Related b :=
  compareDotted_conflicts_iff a.zeroFree b.zeroFree tidy tidy' result

end TokuMX.Update
