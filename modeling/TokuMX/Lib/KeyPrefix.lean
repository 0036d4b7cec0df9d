import Mathlib.Data.Nat.Find
import Mathlib.Order.PiLex

/-!
Compound keys under the lexicographic order, by their prefixes.

A key is a function that gives its components; only the first few of them count, and how many
is said by the statement.

`padded` makes one key of a bound for each component. It bounds the keys that keep to the bounds
(`padded_le`, `padded_lt`), and a key that it bounds keeps to the first bound that it does not
meet exactly (`le_of_padded`, `lt_of_padded`). Upper bounds are lower ones in the opposite order.
-/

namespace TokuMX.Lib

variable {P : Type*}

/-- The first `r` components agree. -/
def Agree (r : Nat) (a b : Nat → P) : Prop := ∀ i < r, a i = b i

namespace Agree

variable {r s : Nat} {a b c : Nat → P}

theorem refl (r : Nat) (a : Nat → P) : Agree r a a := fun _ _ => rfl

theorem symm (h : Agree r a b) : Agree r b a := fun i lt => (h i lt).symm

theorem trans (h : Agree r a b) (h' : Agree r b c) : Agree r a c :=
  fun i lt => (h i lt).trans (h' i lt)

theorem mono (h : Agree s a b) (le : r ≤ s) : Agree r a b := fun i lt => h i (lt.trans_le le)

end Agree

variable [LinearOrder P]

/-- The first `r` components of one key come before those of the other. -/
def PrefixLt (r : Nat) (a b : Nat → P) : Prop := ∃ m < r, Agree m a b ∧ a m < b m

/-- The first `r` components of one key do not come after those of the other. -/
def PrefixLe (r : Nat) (a b : Nat → P) : Prop := Agree r a b ∨ PrefixLt r a b

variable {r s : Nat} {a b c : Nat → P}

namespace PrefixLt

theorem mono (h : PrefixLt r a b) (le : r ≤ s) : PrefixLt s a b := by
  obtain ⟨m, lt, same, less⟩ := h
  exact ⟨m, lt.trans_le le, same, less⟩

theorem not_agree (h : PrefixLt r a b) : ¬ Agree r a b := by
  obtain ⟨m, lt, _, less⟩ := h
  exact fun same => less.ne (same m lt)

theorem trans (h : PrefixLt r a b) (h' : PrefixLt r b c) : PrefixLt r a c := by
  obtain ⟨m, lt, same, less⟩ := h
  obtain ⟨m', lt', same', less'⟩ := h'
  rcases Nat.lt_trichotomy m m' with first | rfl | second
  · exact ⟨m, lt, same.trans (same'.mono first.le), less.trans_eq (same' m first)⟩
  · exact ⟨m, lt, same.trans same', less.trans less'⟩
  · exact ⟨m', lt', (same.mono second.le).trans same', (same m' second).trans_lt less'⟩

theorem trans_agree (h : PrefixLt r a b) (h' : Agree r b c) : PrefixLt r a c := by
  obtain ⟨m, lt, same, less⟩ := h
  exact ⟨m, lt, same.trans (h'.mono lt.le), less.trans_eq (h' m lt)⟩

theorem agree_trans (h : Agree r a b) (h' : PrefixLt r b c) : PrefixLt r a c := by
  obtain ⟨m, lt, same, less⟩ := h'
  exact ⟨m, lt, (h.mono lt.le).trans same, (h m lt).trans_lt less⟩

theorem irrefl (r : Nat) (a : Nat → P) : ¬ PrefixLt r a a := fun h => h.not_agree (.refl r a)

end PrefixLt

theorem prefix_trichotomy (r : Nat) (a b : Nat → P) :
    PrefixLt r a b ∨ Agree r a b ∨ PrefixLt r b a := by
  induction r with
  | zero => exact .inr (.inl fun i lt => absurd lt (Nat.not_lt_zero i))
  | succ r ih =>
    rcases ih with less | same | greater
    · exact .inl (less.mono (Nat.le_succ r))
    · rcases lt_trichotomy (a r) (b r) with less | equal | greater
      · exact .inl ⟨r, Nat.lt_succ_self r, same, less⟩
      · refine .inr (.inl fun i lt => ?_)
        rcases Nat.lt_succ_iff_lt_or_eq.mp lt with before | rfl
        · exact same i before
        · exact equal
      · exact .inr (.inr ⟨r, Nat.lt_succ_self r, same.symm, greater⟩)
    · exact .inr (.inr (greater.mono (Nat.le_succ r)))

namespace PrefixLe

theorem refl (r : Nat) (a : Nat → P) : PrefixLe r a a := .inl (.refl r a)

theorem of_le (h : ∀ i < r, a i ≤ b i) : PrefixLe r a b := by
  rcases prefix_trichotomy r a b with less | same | ⟨m, lt, _, less⟩
  · exact .inr less
  · exact .inl same
  · exact absurd (h m lt) (not_le.mpr less)

theorem restrict (h : PrefixLe s a b) (le : r ≤ s) : PrefixLe r a b := by
  rcases h with same | ⟨m, lt, same, less⟩
  · exact .inl (same.mono le)
  · rcases Nat.lt_or_ge m r with inside | outside
    · exact .inr ⟨m, inside, same, less⟩
    · exact .inl (same.mono outside)

theorem trans (h : PrefixLe r a b) (h' : PrefixLe r b c) : PrefixLe r a c := by
  rcases h with same | less
  · rcases h' with same' | less'
    · exact .inl (same.trans same')
    · exact .inr (.agree_trans same less')
  · rcases h' with same' | less'
    · exact .inr (less.trans_agree same')
    · exact .inr (less.trans less')

/-- Past a common prefix the next component does not fall. -/
theorem le_of_agree (h : PrefixLe r a b) {i : Nat} (lt : i < r) (same : Agree i a b) :
    a i ≤ b i := by
  rcases h with all | ⟨m, _, before, less⟩
  · exact (all i lt).le
  · rcases Nat.lt_trichotomy m i with first | rfl | second
    · exact absurd (same m first) less.ne
    · exact less.le
    · exact (before i second).le

end PrefixLe

/-! ### Keys in the opposite order -/

section Dual

open OrderDual

theorem prefixLt_toDual :
    PrefixLt r (fun i => toDual (a i)) (fun i => toDual (b i)) ↔ PrefixLt r b a := by
  simp only [PrefixLt, Agree, toDual_inj, toDual_lt_toDual, eq_comm]

theorem prefixLe_toDual :
    PrefixLe r (fun i => toDual (a i)) (fun i => toDual (b i)) ↔ PrefixLe r b a := by
  simp only [PrefixLe, prefixLt_toDual, Agree, toDual_inj, eq_comm]

end Dual

/-! ### Bounds for each component -/

/-- The bounds of the components up to the first that is exclusive, and the ends of the components
behind it. -/
def padded (bound : Nat → P) (inclusive : Nat → Bool) (last : Nat → P) (i : Nat) : P :=
  if ∀ j < i, inclusive j then bound i else last i

section Padded

variable {bound last x : Nat → P} {inclusive : Nat → Bool} {n : Nat}

omit [LinearOrder P] in
theorem padded_of_inclusive {i : Nat} (all : ∀ j < i, inclusive j) :
    padded bound inclusive last i = bound i :=
  if_pos all

omit [LinearOrder P] in
theorem padded_of_exclusive {i j : Nat} (before : j < i) (exclusive : inclusive j = false) :
    padded bound inclusive last i = last i :=
  if_neg fun all => by simp [all j before] at exclusive

omit [LinearOrder P] in
theorem padded_succ (i : Nat) : padded bound inclusive last (i + 1) =
    if inclusive 0 then
      padded (fun j => bound (j + 1)) (fun j => inclusive (j + 1)) (fun j => last (j + 1)) i
    else last (i + 1) := by
  simp only [padded, Nat.forall_lt_succ_left]
  split_ifs <;> simp_all

omit [LinearOrder P] in
theorem map_padded {Q : Type*} (f : Nat → P → Q) (i : Nat) : f i (padded bound inclusive last i) =
    padded (fun j => f j (bound j)) inclusive (fun j => f j (last j)) i :=
  apply_ite (f i) _ _ _

/-- A key with all components within their bounds is not before the padded bounds. -/
theorem padded_le (within : ∀ i < n, bound i ≤ x i) (all : ∀ i < n, inclusive i) :
    PrefixLe n (padded bound inclusive last) x := by
  have bounds : ∀ i < n, padded bound inclusive last i = bound i :=
    fun i lt => padded_of_inclusive fun j before => all j (before.trans lt)
  exact .of_le fun i lt => (bounds i lt).trans_le (within i lt)

/-- If a bound is exclusive the key comes after them. -/
theorem padded_lt (within : ∀ i < n, bound i ≤ x i)
    (beyond : ∀ i < n, inclusive i = false → bound i < x i)
    (some : ∃ i < n, inclusive i = false) : PrefixLt n (padded bound inclusive last) x := by
  classical
  have first : ∃ m, (m < n ∧ inclusive m = false) ∧ ∀ j < m, inclusive j := by
    refine ⟨Nat.find some, Nat.find_spec some, fun j before => ?_⟩
    have earlier := Nat.find_min some before
    have lt := before.trans (Nat.find_spec some).1
    simpa [lt] using earlier
  obtain ⟨m, ⟨lt, exclusive⟩, before⟩ := first
  have bounds : ∀ i ≤ m, padded bound inclusive last i = bound i :=
    fun i le => padded_of_inclusive fun j earlier => before j (earlier.trans_le le)
  -- up to `m` the components are not below, and at `m` the component is above
  rcases prefix_trichotomy (m + 1) (padded bound inclusive last) x with less | same | greater
  · exact less.mono lt
  · have equal := same m (Nat.lt_succ_self m)
    rw [bounds m le_rfl] at equal
    exact absurd (beyond m lt exclusive) (not_lt.mpr equal.ge)
  · obtain ⟨k, inside, _, less⟩ := greater
    have le : k ≤ m := Nat.lt_succ_iff.mp inside
    rw [bounds k le] at less
    exact absurd (within k (le.trans_lt lt)) (not_le.mpr less)

/-- The other way round for the first component in which a key may differ from the bounds. -/
theorem le_of_padded (after : PrefixLe n (padded bound inclusive last) x) {i : Nat} (lt : i < n)
    (all : ∀ j < i, inclusive j) (same : Agree i bound x) : bound i ≤ x i := by
  have agree : Agree i (padded bound inclusive last) x := fun j before => by
    rw [padded_of_inclusive fun k earlier => all k (earlier.trans before)]
    exact same j before
  have le := after.le_of_agree lt agree
  rwa [padded_of_inclusive all] at le

theorem lt_of_padded (after : PrefixLt n (padded bound inclusive last) x)
    (ends : ∀ i < n, x i ≤ last i) {i : Nat} (lt : i < n) (all : ∀ j < i, inclusive j)
    (exclusive : inclusive i = false) (same : Agree i bound x) : bound i < x i := by
  have bounds : ∀ j ≤ i, padded bound inclusive last j = bound j :=
    fun j le => padded_of_inclusive fun k earlier => all k (earlier.trans_le le)
  obtain ⟨m, inside, _, less⟩ := after
  rcases Nat.lt_trichotomy m i with before | rfl | behind
  · rw [bounds m before.le, same m before] at less
    exact absurd less (lt_irrefl _)
  · rwa [bounds m le_rfl] at less
  · rw [padded_of_exclusive behind exclusive] at less
    exact absurd (ends m inside) (not_le.mpr less)

/-! The same for bounds from above. -/

open OrderDual

theorem le_padded (within : ∀ i < n, x i ≤ bound i) (all : ∀ i < n, inclusive i) :
    PrefixLe n x (padded bound inclusive last) := by
  rw [← prefixLe_toDual]
  simp only [map_padded fun _ => toDual]
  exact padded_le within all

theorem lt_padded (within : ∀ i < n, x i ≤ bound i)
    (beyond : ∀ i < n, inclusive i = false → x i < bound i)
    (some : ∃ i < n, inclusive i = false) : PrefixLt n x (padded bound inclusive last) := by
  rw [← prefixLt_toDual]
  simp only [map_padded fun _ => toDual]
  exact padded_lt within beyond some

theorem le_of_le_padded (before : PrefixLe n x (padded bound inclusive last)) {i : Nat}
    (lt : i < n) (all : ∀ j < i, inclusive j) (same : Agree i bound x) : x i ≤ bound i := by
  rw [← prefixLe_toDual] at before
  simp only [map_padded fun _ => toDual] at before
  exact le_of_padded before lt all same

theorem lt_of_lt_padded (before : PrefixLt n x (padded bound inclusive last))
    (ends : ∀ i < n, last i ≤ x i) {i : Nat} (lt : i < n) (all : ∀ j < i, inclusive j)
    (exclusive : inclusive i = false) (same : Agree i bound x) : x i < bound i := by
  rw [← prefixLt_toDual] at before
  simp only [map_padded fun _ => toDual] at before
  exact lt_of_padded before ends lt all exclusive same

end Padded

/-! ### Keys of a fixed number of components -/

omit [LinearOrder P] in
theorem toLex_eq_iff {n : Nat} :
    (toLex (fun i : Fin n => a i) : Πₗ _ : Fin n, P) = toLex (fun i : Fin n => b i) ↔
      Agree n a b := by
  constructor
  · intro same i lt
    exact congrFun (toLex.injective same) ⟨i, lt⟩
  · intro same
    exact congrArg toLex (funext fun i => same i i.isLt)

theorem toLex_lt_iff {n : Nat} :
    (toLex (fun i : Fin n => a i) : Πₗ _ : Fin n, P) < toLex (fun i : Fin n => b i) ↔
      PrefixLt n a b := by
  constructor
  · rintro ⟨m, same, less⟩
    exact ⟨m, m.isLt, fun i lt => same ⟨i, lt.trans m.isLt⟩ lt, less⟩
  · rintro ⟨m, lt, same, less⟩
    exact ⟨⟨m, lt⟩, fun i before => same i before, less⟩

end TokuMX.Lib
