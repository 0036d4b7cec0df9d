import Mathlib.Algebra.BigOperators.Group.Finset.Basic
import Mathlib.Algebra.BigOperators.Group.List.Basic
import Mathlib.Algebra.BigOperators.Ring.Finset
import Mathlib.Algebra.Order.BigOperators.Group.Finset
import Mathlib.Algebra.Order.BigOperators.Group.List
import Mathlib.Data.List.Perm.Basic
import Mathlib.Tactic.Ring

/-!
Items in boxes, moved one at a time.

`Transfer p q a b x` takes the item `x` from the box `a` to the box `b`; the order in a box
does not matter. Two kinds of cost are kept: `load w`, where every item costs something in
its box, and `crowding key`, the sum of the squares of how many items of one key are in one
box.

* `Improves`: the transfer lowers a first load, or a second without raising the first, or
  takes an item from a box with at least two more of its key without raising either.
* `Transfer.rank_lt`: such a transfer lowers one number, which `rank_le` bounds by how many
  items there are.
-/

namespace TokuMX.Lib.Boxes

variable {ι α κ : Type} [DecidableEq κ]

/-- The item goes from one box to another. -/
structure Transfer (p q : ι → List α) (a b : ι) (x : α) : Prop where
  source : (p a).Perm (x :: q a)
  target : (q b).Perm (x :: p b)
  other : ∀ i, i ≠ a → i ≠ b → (p i).Perm (q i)

omit [DecidableEq κ] in
theorem Transfer.ne {p q : ι → List α} {a b : ι} {x : α} (move : Transfer p q a b x) : a ≠ b := by
  rintro rfl
  have out := move.source.length_eq
  have back := move.target.length_eq
  rw [List.length_cons] at out back
  omega

/-- What all items cost. -/
def load (boxes : Finset ι) (w : ι → α → ℕ) (p : ι → List α) : ℕ :=
  ∑ i ∈ boxes, ((p i).map (w i)).sum

def countKey (key : α → κ) (k : κ) (l : List α) : ℕ := l.countP (key · = k)

/-- The sum of the squares of the numbers of items with the same key. -/
def squares (key : α → κ) (l : List α) : ℕ := (l.map fun x => countKey key (key x) l).sum

def crowding (boxes : Finset ι) (key : α → κ) (p : ι → List α) : ℕ :=
  ∑ i ∈ boxes, squares key (p i)

/-! ### One box -/

variable {key : α → κ} {l l' : List α} {x : α}

theorem countKey_perm (perm : l.Perm l') (k : κ) : countKey key k l = countKey key k l' :=
  perm.countP_eq _

theorem squares_perm (perm : l.Perm l') : squares key l = squares key l' := by
  unfold squares
  rw [(perm.map _).sum_eq]
  exact congrArg List.sum (List.map_congr_left fun x _ => countKey_perm perm _)

theorem countKey_cons (k : κ) :
    countKey key k (x :: l) = countKey key k l + if key x = k then 1 else 0 := by
  simp [countKey, List.countP_cons]

theorem sum_same_key (x : α) (l : List α) :
    (l.map fun y => if key x = key y then 1 else 0).sum = countKey key (key x) l := by
  induction l with
  | nil => rfl
  | cons y l ih =>
    rw [List.map_cons, List.sum_cons, ih, countKey_cons, Nat.add_comm]
    simp only [eq_comm]

/-- Another item adds what makes the next square. -/
theorem squares_cons : squares key (x :: l) = squares key l + 2 * countKey key (key x) l + 1 := by
  have others : (l.map fun y => countKey key (key y) (x :: l)).sum =
      squares key l + countKey key (key x) l := by
    simp only [countKey_cons, List.sum_map_add, sum_same_key]
    rfl
  rw [squares, List.map_cons, List.sum_cons, others, countKey_cons, if_pos rfl]
  ring

theorem squares_le (l : List α) : squares key l ≤ l.length * l.length := by
  have each : ∀ n ∈ l.map fun x => countKey key (key x) l, n ≤ l.length := by
    intro n mem
    obtain ⟨x, -, rfl⟩ := List.mem_map.mp mem
    exact List.countP_le_length
  have sum := List.sum_le_card_nsmul _ _ each
  simpa [squares] using sum

/-! ### All boxes -/

variable {boxes : Finset ι} {p q : ι → List α} {a b : ι} {w w₁ w₂ : ι → α → ℕ}

/-- How many items there are. -/
def size (boxes : Finset ι) (p : ι → List α) : ℕ := load boxes (fun _ _ => 1) p

theorem load_le_size (unit : ∀ i x, w i x ≤ 1) : load boxes w p ≤ size boxes p :=
  Finset.sum_le_sum fun i _ => List.sum_le_sum fun x _ => unit i x

theorem crowding_le : crowding boxes key p ≤ size boxes p * size boxes p := by
  have length : ∀ i, (p i).length = ((p i).map fun _ => 1).sum := fun i => by simp
  have each : ∀ i ∈ boxes, squares key (p i) ≤ (p i).length * size boxes p := by
    intro i mem
    refine (squares_le _).trans (Nat.mul_le_mul_left _ ?_)
    rw [length i]
    exact Finset.single_le_sum (f := fun i => ((p i).map fun _ => 1).sum)
      (fun _ _ => Nat.zero_le _) mem
  calc crowding boxes key p
    _ ≤ ∑ i ∈ boxes, (p i).length * size boxes p := Finset.sum_le_sum each
    _ = size boxes p * size boxes p := by
        rw [← Finset.sum_mul]
        simp only [length]
        rfl

variable [DecidableEq ι]

section

variable (move : Transfer p q a b x)
include move

/-- A sum over the boxes changes by what changes in the two boxes. -/
theorem Transfer.sum (ha : a ∈ boxes) (hb : b ∈ boxes) {f : ι → List α → ℕ}
    (perm : ∀ i l l', l.Perm l' → f i l = f i l') :
    ∑ i ∈ boxes, f i (q i) + (f a (x :: q a) + f b (p b)) =
      ∑ i ∈ boxes, f i (p i) + (f a (q a) + f b (x :: p b)) := by
  have hb' : b ∈ boxes.erase a := Finset.mem_erase.mpr ⟨move.ne.symm, hb⟩
  have rest : ∑ i ∈ (boxes.erase a).erase b, f i (q i) =
      ∑ i ∈ (boxes.erase a).erase b, f i (p i) := by
    refine Finset.sum_congr rfl fun i mem => ?_
    have other := Finset.mem_erase.mp mem
    exact (perm i _ _ (move.other i (Finset.mem_erase.mp other.2).1 other.1)).symm
  rw [← Finset.add_sum_erase _ _ ha, ← Finset.add_sum_erase _ _ hb', rest,
    ← Finset.add_sum_erase boxes (fun i => f i (p i)) ha,
    ← Finset.add_sum_erase _ (fun i => f i (p i)) hb', perm a _ _ move.source,
    perm b _ _ move.target]
  ring

theorem Transfer.load_eq (ha : a ∈ boxes) (hb : b ∈ boxes) :
    load boxes w q + w a x = load boxes w p + w b x := by
  have sum := move.sum ha hb (f := fun i l => (l.map (w i)).sum) fun i l l' perm =>
    (perm.map _).sum_eq
  simp only [List.map_cons, List.sum_cons] at sum
  unfold load
  omega

theorem Transfer.crowding_eq (ha : a ∈ boxes) (hb : b ∈ boxes) :
    crowding boxes key q + 2 * countKey key (key x) (q a) =
      crowding boxes key p + 2 * countKey key (key x) (p b) := by
  have sum := move.sum ha hb (f := fun _ l => squares key l) fun _ _ _ => squares_perm
  simp only [squares_cons] at sum
  unfold crowding
  omega

theorem Transfer.size_eq (ha : a ∈ boxes) (hb : b ∈ boxes) :
    size boxes q = size boxes p := Nat.add_right_cancel (move.load_eq ha hb)

end

/-! ### Transfers that improve -/

/-- The transfer lowers the first load, or the second, or the crowding, and raises none
before it. -/
def Improves (w₁ w₂ : ι → α → ℕ) (key : α → κ) (p : ι → List α) (a b : ι) (x : α) : Prop :=
  w₁ b x < w₁ a x ∨
    w₁ b x ≤ w₁ a x ∧ (w₂ b x < w₂ a x ∨
      w₂ b x ≤ w₂ a x ∧ countKey key (key x) (p b) + 2 ≤ countKey key (key x) (p a))

/-- The three costs as the digits of one number. -/
def rank (boxes : Finset ι) (w₁ w₂ : ι → α → ℕ) (key : α → κ) (p : ι → List α) : ℕ :=
  (load boxes w₁ p * (size boxes p + 1) + load boxes w₂ p) *
    (size boxes p * size boxes p + 1) + crowding boxes key p

theorem digits_lt {u u' v v' base : ℕ} (small : v' < base)
    (less : u' < u ∨ u' ≤ u ∧ v' < v) : u' * base + v' < u * base + v := by
  rcases less with less | ⟨le, less⟩
  · calc u' * base + v' < (u' + 1) * base := by rw [Nat.add_one_mul]; omega
      _ ≤ u * base := Nat.mul_le_mul_right _ less
      _ ≤ u * base + v := Nat.le_add_right _ _
  · exact Nat.add_lt_add_of_le_of_lt (Nat.mul_le_mul_right _ le) less

theorem Transfer.rank_lt (move : Transfer p q a b x) (ha : a ∈ boxes) (hb : b ∈ boxes)
    (unit : ∀ i x, w₂ i x ≤ 1) (better : Improves w₁ w₂ key p a b x) :
    rank boxes w₁ w₂ key q < rank boxes w₁ w₂ key p := by
  have first := move.load_eq (w := w₁) ha hb
  have second := move.load_eq (w := w₂) ha hb
  have third : crowding boxes key q + _ = crowding boxes key p + _ := move.crowding_eq ha hb
  have count : countKey key (key x) (p a) = countKey key (key x) (q a) + 1 := by
    rw [countKey_perm move.source, countKey_cons, if_pos rfl]
  have second_le : load boxes w₂ q ≤ size boxes q := load_le_size unit
  have third_le : crowding boxes key q ≤ size boxes q * size boxes q := crowding_le
  unfold rank
  rw [move.size_eq ha hb] at *
  refine digits_lt (Nat.lt_succ_of_le third_le) ?_
  rcases better with better | ⟨le, better | ⟨le', better⟩⟩
  · exact .inl (digits_lt (Nat.lt_succ_of_le second_le) (.inl (by omega)))
  · exact .inl (digits_lt (Nat.lt_succ_of_le second_le) (.inr ⟨by omega, by omega⟩))
  · refine .inr ⟨Nat.add_le_add (Nat.mul_le_mul_right _ (by omega)) (by omega), by omega⟩

omit [DecidableEq ι] in
theorem rank_le (unit₁ : ∀ i x, w₁ i x ≤ 1) (unit₂ : ∀ i x, w₂ i x ≤ 1) :
    rank boxes w₁ w₂ key p ≤
      (size boxes p * (size boxes p + 1) + size boxes p) * (size boxes p * size boxes p + 1) +
        size boxes p * size boxes p :=
  Nat.add_le_add (Nat.mul_le_mul_right _ (Nat.add_le_add
    (Nat.mul_le_mul_right _ (load_le_size unit₁)) (load_le_size unit₂))) crowding_le

end TokuMX.Lib.Boxes
