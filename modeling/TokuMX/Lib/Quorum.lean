import Mathlib.Data.List.Sort
import Mathlib.Order.MinMax

/-!
What enough members of a group have reached.

Every member has a value that only grows. `k` members have reached `g` if the values of
`k` of them are at least `g`; the greatest such `g` is the `k`-th largest value.

* `nthLargest_eq_some` — a value that enough members have reached, and nothing above which
  they have, is the `k`-th largest.
* `Reached.update`, `Tight.update` — what becomes of a value kept for the group when one
  member moves on. It stays a value that enough members have reached; it stays the greatest
  one only if the member does not jump over others (`Unhurried`).
-/

namespace TokuMX.Lib

variable {ι α : Type} [LinearOrder α]

/-! ### The least of some values -/

/-- The least of some values and `top`. -/
def lowest (top : α) (l : List α) : α := l.foldr min top

theorem le_lowest {top g : α} {l : List α} : g ≤ lowest top l ↔ g ≤ top ∧ ∀ x ∈ l, g ≤ x := by
  induction l with
  | nil => simp [lowest]
  | cons x l ih =>
    change g ≤ min x (lowest top l) ↔ _
    rw [le_min_iff, ih, List.forall_mem_cons]
    exact and_left_comm

/-! ### The largest values -/

/-- How many values are at least `g`. -/
def reaching (g : α) (l : List α) : Nat := l.countP (g ≤ ·)

/-- The `k`-th largest value, counted from one. -/
def nthLargest (k : Nat) (l : List α) : Option α := (l.insertionSort (· ≥ ·))[k - 1]?

theorem reaching_cons (g x : α) (l : List α) :
    reaching g (x :: l) = reaching g l + if g ≤ x then 1 else 0 := by
  simp [reaching, List.countP_cons]

theorem reaching_of_sorted {l : List α} (sorted : l.Pairwise (· ≥ ·)) {k : Nat} {v : α}
    (at' : l[k]? = some v) (g : α) : g ≤ v ↔ k + 1 ≤ reaching g l := by
  induction l generalizing k with
  | nil => cases at'
  | cons x l ih =>
    obtain ⟨below, sorted⟩ := List.pairwise_cons.mp sorted
    have none : ¬ g ≤ x → reaching g l = 0 := fun above =>
      List.countP_eq_zero.mpr fun y mem reached =>
        above ((of_decide_eq_true reached).trans (below y mem))
    rw [reaching_cons]
    cases k with
    | zero =>
      obtain rfl := Option.some.inj at'
      split_ifs with reached
      · exact iff_of_true reached (by omega)
      · exact iff_of_false reached (by rw [none reached]; omega)
    | succ k =>
      have rest := ih sorted at'
      split_ifs with reached
      · rw [rest]
        omega
      · have high : ¬ g ≤ v := fun low =>
          reached (low.trans (below v (List.mem_of_getElem? at')))
        exact iff_of_false high (by rw [none reached]; omega)

theorem nthLargest_eq_some {k : Nat} {l : List α} {v : α} (positive : 0 < k)
    (enough : k ≤ l.length) (reached : k ≤ reaching v l)
    (tight : ∀ g, v < g → reaching g l < k) : nthLargest k l = some v := by
  have perm := List.perm_insertionSort (· ≥ ·) l
  have sorted := List.pairwise_insertionSort (· ≥ ·) l
  have bound : k - 1 < (l.insertionSort (· ≥ ·)).length := by
    rw [perm.length_eq]
    omega
  obtain ⟨w, found⟩ : ∃ w, nthLargest k l = some w := ⟨_, List.getElem?_eq_getElem bound⟩
  have spec : ∀ g, g ≤ w ↔ k ≤ reaching g l := by
    intro g
    have := reaching_of_sorted sorted found g
    rwa [Nat.sub_add_cancel positive, reaching, perm.countP_eq] at this
  have low : v ≤ w := (spec v).mpr reached
  rcases low.eq_or_lt with rfl | above
  · exact found
  · exact absurd ((spec w).mp le_rfl) (not_le.mpr (tight w above))

/-! ### Groups -/

/-- At most one member of a list without repetitions has a property that tells members
apart. -/
theorem countP_le_one {l : List ι} {p : ι → Bool} (distinct : l.Nodup)
    (unique : ∀ i ∈ l, ∀ j ∈ l, p i → p j → i = j) : l.countP p ≤ 1 := by
  rw [List.countP_eq_length_filter]
  have only : ∀ i ∈ l.filter p, ∀ j ∈ l.filter p, i = j := by
    intro i left j right
    obtain ⟨left, pᵢ⟩ := List.mem_filter.mp left
    obtain ⟨right, pⱼ⟩ := List.mem_filter.mp right
    exact unique i left j right pᵢ pⱼ
  have filtered := distinct.filter p
  generalize l.filter p = found at only filtered
  rcases found with _ | ⟨i, _ | ⟨j, found⟩⟩
  · exact Nat.zero_le 1
  · exact le_rfl
  · have same := only i (by simp) j (by simp)
    simp [same] at filtered

variable {members : List ι} {value : ι → α} {i : ι} {last : α} {k : Nat}

/-- How many members have reached `g`. -/
def reachedBy (members : List ι) (value : ι → α) (g : α) : Nat :=
  members.countP fun i => g ≤ value i

theorem reachedBy_eq_reaching (members : List ι) (value : ι → α) (g : α) :
    reachedBy members value g = reaching g (members.map value) := by
  rw [reachedBy, reaching, List.countP_map]
  rfl

theorem reachedBy_anti {g g' : α} (le : g ≤ g') :
    reachedBy members value g' ≤ reachedBy members value g :=
  List.countP_mono_left fun _ _ high => decide_eq_true (le.trans (of_decide_eq_true high))

variable [DecidableEq ι]

/-- One member and the others. -/
theorem reachedBy_update (distinct : members.Nodup) (mem : i ∈ members) (v g : α) :
    reachedBy members (Function.update value i v) g =
      reachedBy (members.erase i) value g + if g ≤ v then 1 else 0 := by
  have split := (List.perm_cons_erase mem).countP_eq fun j => g ≤ Function.update value i v j
  have others : reachedBy (members.erase i) (Function.update value i v) g =
      reachedBy (members.erase i) value g := by
    refine List.countP_congr fun j later => ?_
    rw [Function.update_of_ne ((distinct.mem_erase_iff.mp later).1)]
  rw [reachedBy, split, List.countP_cons, Function.update_self, ← reachedBy, others]
  simp

theorem reachedBy_split (distinct : members.Nodup) (mem : i ∈ members) (g : α) :
    reachedBy members value g =
      reachedBy (members.erase i) value g + if g ≤ value i then 1 else 0 := by
  have same : reachedBy members (Function.update value i (value i)) g = _ :=
    reachedBy_update distinct mem (value i) g
  rwa [Function.update_eq_self] at same

/-- `k` members have reached `last`. -/
def Reached (members : List ι) (value : ι → α) (k : Nat) (last : α) : Prop :=
  k ≤ reachedBy members value last

/-- Nothing above `last` has been reached by `k` members. -/
def Tight (members : List ι) (value : ι → α) (k : Nat) (last : α) : Prop :=
  ∀ g, last < g → reachedBy members value g < k

/-- A member that moves to `v` does not jump over others: if with it enough are ahead of
`last`, then with it enough are at `v`. -/
def Unhurried (members : List ι) (value : ι → α) (k : Nat) (last : α) (i : ι) (v : α) : Prop :=
  k ≤ (members.erase i).countP (fun j => last < value j) + 1 →
    k ≤ reachedBy (members.erase i) value v + 1

instance (k : Nat) (last : α) (i : ι) (v : α) :
    Decidable (Unhurried members value k last i v) :=
  inferInstanceAs (Decidable (_ → _))

theorem reachedBy_le_update {v : α} (distinct : members.Nodup) (mem : i ∈ members)
    (up : value i ≤ v) (g : α) :
    reachedBy members value g ≤ reachedBy members (Function.update value i v) g := by
  rw [reachedBy_update distinct mem, reachedBy_split distinct mem]
  split_ifs with old new
  · exact le_rfl
  · exact absurd (old.trans up) new
  · exact Nat.le_succ _
  · exact le_rfl

/-- The value kept for a group, after a member has moved to `v`: `v`, if enough have reached
it and it is greater. -/
def follow (members : List ι) (value : ι → α) (k : Nat) (last v : α) : α :=
  if last < v ∧ k ≤ reachedBy members value v then v else last

theorem Reached.update {v : α} (distinct : members.Nodup) (mem : i ∈ members)
    (up : value i ≤ v) (reached : Reached members value k last) :
    Reached members (Function.update value i v) k
      (follow members (Function.update value i v) k last v) := by
  unfold follow
  split_ifs with enough
  · exact enough.2
  · exact Nat.le_trans reached (reachedBy_le_update distinct mem up last)

theorem Tight.update {v : α} (distinct : members.Nodup) (mem : i ∈ members)
    (tight : Tight members value k last)
    (unhurried : last < v → Unhurried members value k last i v) :
    Tight members (Function.update value i v) k
      (follow members (Function.update value i v) k last v) := by
  -- what the others have reached was not enough before
  have others : ∀ g, last < g → reachedBy (members.erase i) value g < k := by
    intro g above
    have before := tight g above
    rw [reachedBy_split distinct mem] at before
    omega
  unfold follow
  split_ifs with enough
  · intro g above
    rw [reachedBy_update distinct mem, if_neg (not_le.mpr above), Nat.add_zero]
    exact others g (enough.1.trans above)
  · intro g above
    rw [reachedBy_update distinct mem]
    split_ifs with within
    · have moved : last < v := above.trans_le within
      have ahead : reachedBy (members.erase i) value g ≤
          (members.erase i).countP fun j => last < value j :=
        List.countP_mono_left fun j _ high =>
          decide_eq_true (above.trans_le (of_decide_eq_true high))
      have few : ¬ k ≤ reachedBy (members.erase i) value v + 1 := by
        intro many
        refine enough ⟨moved, ?_⟩
        rwa [reachedBy_update distinct mem, if_pos le_rfl]
      have := mt (unhurried moved) few
      omega
    · exact others g above

end TokuMX.Lib
