import Mathlib.Data.List.Forall2
import Mathlib.Data.Set.Basic
import Mathlib.Tactic.SplitIfs
import Mathlib.Tactic.Push
import Mathlib.Tactic.Tauto

/-!
Reading a sorted list of compound keys in another order.

The keys are sorted field by field, each field ascending or descending. Some of the fields are
also the fields of a second order, in which each may have another direction. A key that is not
after another in the first order is not after it in the second (`Follows`) exactly if
(`follows_iff`)

* each field of the second order has the same direction in both, or cannot tell two keys apart,
  and
* a field that the second order leaves out cannot tell two keys apart, or no later field of the
  second order can.

Nothing is assumed of the comparison of the values but that a value is equal to itself and
that being equal is symmetric. Where it is no order, `InOrder` asks for both ways of comparing
two keys.
-/

namespace TokuMX.Lib

/-- The first is not after the second, whichever of them is compared with the other. -/
def InOrder {K : Type*} (cmp : K → K → Int) (x y : K) : Prop := cmp x y ≤ 0 ∧ 0 ≤ cmp y x

instance {K : Type*} (cmp : K → K → Int) (x y : K) : Decidable (InOrder cmp x y) :=
  inferInstanceAs (Decidable (_ ∧ _))

/-- A field of the keys: the values it can have, whether they descend, and, if it is a field of
the second order, whether they descend there. -/
structure SortField (A : Type*) where
  values : Set A
  descends : Bool
  sorts : Option Bool

variable {A : Type*}

/-- A result turned round where the values descend. -/
def directed (descends : Bool) (c : Int) : Int := if descends then -c else c

/-- The first result if it decides, otherwise the second. -/
def orElse (c rest : Int) : Int := if c ≠ 0 then c else rest

/-- The first order. -/
def compareFirst (cmp : A → A → Int) : List (SortField A) → List A → List A → Int
  | f :: fs, a :: x, b :: y => orElse (directed f.descends (cmp a b)) (compareFirst cmp fs x y)
  | _, _, _ => 0

/-- The second order, which goes through its fields as the keys have them. -/
def compareSecond (cmp : A → A → Int) : List (SortField A) → List A → List A → Int
  | f :: fs, a :: x, b :: y =>
    match f.sorts with
    | some descends => orElse (directed descends (cmp a b)) (compareSecond cmp fs x y)
    | none => compareSecond cmp fs x y
  | _, _, _ => 0

/-- The keys that the fields allow. -/
def Keys (fs : List (SortField A)) (x : List A) : Prop :=
  List.Forall₂ (fun f a => a ∈ f.values) fs x

/-- Keys in the first order are in the second. -/
def Follows (cmp : A → A → Int) (fs : List (SortField A)) : Prop :=
  ∀ x y, Keys fs x → Keys fs y → InOrder (compareFirst cmp fs) x y →
    InOrder (compareSecond cmp fs) x y

/-- The two values are in order and apart, in a direction. -/
def Apart (cmp : A → A → Int) (descends : Bool) (a b : A) : Prop :=
  directed descends (cmp a b) < 0 ∧ 0 < directed descends (cmp b a)

/-- No value of the field is below another. -/
def SortField.Pinned (cmp : A → A → Int) (f : SortField A) : Prop :=
  ∀ a ∈ f.values, ∀ b ∈ f.values, ¬ Apart cmp false a b

/-- All values of the field are equal. -/
def SortField.Flat (cmp : A → A → Int) (f : SortField A) : Prop :=
  ∀ a ∈ f.values, ∀ b ∈ f.values, cmp a b = 0

/-- A field of the second order has the direction it has in the first, or is pinned. -/
def SortField.Agrees (cmp : A → A → Int) (f : SortField A) : Prop :=
  ∀ descends, f.sorts = some descends → descends = f.descends ∨ f.Pinned cmp

/-- A field that the second order leaves out does not come between keys that a later one of its
fields tells apart. -/
def SortField.Passes (cmp : A → A → Int) (f g : SortField A) : Prop :=
  f.sorts = none → g.sorts ≠ none → f.Pinned cmp ∨ g.Flat cmp

variable {cmp : A → A → Int} {f : SortField A} {fs : List (SortField A)} {a b : A} {x y : List A}

theorem directed_eq_zero (descends : Bool) {c : Int} : directed descends c = 0 ↔ c = 0 := by
  unfold directed
  split_ifs <;> omega

theorem directed_xor (a b : Bool) (c : Int) : directed (xor a b) c = directed b (directed a c) := by
  cases a <;> cases b <;> simp [directed]

theorem directed_orElse (descends : Bool) (c rest : Int) :
    directed descends (orElse c rest) = orElse (directed descends c) (directed descends rest) := by
  cases descends <;> simp only [directed, orElse, Bool.false_eq_true, if_false, if_true]
  split_ifs <;> omega

theorem orElse_ordered {c c' rest rest' : Int} (symm : c = 0 ↔ c' = 0) :
    orElse c rest ≤ 0 ∧ 0 ≤ orElse c' rest' ↔ c < 0 ∧ 0 < c' ∨ c = 0 ∧ rest ≤ 0 ∧ 0 ≤ rest' := by
  unfold orElse
  split_ifs <;> omega

theorem apart_not (descends : Bool) : Apart cmp (!descends) a b ↔ Apart cmp descends b a := by
  cases descends <;> simp only [Apart, directed, Bool.not_true, Bool.not_false, if_true,
    Bool.false_eq_true, if_false] <;> omega

theorem Apart.not_symm {descends : Bool} (apart : Apart cmp descends a b) :
    ¬ Apart cmp descends b a := by
  intro back
  unfold Apart at apart back
  omega

theorem Apart.ne_zero {descends : Bool} (apart : Apart cmp descends a b) : cmp a b ≠ 0 := by
  intro same
  rw [Apart, (directed_eq_zero descends).mpr same] at apart
  omega

/-- Being pinned does not depend on the direction. -/
theorem pinned_iff (descends : Bool) :
    f.Pinned cmp ↔ ∀ a ∈ f.values, ∀ b ∈ f.values, ¬ Apart cmp descends a b := by
  cases descends with
  | false => rfl
  | true =>
    have turned : ∀ a b, Apart cmp true a b ↔ Apart cmp false b a := fun a b => apart_not false
    simp only [turned, SortField.Pinned]
    exact ⟨fun pinned a ha b hb => pinned b hb a ha, fun pinned a ha b hb => pinned b hb a ha⟩

/-- Two directions agree on the values of a field if they are one, or the field is pinned. -/
theorem apart_imp_iff {descends other : Bool} :
    (∀ a ∈ f.values, ∀ b ∈ f.values, Apart cmp descends a b → Apart cmp other a b) ↔
      other = descends ∨ f.Pinned cmp := by
  rw [pinned_iff descends]
  constructor
  · intro keeps
    by_cases same : other = descends
    · exact .inl same
    · refine .inr fun a ha b hb apart => apart.not_symm ?_
      have turned := keeps a ha b hb apart
      rw [Bool.eq_not.mpr same] at turned
      exact (apart_not descends).mp turned
  · rintro (rfl | pinned) a ha b hb apart
    · exact apart
    · exact absurd apart (pinned a ha b hb)

theorem Keys.exists_of_inhabited (inhabited : ∀ f ∈ fs, f.values.Nonempty) : ∃ x, Keys fs x := by
  induction fs with
  | nil => exact ⟨[], .nil⟩
  | cons f fs ih =>
    obtain ⟨a, ha⟩ := inhabited f List.mem_cons_self
    obtain ⟨x, hx⟩ := ih fun g hg => inhabited g (List.mem_cons_of_mem f hg)
    exact ⟨a :: x, .cons ha hx⟩

section Laws

variable (self : ∀ a : A, cmp a a = 0) (symm : ∀ a b : A, cmp a b = 0 → cmp b a = 0)

section

include symm

theorem directed_comm (descends : Bool) (a b : A) :
    directed descends (cmp a b) = 0 ↔ directed descends (cmp b a) = 0 := by
  rw [directed_eq_zero, directed_eq_zero]
  exact ⟨symm a b, symm b a⟩

theorem compareFirst_cons :
    InOrder (compareFirst cmp (f :: fs)) (a :: x) (b :: y) ↔
      Apart cmp f.descends a b ∨ cmp a b = 0 ∧ InOrder (compareFirst cmp fs) x y := by
  rw [← directed_eq_zero f.descends]
  exact orElse_ordered (directed_comm symm f.descends a b)

theorem compareSecond_cons {descends : Bool} (sorts : f.sorts = some descends) :
    InOrder (compareSecond cmp (f :: fs)) (a :: x) (b :: y) ↔
      Apart cmp descends a b ∨ cmp a b = 0 ∧ InOrder (compareSecond cmp fs) x y := by
  rw [← directed_eq_zero descends]
  simp only [InOrder, compareSecond, sorts]
  exact orElse_ordered (directed_comm symm descends a b)

end

theorem compareSecond_cons_none (sorts : f.sorts = none) :
    InOrder (compareSecond cmp (f :: fs)) (a :: x) (b :: y) ↔
      InOrder (compareSecond cmp fs) x y := by
  simp only [InOrder, compareSecond, sorts]

include self symm

/-- Any two keys are in the second order exactly if its fields do not tell them apart. -/
theorem forall_compareSecond_iff (inhabited : ∀ f ∈ fs, f.values.Nonempty) :
    (∀ x y, Keys fs x → Keys fs y → InOrder (compareSecond cmp fs) x y) ↔
      ∀ f ∈ fs, f.sorts ≠ none → f.Flat cmp := by
  induction fs with
  | nil =>
    simp only [List.not_mem_nil, IsEmpty.forall_iff, implies_true, iff_true]
    exact fun x y _ _ => ⟨le_rfl, le_rfl⟩
  | cons f fs ih =>
    have inhabited' : ∀ g ∈ fs, g.values.Nonempty :=
      fun g hg => inhabited g (List.mem_cons_of_mem f hg)
    rw [List.forall_mem_cons, ← ih inhabited']
    obtain ⟨a₀, ha₀⟩ := inhabited f List.mem_cons_self
    cases sorts : f.sorts with
    | none =>
      constructor
      · refine fun all => ⟨fun no => absurd rfl no, fun x y hx hy => ?_⟩
        exact (compareSecond_cons_none sorts).mp (all (a₀ :: x) (a₀ :: y) (.cons ha₀ hx)
          (.cons ha₀ hy))
      · rintro ⟨-, all⟩ _ _ (_ | ⟨ha, hx⟩) (_ | ⟨hb, hy⟩)
        exact (compareSecond_cons_none sorts).mpr (all _ _ hx hy)
    | some descends =>
      constructor
      · intro all
        constructor
        · intro _ a ha b hb
          obtain ⟨x, hx⟩ := Keys.exists_of_inhabited inhabited'
          -- In order both ways, the values are not apart.
          have there := (compareSecond_cons symm sorts).mp
            (all (a :: x) (b :: x) (.cons ha hx) (.cons hb hx))
          have back := (compareSecond_cons symm sorts).mp
            (all (b :: x) (a :: x) (.cons hb hx) (.cons ha hx))
          rcases there with apart | same
          · rcases back with apart' | same
            · exact absurd apart' apart.not_symm
            · exact symm b a same.1
          · exact same.1
        · intro x y hx hy
          have here := (compareSecond_cons symm sorts).mp
            (all (a₀ :: x) (a₀ :: y) (.cons ha₀ hx) (.cons ha₀ hy))
          exact (here.resolve_left fun apart => apart.ne_zero (self a₀)).2
      · rintro ⟨flat, all⟩ _ _ (_ | ⟨ha, hx⟩) (_ | ⟨hb, hy⟩)
        refine (compareSecond_cons symm sorts).mpr (.inr ⟨?_, all _ _ hx hy⟩)
        exact flat (by simp) _ ha _ hb

/-- What a field that the second order leaves out asks for. -/
theorem follows_cons_none (sorts : f.sorts = none) (some : f.values.Nonempty) :
    Follows cmp (f :: fs) ↔ Follows cmp fs ∧ (f.Pinned cmp ∨
      ∀ x y, Keys fs x → Keys fs y → InOrder (compareSecond cmp fs) x y) := by
  obtain ⟨a₀, ha₀⟩ := some
  constructor
  · intro follows
    constructor
    · intro x y hx hy ordered
      have first := (compareFirst_cons (f := f) (a := a₀) symm).mpr (.inr ⟨self a₀, ordered⟩)
      exact (compareSecond_cons_none sorts).mp (follows _ _ (.cons ha₀ hx) (.cons ha₀ hy) first)
    · by_cases pinned : f.Pinned cmp
      · exact .inl pinned
      · rw [pinned_iff f.descends] at pinned
        push Not at pinned
        obtain ⟨a, ha, b, hb, apart⟩ := pinned
        refine .inr fun x y hx hy => ?_
        have first : InOrder (compareFirst cmp (f :: fs)) (a :: x) (b :: y) :=
          (compareFirst_cons symm).mpr (.inl apart)
        exact (compareSecond_cons_none sorts).mp (follows _ _ (.cons ha hx) (.cons hb hy) first)
  · rintro ⟨follows, blocked⟩ _ _ (_ | ⟨ha, hx⟩) (_ | ⟨hb, hy⟩) ordered
    rw [compareSecond_cons_none sorts]
    rcases (compareFirst_cons symm).mp ordered with apart | ⟨-, rest⟩
    · rcases blocked with pinned | all
      · exact absurd apart ((pinned_iff f.descends).mp pinned _ ha _ hb)
      · exact all _ _ hx hy
    · exact follows _ _ hx hy rest

/-- What a field of the second order asks for. -/
theorem follows_cons_some {descends : Bool} (sorts : f.sorts = some descends)
    (inhabited : ∀ g ∈ f :: fs, g.values.Nonempty) :
    Follows cmp (f :: fs) ↔ Follows cmp fs ∧ (descends = f.descends ∨ f.Pinned cmp) := by
  obtain ⟨a₀, ha₀⟩ := inhabited f List.mem_cons_self
  rw [← apart_imp_iff]
  constructor
  · intro follows
    constructor
    · intro x y hx hy ordered
      have first := (compareFirst_cons (f := f) (a := a₀) symm).mpr (.inr ⟨self a₀, ordered⟩)
      have second := (compareSecond_cons symm sorts).mp
        (follows _ _ (.cons ha₀ hx) (.cons ha₀ hy) first)
      exact (second.resolve_left fun apart => apart.ne_zero (self a₀)).2
    · intro a ha b hb apart
      obtain ⟨x, hx⟩ := Keys.exists_of_inhabited fun g hg => inhabited g (List.mem_cons_of_mem f hg)
      have first : InOrder (compareFirst cmp (f :: fs)) (a :: x) (b :: x) :=
        (compareFirst_cons symm).mpr (.inl apart)
      have second := (compareSecond_cons symm sorts).mp
        (follows _ _ (.cons ha hx) (.cons hb hx) first)
      exact second.resolve_right fun same => apart.ne_zero same.1
  · rintro ⟨follows, keeps⟩ _ _ (_ | ⟨ha, hx⟩) (_ | ⟨hb, hy⟩) ordered
    rw [compareSecond_cons symm sorts]
    exact ((compareFirst_cons symm).mp ordered).imp (keeps _ ha _ hb)
      (And.imp_right (follows _ _ hx hy))

/-- When a list sorted in the first order is sorted in the second. -/
theorem follows_iff (inhabited : ∀ f ∈ fs, f.values.Nonempty) :
    Follows cmp fs ↔ (∀ f ∈ fs, f.Agrees cmp) ∧ fs.Pairwise (SortField.Passes cmp) := by
  induction fs with
  | nil =>
    simp only [List.not_mem_nil, IsEmpty.forall_iff, implies_true, List.Pairwise.nil, and_self,
      iff_true]
    exact fun x y _ _ _ => ⟨le_rfl, le_rfl⟩
  | cons f fs ih =>
    have inhabited' : ∀ g ∈ fs, g.values.Nonempty :=
      fun g hg => inhabited g (List.mem_cons_of_mem f hg)
    rw [List.forall_mem_cons, List.pairwise_cons]
    cases sorts : f.sorts with
    | none =>
      have agrees : f.Agrees cmp := by simp [SortField.Agrees, sorts]
      rw [follows_cons_none self symm sorts (inhabited f List.mem_cons_self), ih inhabited',
        forall_compareSecond_iff self symm inhabited']
      have passes : (f.Pinned cmp ∨ ∀ g ∈ fs, g.sorts ≠ none → g.Flat cmp) ↔
          ∀ g ∈ fs, f.Passes cmp g := by
        by_cases pinned : f.Pinned cmp <;> simp [SortField.Passes, sorts, pinned]
      rw [passes]
      tauto
    | some descends =>
      have agrees : f.Agrees cmp ↔ descends = f.descends ∨ f.Pinned cmp := by
        simp [SortField.Agrees, sorts]
      have passes : ∀ g ∈ fs, f.Passes cmp g := by simp [SortField.Passes, sorts]
      rw [follows_cons_some self symm sorts inhabited, ih inhabited', agrees]
      tauto

end Laws

end TokuMX.Lib
