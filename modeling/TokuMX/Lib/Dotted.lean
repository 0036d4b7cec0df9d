import Mathlib.Data.List.Basic
import Mathlib.Data.List.Infix
import Mathlib.Data.List.Lex
import Mathlib.Data.List.TakeWhile
import Mathlib.Tactic.SplitIfs

/-!
Paths written as lists, with a separator between their parts.

* `related_iff` — whether two paths are equal or one lies below the other can be told part by part,
  as long as neither ends in a separator.
-/

namespace TokuMX.Lib.Dotted

variable {α : Type} [DecidableEq α] (sep : α)

/-- The first part. -/
def first (l : List α) : List α := l.takeWhile (· ≠ sep)

/-- What follows the first separator. -/
def later (l : List α) : List α := (l.dropWhile (· ≠ sep)).tail

/-- The first path lies below the second. -/
def Below (p q : List α) : Prop := ∃ t, p = q ++ sep :: t

instance (p q : List α) : Decidable (Below sep p q) :=
  decidable_of_iff (q ++ [sep] <+: p)
    ⟨fun ⟨t, split⟩ => ⟨t, by simp [← split]⟩, fun ⟨t, split⟩ => ⟨t, by simp [split]⟩⟩

/-- The paths are equal or one lies below the other. -/
def Related (p q : List α) : Prop := p = q ∨ Below sep p q ∨ Below sep q p

instance (p q : List α) : Decidable (Related sep p q) := inferInstanceAs (Decidable (_ ∨ _))

/-- The path ends in a separator. -/
def Trails (l : List α) : Prop := l.getLast? = some sep

instance (l : List α) : Decidable (Trails sep l) := inferInstanceAs (Decidable (_ = _))

variable {sep} {p q l r : List α}

omit [DecidableEq α] in
theorem Related.symm (h : Related sep p q) : Related sep q p := by
  rcases h with rfl | below | above
  · exact .inl rfl
  · exact .inr (.inr below)
  · exact .inr (.inl above)

theorem notMem_first : sep ∉ first sep l := fun mem => by
  simpa using List.mem_takeWhile_imp mem

theorem first_of_notMem (none : sep ∉ l) : first sep l = l :=
  List.takeWhile_eq_self_iff.mpr fun a mem => by
    simpa using fun same : a = sep => none (same ▸ mem)

theorem later_of_notMem (none : sep ∉ l) : later sep l = [] := by
  have all : l.dropWhile (· ≠ sep) = [] := List.dropWhile_eq_nil_iff.mpr fun a mem => by
    simpa using fun same : a = sep => none (same ▸ mem)
  rw [later, all]
  rfl

theorem eq_of_mem (mem : sep ∈ l) : l = first sep l ++ sep :: later sep l := by
  have split := List.takeWhile_append_dropWhile (p := (· ≠ sep)) (l := l)
  cases rest : l.dropWhile (· ≠ sep) with
  | nil =>
    rw [rest, List.append_nil] at split
    exact absurd (split ▸ mem) notMem_first
  | cons a rest' =>
    have head : a = sep := by
      have := List.head?_dropWhile_not (· ≠ sep) l
      rw [rest] at this
      simpa using this
    rw [rest, head] at split
    rw [first, later, rest]
    exact split.symm

theorem later_ne_nil (tidy : ¬ Trails sep l) (mem : sep ∈ l) : later sep l ≠ [] := fun none => by
  have split := eq_of_mem mem
  rw [none] at split
  exact tidy (by rw [Trails, split]; simp)

theorem tidy_later (tidy : ¬ Trails sep l) : ¬ Trails sep (later sep l) := by
  by_cases mem : sep ∈ l
  · intro trails
    have last : (first sep l ++ sep :: later sep l).getLast? = some sep := by
      rw [List.getLast?_append, List.getLast?_cons,
        show (later sep l).getLast? = some sep from trails]
      rfl
    rw [← eq_of_mem mem] at last
    exact tidy last
  · rw [later_of_notMem mem]
    simp [Trails]

theorem first_append_cons (none : sep ∉ p) (t : List α) : first sep (p ++ sep :: t) = p := by
  rw [first, List.takeWhile_append_of_pos fun a mem => by
    simpa using fun same : a = sep => none (same ▸ mem)]
  simp

theorem first_eq_of_below (below : Below sep p q) : first sep p = first sep q := by
  obtain ⟨t, rfl⟩ := below
  by_cases mem : sep ∈ q
  · conv_lhs => rw [eq_of_mem mem, List.append_assoc, List.cons_append]
    rw [first_append_cons notMem_first]
  · rw [first_append_cons mem, first_of_notMem mem]

theorem first_eq_of_related (h : Related sep p q) : first sep p = first sep q := by
  rcases h with rfl | below | above
  · rfl
  · exact first_eq_of_below below
  · exact (first_eq_of_below above).symm

omit [DecidableEq α] in
/-- Paths with the same first part compare as what follows it. -/
theorem related_cons_iff (c : List α) :
    Related sep (c ++ sep :: p) (c ++ sep :: q) ↔ Related sep p q := by
  simp only [Related, Below, List.append_assoc, List.cons_append, List.append_cancel_left_eq,
    List.cons.injEq, true_and]

theorem related_iff (tidy : ¬ Trails sep l) (tidy' : ¬ Trails sep r) : Related sep l r ↔
    first sep l = first sep r ∧
      (later sep l = [] ∨ later sep r = [] ∨ Related sep (later sep l) (later sep r)) := by
  constructor
  · intro related
    have same := first_eq_of_related related
    refine ⟨same, ?_⟩
    by_cases mem : sep ∈ l
    · by_cases mem' : sep ∈ r
      · rw [eq_of_mem mem, eq_of_mem mem', same, related_cons_iff] at related
        exact .inr (.inr related)
      · exact .inr (.inl (later_of_notMem mem'))
    · exact .inl (later_of_notMem mem)
  · rintro ⟨same, rest⟩
    by_cases mem : sep ∈ l
    · by_cases mem' : sep ∈ r
      · rw [eq_of_mem mem, eq_of_mem mem', same, related_cons_iff]
        rcases rest with none | none | related
        · exact absurd none (later_ne_nil tidy mem)
        · exact absurd none (later_ne_nil tidy' mem')
        · exact related
      · rw [first_of_notMem mem'] at same
        exact .inr (.inl ⟨later sep l, same ▸ eq_of_mem mem⟩)
    · rw [first_of_notMem mem] at same
      by_cases mem' : sep ∈ r
      · exact .inr (.inr ⟨later sep r, same ▸ eq_of_mem mem'⟩)
      · exact .inl (same.trans (first_of_notMem mem'))

end TokuMX.Lib.Dotted
