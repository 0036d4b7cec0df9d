import TokuMX.Lib.OrderedMap

/-!
Writes that are not yet part of a map.

A journal lists writes in order, each with what it found under its key. It is applied to
the map as a whole, or dropped as a whole. In between, the map may change, but not under
the keys of the journal.

* `Fits` — every write of the journal finds in the map, after the writes before it, what
  it recorded.
* `total_apply` — applying a journal that fits changes a sum over the values by what the
  journal says.
-/

namespace TokuMX.Lib

variable {K V : Type} [LinearOrder K]

/-- A write: what was under the key, and what is put there. -/
structure Change (K V : Type) where
  key : K
  old : Option V
  new : Option V

/-- By how much a write changes the sum of `f`. -/
def Change.net {M : Type*} [AddCommGroup M] (f : V → M) (change : Change K V) : M :=
  change.new.elim 0 f - change.old.elim 0 f

namespace OrderedMap

/-- The map after the writes. -/
def apply (m : OrderedMap K V) (changes : List (Change K V)) : OrderedMap K V :=
  changes.foldl (fun m change => m.put change.key change.new) m

/-- Every write finds what it recorded. -/
def Fits : OrderedMap K V → List (Change K V) → Prop
  | _, [] => True
  | m, change :: rest => m.find? change.key = change.old ∧ Fits (m.put change.key change.new) rest

variable {m m' : OrderedMap K V} {changes others : List (Change K V)} {change : Change K V}

@[simp] theorem apply_nil (m : OrderedMap K V) : m.apply [] = m := rfl

@[simp] theorem apply_cons (m : OrderedMap K V) (change : Change K V)
    (changes : List (Change K V)) :
    m.apply (change :: changes) = (m.put change.key change.new).apply changes := rfl

theorem apply_append (m : OrderedMap K V) (changes others : List (Change K V)) :
    m.apply (changes ++ others) = (m.apply changes).apply others :=
  List.foldl_append

@[simp] theorem fits_nil (m : OrderedMap K V) : m.Fits [] := trivial

theorem fits_append :
    m.Fits (changes ++ others) ↔ m.Fits changes ∧ (m.apply changes).Fits others := by
  induction changes generalizing m with
  | nil => simp
  | cons change changes ih => simp only [List.cons_append, Fits, apply_cons, ih, and_assoc]

theorem fits_concat : m.Fits (changes ++ [change]) ↔
    m.Fits changes ∧ (m.apply changes).find? change.key = change.old := by
  simp [fits_append, Fits]

/-- Writes under other keys are not seen. -/
theorem find?_apply_of_ne {k : K} (other : ∀ change ∈ changes, change.key ≠ k) :
    (m.apply changes).find? k = m.find? k := by
  induction changes generalizing m with
  | nil => rfl
  | cons change changes ih =>
    rw [List.forall_mem_cons] at other
    rw [apply_cons, ih other.2, find?_put, if_neg other.1.symm]

/-- A value in the map after the writes was there before or was put there. -/
theorem find?_apply_cases {k : K} {v : V} (found : (m.apply changes).find? k = some v) :
    m.find? k = some v ∨ ∃ change ∈ changes, change.key = k ∧ change.new = some v := by
  induction changes generalizing m with
  | nil => exact .inl found
  | cons change changes ih =>
    rcases ih found with here | ⟨later, mem, key, new⟩
    · rw [find?_put] at here
      split_ifs at here with same
      · exact .inr ⟨change, List.mem_cons_self, same.symm, here⟩
      · exact .inl here
    · exact .inr ⟨later, List.mem_cons_of_mem _ mem, key, new⟩

/-- A key that is new after the writes was created by one of them. -/
theorem Fits.creates {k : K} (fits : m.Fits changes) (absent : m.find? k = none)
    (present : (m.apply changes).find? k ≠ none) :
    ∃ change ∈ changes, change.key = k ∧ change.old = none := by
  induction changes generalizing m with
  | nil => exact absurd absent present
  | cons change changes ih =>
    by_cases same : change.key = k
    · exact ⟨change, List.mem_cons_self, same, by rw [← fits.1, same, absent]⟩
    · have still : (m.put change.key change.new).find? k = none := by
        rw [find?_put, if_neg (Ne.symm same), absent]
      obtain ⟨later, mem, found⟩ := ih fits.2 still present
      exact ⟨later, List.mem_cons_of_mem _ mem, found⟩

/-- Whether a journal fits depends on the map under its keys only. -/
theorem Fits.congr (fits : m.Fits changes)
    (same : ∀ change ∈ changes, m'.find? change.key = m.find? change.key) : m'.Fits changes := by
  induction changes generalizing m m' with
  | nil => trivial
  | cons change changes ih =>
    rw [List.forall_mem_cons] at same
    refine ⟨same.1.trans fits.1, ih fits.2 fun later mem => ?_⟩
    rw [find?_put, find?_put, same.2 later mem]

theorem Fits.apply_other (fits : m.Fits changes)
    (apart : ∀ change ∈ changes, ∀ other ∈ others, other.key ≠ change.key) :
    (m.apply others).Fits changes :=
  fits.congr fun change mem => find?_apply_of_ne (apart change mem)

/-- Applying a journal that fits changes a sum by what the journal says. -/
theorem total_apply {M : Type*} [AddCommGroup M] (f : V → M) (fits : m.Fits changes) :
    (m.apply changes).total f = m.total f + (changes.map (Change.net f)).sum := by
  induction changes generalizing m with
  | nil => simp
  | cons change changes ih =>
    rw [apply_cons, ih fits.2, total_put, fits.1, List.map_cons, List.sum_cons, Change.net]
    abel

end OrderedMap

end TokuMX.Lib
