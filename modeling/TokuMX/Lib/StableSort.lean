import Mathlib.Data.List.Sort

/-!
The stable sort of a list, built up from its front.

`List.insertionSort` inserts each element in front of those that are not less, starting with the
last. `insertLast` inserts behind those that are not greater, starting with the first
(`insertionSort_concat`). If only the first `k` places matter, the element in the last of them is
all that an insertion has to look at (`take_insertionSort_concat`).
-/

namespace TokuMX.Lib

variable {α : Type*} (r : α → α → Prop) [DecidableRel r]

/-- Insertion behind everything that is not greater. -/
def insertLast (a : α) : List α → List α
  | [] => [a]
  | b :: l => if r b a then b :: insertLast a l else a :: b :: l

variable {r} {a w : α} {l : List α}

theorem insertLast_cons (a b : α) (l : List α) :
    insertLast r a (b :: l) = if r b a then b :: insertLast r a l else a :: b :: l := rfl

theorem perm_insertLast (a : α) (l : List α) : (insertLast r a l).Perm (a :: l) := by
  induction l with
  | nil => rfl
  | cons b l ih =>
    rw [insertLast_cons]
    split_ifs
    · exact (ih.cons b).trans (.swap a b l)
    · rfl

theorem insertLast_of_forall (greatest : ∀ b ∈ l, r b a) : insertLast r a l = l ++ [a] := by
  induction l with
  | nil => rfl
  | cons b l ih =>
    obtain ⟨here, later⟩ := List.forall_mem_cons.mp greatest
    rw [insertLast_cons, if_pos here, ih later, List.cons_append]

theorem insertLast_concat (less : ¬ r w a) :
    insertLast r a (l ++ [w]) = insertLast r a l ++ [w] := by
  induction l with
  | nil => simp [insertLast, less]
  | cons b l ih =>
    rw [List.cons_append, insertLast_cons, insertLast_cons, ih]
    split_ifs <;> rfl

theorem take_insertLast (k : Nat) (a : α) (l : List α) :
    (insertLast r a l).take k = (insertLast r a (l.take k)).take k := by
  induction l generalizing k with
  | nil => rw [List.take_nil]
  | cons b l ih =>
    cases k with
    | zero => rfl
    | succ k =>
      rw [List.take_succ_cons, insertLast_cons, insertLast_cons]
      split_ifs
      · rw [List.take_succ_cons, List.take_succ_cons, ih]
      · cases k <;> simp [List.take_take]

section

variable [Std.Total r] [IsTrans α r]

theorem insertLast_orderedInsert (a b : α) (l : List α) :
    insertLast r a (l.orderedInsert r b) = (insertLast r a l).orderedInsert r b := by
  have total := Std.Total.total (r := r)
  have trans := @IsTrans.trans _ r _
  induction l with
  | nil =>
    simp only [List.orderedInsert_nil, insertLast, List.orderedInsert_cons]
  | cons c l ih =>
    simp only [List.orderedInsert_cons, insertLast]
    split_ifs <;> simp only [List.orderedInsert_cons, insertLast] <;> grind

/-- One more element at the end of the list is inserted last. -/
theorem insertionSort_concat (l : List α) (a : α) :
    (l ++ [a]).insertionSort r = insertLast r a (l.insertionSort r) := by
  induction l with
  | nil => rfl
  | cons b l ih =>
    rw [List.cons_append, List.insertionSort_cons, ih, List.insertionSort_cons,
      insertLast_orderedInsert]

/-- The first places after one more element: a place is free, or the element in the last of them
has to make room, or nothing changes. -/
theorem take_insertionSort_concat (k : Nat) (l : List α) (a : α) :
    (l.length < k → ((l ++ [a]).insertionSort r).take k =
      insertLast r a ((l.insertionSort r).take k)) ∧
      ∀ init w, k ≤ l.length → (l.insertionSort r).take k = init ++ [w] →
      ((l ++ [a]).insertionSort r).take k = if r w a then init ++ [w] else insertLast r a init := by
  rw [insertionSort_concat, take_insertLast]
  constructor
  · intro room
    refine List.take_of_length_le ?_
    rw [(perm_insertLast _ _).length_eq, List.length_cons, List.length_take,
      List.length_insertionSort]
    omega
  · intro init w full best
    have length : init.length + 1 = k := by
      simpa [List.length_insertionSort, full] using (congrArg List.length best).symm
    rw [best]
    split_ifs with stays
    · have sorted : (init ++ [w]).Pairwise r :=
        best ▸ (List.pairwise_insertionSort r l).sublist (List.take_sublist ..)
      have greatest : ∀ b ∈ init ++ [w], r b a := by
        intro b mem
        rcases List.mem_append.mp mem with before | last
        · exact trans_of r ((List.pairwise_append.mp sorted).2.2 b before w (by simp)) stays
        · exact List.mem_singleton.mp last ▸ stays
      rw [insertLast_of_forall greatest, List.take_left' (by simpa using length)]
    · rw [insertLast_concat stays, List.take_left']
      rw [(perm_insertLast _ _).length_eq, List.length_cons, length]

end

end TokuMX.Lib
