import Mathlib.Data.List.Sort
import TokuMX.Lib.Checked

/-!
A sequence stored as numbered chunks.

A writer cuts a sequence into chunks numbered from zero and may store them in any
order; a reader sorts what it finds by number, insists that no number is missing,
and concatenates.

* `read_of_perm` — reading chunks stored in any order gives the sequence back.
* `exists_concat_of_last` — the chunk with the greatest number is the last one, so
  extending it extends the sequence at its end (`perm_extendLast`), as opening a new
  one does (`perm_open`).
-/

namespace TokuMX.Lib

variable {α : Type}

/-- A numbered piece of a sequence. -/
structure Chunk (α : Type) where
  seq : Nat
  items : List α
deriving DecidableEq

/-- The pieces of a sequence, numbered from `n`. -/
def number (n : Nat) : List (List α) → List (Chunk α)
  | [] => []
  | piece :: pieces => ⟨n, piece⟩ :: number (n + 1) pieces

/-- Read chunks in the order given, checking that they are numbered from `n` on. -/
def readFrom (n : Nat) : List (Chunk α) → Option (List α)
  | [] => some []
  | chunk :: chunks => do
    check (chunk.seq = n)
    return chunk.items ++ (← readFrom (n + 1) chunks)

/-- Read stored chunks in the order of their numbers. -/
def readChunks (stored : List (Chunk α)) : Option (List α) :=
  readFrom 0 (stored.insertionSort fun a b => a.seq ≤ b.seq)

theorem number_append (n : Nat) (left right : List (List α)) :
    number n (left ++ right) = number n left ++ number (n + left.length) right := by
  induction left generalizing n with
  | nil => simp [number]
  | cons piece left ih => simp [number, ih, Nat.add_assoc, Nat.add_comm 1]

variable {n : Nat} {pieces : List (List α)}

theorem mem_number {chunk : Chunk α} (mem : chunk ∈ number n pieces) :
    n ≤ chunk.seq ∧ chunk.seq < n + pieces.length ∧ chunk.items ∈ pieces := by
  induction pieces generalizing n with
  | nil => simp [number] at mem
  | cons piece pieces ih =>
    rcases List.mem_cons.mp mem with rfl | later
    · simp
    · obtain ⟨low, high, items⟩ := ih later
      refine ⟨by omega, ?_, List.mem_cons_of_mem _ items⟩
      rw [List.length_cons]
      omega

theorem forall_mem_number {P : List α → Prop} :
    (∀ chunk ∈ number n pieces, P chunk.items) ↔ ∀ piece ∈ pieces, P piece := by
  induction pieces generalizing n with
  | nil => simp [number]
  | cons piece pieces ih => rw [number, List.forall_mem_cons, List.forall_mem_cons, ih]

theorem number_sorted (n : Nat) (pieces : List (List α)) :
    (number n pieces).Pairwise fun a b => a.seq < b.seq := by
  induction pieces generalizing n with
  | nil => exact .nil
  | cons piece pieces ih =>
    refine List.pairwise_cons.mpr ⟨fun chunk mem => ?_, ih (n + 1)⟩
    exact (mem_number mem).1

theorem seq_injective {a b : Chunk α} (ha : a ∈ number n pieces) (hb : b ∈ number n pieces)
    (same : a.seq = b.seq) : a = b := by
  have distinct : ((number n pieces).map Chunk.seq).Nodup := by
    rw [List.nodup_iff_pairwise_ne, List.pairwise_map]
    exact (number_sorted n pieces).imp ne_of_lt
  exact List.inj_on_of_nodup_map distinct ha hb same

theorem readFrom_number (n : Nat) (pieces : List (List α)) :
    readFrom n (number n pieces) = some pieces.flatten := by
  induction pieces generalizing n with
  | nil => rfl
  | cons piece pieces ih => simp [number, readFrom, ih, check]

variable {stored : List (Chunk α)}

/-- Chunks stored in any order read back as the sequence they were cut from. -/
theorem read_of_perm (perm : stored.Perm (number 0 pieces)) :
    readChunks stored = some pieces.flatten := by
  have total : Std.Total (fun a b : Chunk α => a.seq ≤ b.seq) := ⟨fun a b => le_total a.seq b.seq⟩
  have trans : IsTrans (Chunk α) (fun a b => a.seq ≤ b.seq) := ⟨fun _ _ _ => le_trans⟩
  have all := (List.perm_insertionSort (fun a b : Chunk α => a.seq ≤ b.seq) stored).trans perm
  have sorted := all.eq_of_pairwise
    (fun a b ha hb ab ba => seq_injective (all.mem_iff.mp ha) hb (le_antisymm ab ba))
    (List.pairwise_insertionSort _ stored) ((number_sorted 0 pieces).imp le_of_lt)
  rw [readChunks, sorted, readFrom_number]

/-- A reader that finds chunks numbered from elsewhere than zero fails. -/
theorem readChunks_number_eq_none (late : n ≠ 0) (some : pieces ≠ []) :
    readChunks (number n pieces) = none := by
  have sorted := (number_sorted n pieces).imp le_of_lt
  obtain ⟨piece, rest, rfl⟩ := List.exists_cons_of_ne_nil some
  rw [readChunks, sorted.insertionSort_eq]
  simp [number, readFrom, check, late]

/-- The chunk with the greatest number holds the last piece. -/
theorem exists_concat_of_last {seq : Nat} {items : List α} (mem : ⟨seq, items⟩ ∈ number 0 pieces)
    (last : seq + 1 = pieces.length) : ∃ init, pieces = init ++ [items] ∧ init.length = seq := by
  rcases List.eq_nil_or_concat pieces with rfl | ⟨init, piece, rfl⟩
  · simp at last
  · rw [List.concat_eq_append] at mem last ⊢
    have length : init.length = seq := by simpa using last.symm
    rw [number_append, List.mem_append] at mem
    rcases mem with earlier | final
    · have := (mem_number earlier).2.1
      simp only at this
      omega
    · have : items = piece := by
        simp only [number, List.mem_singleton, Chunk.mk.injEq] at final
        exact final.2
      exact ⟨init, by rw [this], length⟩

/-- Opening a new chunk extends the sequence at its end. -/
theorem perm_open (items : List α) (perm : stored.Perm (number 0 pieces)) :
    (stored ++ [Chunk.mk pieces.length items]).Perm (number 0 (pieces ++ [items])) := by
  rw [number_append]
  simpa [number] using perm.append_right [Chunk.mk pieces.length items]

/-- Extending the chunk with the greatest number extends the sequence at its end. -/
theorem perm_extendLast {seq : Nat} {items : List α} (more : List α)
    (last : seq + 1 = pieces.length)
    (perm : (stored ++ [Chunk.mk seq items]).Perm (number 0 pieces)) :
    ∃ init, pieces = init ++ [items] ∧
      (stored ++ [Chunk.mk seq (items ++ more)]).Perm (number 0 (init ++ [items ++ more])) := by
  have mem : Chunk.mk seq items ∈ number 0 pieces := perm.mem_iff.mp (by simp)
  obtain ⟨init, rfl, rfl⟩ := exists_concat_of_last mem last
  refine ⟨init, rfl, perm_open _ ?_⟩
  rw [number_append] at perm
  exact (List.perm_append_right_iff _).mp (by simpa [number] using perm)

end TokuMX.Lib
