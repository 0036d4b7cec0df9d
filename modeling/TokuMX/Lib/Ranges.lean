import Mathlib.Data.Set.Insert
import TokuMX.Lib.OrderedMap

/-!
Sets of disjoint half-open ranges of a linear order.

A `Tiling` is a set of non-empty ranges `[lo, hi)`, written `(lo, hi)`, of which
no two meet. Taking ranges away keeps a tiling (`Tiling.mono`), so does adding a
range that meets none (`Tiling.insert`) and replacing a range by a tiling of
ranges inside it (`Tiling.replace`). `cut lo hi keys` are the ranges into which
`keys` cut `[lo, hi)`.

The last section is about a tiling stored in a map from lower to upper bounds,
where one lookup in the neighbourhood of a point answers a question about every
range: `Tiling.covered_iff_stepBack` finds the range a point lies in, and
`Tiling.clear_of_stepBack` finds that a range meets none of them.
-/

namespace TokuMX.Lib

universe u

variable {K : Type u} [LinearOrder K]

/-- The point lies in the half-open range. -/
def InRange (r : K × K) (p : K) : Prop := r.1 ≤ p ∧ p < r.2

instance (r : K × K) (p : K) : Decidable (InRange r p) :=
  inferInstanceAs (Decidable (_ ∧ _))

/-- The point lies in one of the ranges. -/
def Covered (C : Set (K × K)) (p : K) : Prop := ∃ c ∈ C, InRange c p

/-- Non-empty ranges of which no two meet. -/
structure Tiling (C : Set (K × K)) : Prop where
  proper : ∀ c ∈ C, c.1 < c.2
  apart : ∀ a ∈ C, ∀ b ∈ C, a ≠ b → a.2 ≤ b.1 ∨ b.2 ≤ a.1

namespace Tiling

variable {C D : Set (K × K)} {r : K × K}

theorem mono (tiling : Tiling C) (sub : D ⊆ C) : Tiling D where
  proper c hc := tiling.proper c (sub hc)
  apart a ha b hb := tiling.apart a (sub ha) b (sub hb)

theorem insert (tiling : Tiling C) (proper : r.1 < r.2)
    (clear : ∀ c ∈ C, r.2 ≤ c.1 ∨ c.2 ≤ r.1) : Tiling (Set.insert r C) where
  proper := by
    rintro c (rfl | hc)
    · exact proper
    · exact tiling.proper c hc
  apart := by
    rintro a (rfl | ha) b (rfl | hb) differ
    · exact absurd rfl differ
    · exact clear b hb
    · exact (clear a ha).symm
    · exact tiling.apart a ha b hb differ

/-- A range of a tiling may be replaced by a tiling of ranges inside it. -/
theorem replace (tiling : Tiling C) (mem : r ∈ C) (parts : Tiling D)
    (inside : ∀ d ∈ D, r.1 ≤ d.1 ∧ d.2 ≤ r.2) : Tiling (C \ {r} ∪ D) where
  proper := by
    rintro c (hc | hc)
    · exact tiling.proper c hc.1
    · exact parts.proper c hc
  apart := by
    -- A range outside `r` is apart from `r`, hence from every part of it.
    have across : ∀ c ∈ C \ {r}, ∀ d ∈ D, c.2 ≤ d.1 ∨ d.2 ≤ c.1 := by
      rintro c ⟨hc, other⟩ d hd
      obtain ⟨lo, hi⟩ := inside d hd
      rcases tiling.apart c hc r mem other with below | above
      · exact .inl (below.trans lo)
      · exact .inr (hi.trans above)
    rintro a (ha | ha) b (hb | hb) differ
    · exact tiling.apart a ha.1 b hb.1 differ
    · exact across a ha b hb
    · exact (across b hb a ha).symm
    · exact parts.apart a ha b hb differ

end Tiling

/-! ### Cutting a range -/

/-- The ranges between neighbouring bounds of `lo, keys, hi`. -/
def pieces : K → K → List K → List (K × K)
  | lo, hi, [] => [(lo, hi)]
  | lo, hi, k :: ks => (lo, k) :: pieces k hi ks

/-- The ranges `keys` cut `[lo, hi)` into. A key equal to `lo` cuts nothing off. -/
def cut (lo hi : K) (keys : List K) : Set (K × K) :=
  {c | c ∈ pieces lo hi keys ∧ c.1 < c.2}

variable {lo hi k : K} {keys : List K} {c : K × K}

theorem cut_cons_self : cut lo hi (lo :: keys) = cut lo hi keys := by
  ext c
  constructor
  · rintro ⟨mem, proper⟩
    rcases List.mem_cons.mp mem with rfl | mem
    · exact absurd proper (lt_irrefl _)
    · exact ⟨mem, proper⟩
  · rintro ⟨mem, proper⟩
    exact ⟨.tail _ mem, proper⟩

/-- Only the keys strictly inside the range cut it. -/
theorem cut_filter (up : keys.Pairwise (· < ·)) (from_lo : ∀ k ∈ keys, lo ≤ k) :
    cut lo hi (keys.filter (lo < ·)) = cut lo hi keys := by
  cases keys with
  | nil => rfl
  | cons k ks =>
    obtain ⟨first, rest⟩ := List.pairwise_cons.mp up
    have inside : ks.filter (lo < ·) = ks := by
      rw [List.filter_eq_self]
      intro j hj
      exact decide_eq_true ((from_lo k (by simp)).trans_lt (first j hj))
    rcases (from_lo k (by simp)).eq_or_lt with rfl | strict
    · simp [inside, cut_cons_self]
    · simp [inside, strict]

theorem pieces_inside (up : (lo :: keys).Pairwise (· ≤ ·)) (below : ∀ k ∈ lo :: keys, k ≤ hi)
    (mem : c ∈ pieces lo hi keys) : lo ≤ c.1 ∧ c.2 ≤ hi := by
  induction keys generalizing lo with
  | nil =>
    obtain rfl : c = (lo, hi) := by simpa [pieces] using mem
    exact ⟨le_rfl, le_rfl⟩
  | cons k ks ih =>
    rcases List.mem_cons.mp mem with rfl | mem
    · exact ⟨le_rfl, below k (by simp)⟩
    · obtain ⟨left, right⟩ := ih up.of_cons (fun j hj => below j (.tail _ hj)) mem
      exact ⟨((List.pairwise_cons.mp up).1 k (by simp)).trans left, right⟩

/-- Keys strictly inside the range cut it into non-empty pieces, one after the other. -/
theorem pieces_ascend (ascend : (lo :: keys ++ [hi]).Pairwise (· < ·)) :
    (∀ c ∈ pieces lo hi keys, lo ≤ c.1 ∧ c.1 < c.2 ∧ c.2 ≤ hi) ∧
      (pieces lo hi keys).Pairwise fun a b => a.2 ≤ b.1 := by
  induction keys generalizing lo with
  | nil => simpa [pieces] using ascend
  | cons k ks ih =>
    obtain ⟨first, rest⟩ := List.pairwise_cons.mp ascend
    obtain ⟨inside, apart⟩ := ih rest
    have lo_k : lo < k := first k (by simp)
    have k_hi : k < hi := (List.pairwise_cons.mp rest).1 hi (by simp)
    constructor
    · rintro c mem
      rcases List.mem_cons.mp mem with rfl | mem
      · exact ⟨le_rfl, lo_k, k_hi.le⟩
      · obtain ⟨left, proper, right⟩ := inside c mem
        exact ⟨lo_k.le.trans left, proper, right⟩
    · exact List.pairwise_cons.mpr ⟨fun b hb => (inside b hb).1, apart⟩

omit [LinearOrder K] in
theorem exists_first_piece (lo hi : K) (keys : List K) :
    ∃ c ∈ pieces lo hi keys, c.1 = lo := by
  cases keys with
  | nil => exact ⟨(lo, hi), .head _, rfl⟩
  | cons k ks => exact ⟨(lo, k), .head _, rfl⟩

omit [LinearOrder K] in
theorem exists_last_piece (lo hi : K) (keys : List K) :
    ∃ c ∈ pieces lo hi keys, c.2 = hi := by
  induction keys generalizing lo with
  | nil => exact ⟨(lo, hi), .head _, rfl⟩
  | cons k ks ih =>
    obtain ⟨c, mem, last⟩ := ih k
    exact ⟨c, .tail _ mem, last⟩

theorem cut_tiling (up : (lo :: keys).Pairwise (· ≤ ·)) (below : ∀ k ∈ lo :: keys, k ≤ hi) :
    Tiling (cut lo hi keys) where
  proper c hc := hc.2
  apart := by
    induction keys generalizing lo with
    | nil =>
      rintro a ⟨ha, -⟩ b ⟨hb, -⟩ differ
      simp only [pieces, List.mem_singleton] at ha hb
      exact absurd (ha.trans hb.symm) differ
    | cons k ks ih =>
      have up' := up.of_cons
      have below' : ∀ j ∈ k :: ks, j ≤ hi := fun j hj => below j (.tail _ hj)
      -- The first piece ends where all the others may begin.
      have first : ∀ b ∈ pieces k hi ks, k ≤ b.1 := fun b hb =>
        (pieces_inside up' below' hb).1
      rintro a ⟨ha, pa⟩ b ⟨hb, pb⟩ differ
      rcases List.mem_cons.mp ha with rfl | ha <;> rcases List.mem_cons.mp hb with rfl | hb
      · exact absurd rfl differ
      · exact .inl (first b hb)
      · exact .inr (first a ha)
      · exact ih up' below' a ⟨ha, pa⟩ b ⟨hb, pb⟩ differ

/-! ### Tilings stored in a map -/

variable {m : OrderedMap K K} {p : K}

theorem stepBack_mem {front : List (K × K)} (sub : ∀ e ∈ front, e ∈ m.entries)
    (found : m.stepBack front = some c) : c ∈ m.entries := by
  rcases Option.or_eq_some_iff.mp found with last | ⟨-, head⟩
  · exact sub c (List.mem_of_getLast? last)
  · exact List.mem_of_head? head

section

variable (tiling : Tiling {c | c ∈ m.entries})
include tiling

/-- A range that meets none of a stored tiling is new to the map. -/
theorem Tiling.mem_insert (proper : lo < hi) (clear : ∀ c ∈ m.entries, hi ≤ c.1 ∨ c.2 ≤ lo) :
    c ∈ (m.insert lo hi).entries ↔ c = (lo, hi) ∨ c ∈ m.entries := by
  refine OrderedMap.mem_insert fun w mem => ?_
  rcases clear _ mem with after | before
  · exact absurd proper after.not_gt
  · exact absurd (tiling.proper _ mem) before.not_gt

/-- A range that ends in `front` is the last of it or ends before the last begins. -/
theorem Tiling.stepBack_last {q : K × K → Bool} (mem : c ∈ m.entries.filter q) :
    ∃ last ∈ m.entries, q last ∧ m.stepBack (m.entries.filter q) = some last ∧
      (c = last ∨ c.2 ≤ last.1) := by
  obtain ⟨last, found⟩ := Option.isSome_iff_exists.mp
    (List.getLast?_isSome.mpr (List.ne_nil_of_mem mem))
  obtain ⟨atEnd, before⟩ := OrderedMap.rel_getLast (m.sorted.filter q) found
  obtain ⟨lastMem, holds⟩ := List.mem_filter.mp atEnd
  obtain ⟨cMem, -⟩ := List.mem_filter.mp mem
  refine ⟨last, lastMem, holds, by simp [OrderedMap.stepBack, found], ?_⟩
  rcases before c mem with same | less
  · exact .inl same
  · have differ : c ≠ last := fun same => absurd (same ▸ less) (lt_irrefl _)
    rcases tiling.apart c cMem last lastMem differ with done | back
    · exact .inr done
    · exact absurd ((tiling.proper last lastMem).trans_le back) less.not_gt

/-- A point lies in one of the ranges exactly when it lies in the one a step back
from its upper bound leads to. -/
theorem Tiling.covered_iff_stepBack :
    Covered {c | c ∈ m.entries} p ↔ ∃ c, m.stepBack (m.upTo p) = some c ∧ InRange c p := by
  constructor
  · rintro ⟨c, mem, lo, hi⟩
    have front : c ∈ m.entries.filter (·.1 ≤ p) := OrderedMap.mem_upTo.mpr ⟨mem, lo⟩
    obtain ⟨last, -, atMost, found, rfl | done⟩ := tiling.stepBack_last front
    · exact ⟨c, found, lo, hi⟩
    · exact absurd (hi.trans_le done) (of_decide_eq_true atMost).not_gt
  · rintro ⟨c, found, inside⟩
    exact ⟨c, stepBack_mem (fun e he => (OrderedMap.mem_upTo.mp he).1) found, inside⟩

/-- A range that does not meet the one a step back from the lower bound of its end
leads to meets none of them. -/
theorem Tiling.clear_of_stepBack
    (clear : ∀ c, m.stepBack (m.below hi) = some c → hi ≤ c.1 ∨ c.2 ≤ lo) (mem : c ∈ m.entries) :
    hi ≤ c.1 ∨ c.2 ≤ lo := by
  by_cases starts : c.1 < hi
  · have front : c ∈ m.entries.filter (·.1 < hi) := OrderedMap.mem_below.mpr ⟨mem, starts⟩
    obtain ⟨last, lastMem, lastStarts, found, side⟩ := tiling.stepBack_last front
    rcases clear last found with after | before
    · exact absurd (of_decide_eq_true lastStarts) after.not_gt
    · rcases side with rfl | done
      · exact .inr before
      · exact .inr (done.trans ((tiling.proper last lastMem).le.trans before))
  · exact .inl (not_lt.mp starts)

end

end TokuMX.Lib
