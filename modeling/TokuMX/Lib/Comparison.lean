import Mathlib.Data.List.Lex
import Mathlib.Data.Set.Basic
import Mathlib.Order.Antisymmetrization

/-!
Comparison functions with an integer result, as `memcmp` and its kind have it.

A comparison need not order everything it can be applied to, so the laws are stated on
a set: `ComparesOn cmp S` says that on `S` it is the comparison of a total preorder.
`ComparesOn.lex` compares pairs, first components first, and `ComparesOn.lists` lists.
`least cmp l` is the element of a list that a search from the front of the order finds first.
`Signs` compares a result with the order of two keys, and `ComparesOn.exists_rank` finds such
keys.
-/

namespace TokuMX.Lib

variable {α β : Type*} {cmp : α → α → Int} {S T : Set α}

/-- On `S`, `cmp` is the comparison of a total preorder. -/
structure ComparesOn (cmp : α → α → Int) (S : Set α) : Prop where
  flip : ∀ a ∈ S, ∀ b ∈ S, (cmp a b < 0 ↔ 0 < cmp b a)
  trans : ∀ a ∈ S, ∀ b ∈ S, ∀ c ∈ S, cmp a b ≤ 0 → cmp b c ≤ 0 → cmp a c ≤ 0

namespace ComparesOn

variable {a b c : α}

section

variable (law : ComparesOn cmp S)
include law

theorem mono (sub : T ⊆ S) : ComparesOn cmp T where
  flip a ha b hb := law.flip a (sub ha) b (sub hb)
  trans a ha b hb c hc := law.trans a (sub ha) b (sub hb) c (sub hc)

theorem refl (ha : a ∈ S) : cmp a a = 0 := by
  have := law.flip a ha a ha
  omega

theorem le_iff (ha : a ∈ S) (hb : b ∈ S) : cmp a b ≤ 0 ↔ 0 ≤ cmp b a := by
  have := law.flip b hb a ha
  omega

theorem symm (ha : a ∈ S) (hb : b ∈ S) (same : cmp a b = 0) : cmp b a = 0 := by
  have := law.flip a ha b hb
  have := law.flip b hb a ha
  omega

theorem eq_trans (ha : a ∈ S) (hb : b ∈ S) (hc : c ∈ S) (left : cmp a b = 0) (right : cmp b c = 0) :
    cmp a c = 0 := by
  have le := law.trans a ha b hb c hc left.le right.le
  have ge := law.trans c hc b hb a ha (law.symm hb hc right).le (law.symm ha hb left).le
  have := law.le_iff hc ha
  omega

end

end ComparesOn

/-- The comparison of pairs by their first components, then by their second. -/
def comparePairs (first : α → α → Int) (second : β → β → Int) (a b : α × β) : Int :=
  if first a.1 b.1 ≠ 0 then first a.1 b.1 else second a.2 b.2

variable {first : α → α → Int} {second : β → β → Int} {a b : α × β}

theorem comparePairs_eq_zero :
    comparePairs first second a b = 0 ↔ first a.1 b.1 = 0 ∧ second a.2 b.2 = 0 := by
  unfold comparePairs
  split_ifs with differ
  · simp [differ]
  · simp [not_not.mp differ]

theorem comparePairs_nonpos :
    comparePairs first second a b ≤ 0 ↔
      first a.1 b.1 < 0 ∨ first a.1 b.1 = 0 ∧ second a.2 b.2 ≤ 0 := by
  unfold comparePairs
  split_ifs with differ <;> omega

theorem comparePairs_of_first (same : first a.1 b.1 = 0) :
    comparePairs first second a b = second a.2 b.2 :=
  if_neg (not_not.mpr same)

theorem first_nonneg_of_comparePairs (notBefore : 0 ≤ comparePairs first second a b) :
    0 ≤ first a.1 b.1 := by
  unfold comparePairs at notBefore
  split_ifs at notBefore <;> omega

theorem ComparesOn.lex {R : Set β} (left : ComparesOn first S) (right : ComparesOn second R) :
    ComparesOn (comparePairs first second) {p | p.1 ∈ S ∧ p.2 ∈ R} where
  flip := by
    rintro a ⟨ha, ha'⟩ b ⟨hb, hb'⟩
    have := left.flip a.1 ha b.1 hb
    have := left.flip b.1 hb a.1 ha
    have := right.flip a.2 ha' b.2 hb'
    unfold comparePairs
    split_ifs <;> omega
  trans := by
    rintro a ⟨ha, ha'⟩ b ⟨hb, hb'⟩ c ⟨hc, hc'⟩ ab bc
    rw [comparePairs_nonpos] at ab bc ⊢
    have below := left.trans a.1 ha b.1 hb c.1 hc
    rcases lt_or_eq_of_le (below (by omega) (by omega)) with less | same
    · exact .inl less
    · -- With equal ends, the middle is equal to both.
      have cab := left.trans c.1 hc a.1 ha b.1 hb
      have bca := left.trans b.1 hb c.1 hc a.1 ha
      have ca := left.symm ha hc same
      have := left.le_iff hc hb
      have := left.le_iff hb ha
      have ab' : first a.1 b.1 = 0 := by omega
      have bc' : first b.1 c.1 = 0 := by omega
      exact .inr ⟨same, right.trans a.2 ha' b.2 hb' c.2 hc' (by omega) (by omega)⟩

theorem sign_eq_iff {x y : Int} : x.sign = y.sign ↔ (x < 0 ↔ y < 0) ∧ (0 < x ↔ 0 < y) := by
  rw [← Int.sign_eq_neg_one_iff_neg, ← Int.sign_eq_neg_one_iff_neg, ← Int.sign_eq_one_iff_pos,
    ← Int.sign_eq_one_iff_pos]
  have := Int.sign_trichotomy x
  have := Int.sign_trichotomy y
  omega

/-- A comparison with the signs of another one, of keys. -/
theorem ComparesOn.of_key {cmp' : β → β → Int} {T : Set β} (law : ComparesOn cmp S)
    (key : β → α) (into : ∀ b ∈ T, key b ∈ S)
    (same : ∀ a ∈ T, ∀ b ∈ T, (cmp' a b).sign = (cmp (key a) (key b)).sign) :
    ComparesOn cmp' T where
  flip a ha b hb := by
    rw [(sign_eq_iff.mp (same a ha b hb)).1, (sign_eq_iff.mp (same b hb a ha)).2]
    exact law.flip _ (into a ha) _ (into b hb)
  trans a ha b hb c hc := by
    simp only [← not_lt, (sign_eq_iff.mp (same a ha b hb)).2, (sign_eq_iff.mp (same b hb c hc)).2,
      (sign_eq_iff.mp (same a ha c hc)).2]
    simp only [not_lt]
    exact law.trans _ (into a ha) _ (into b hb) _ (into c hc)

theorem comparesOn_sub : ComparesOn (fun a b : Int => a - b) Set.univ where
  flip a _ b _ := by omega
  trans a _ b _ c _ := by omega

/-- The comparison of lists by their first elements that differ, or else by their ends. -/
def compareLists (cmp : α → α → Int) : List α → List α → Int
  | [], [] => 0
  | [], _ :: _ => -1
  | _ :: _, [] => 1
  | a :: l, b :: r => if cmp a b ≠ 0 then cmp a b else compareLists cmp l r

theorem compareLists_eq_zero {l r : List α} :
    compareLists cmp l r = 0 ↔ List.Forall₂ (fun a b => cmp a b = 0) l r := by
  fun_induction compareLists cmp l r with
  | case1 => simp
  | case2 | case3 => exact iff_of_false (by decide) nofun
  | case4 a l b r differ => simp [differ]
  | case5 a l b r same ih => simp [not_not.mp same, ih]

theorem ComparesOn.lists_bounded (law : ComparesOn cmp S) (n : Nat) :
    ComparesOn (compareLists cmp) {l | (∀ a ∈ l, a ∈ S) ∧ l.length ≤ n} := by
  induction n with
  | zero =>
    have empty : ∀ l ∈ {l : List α | (∀ a ∈ l, a ∈ S) ∧ l.length ≤ 0}, l = [] :=
      fun l hl => List.length_eq_zero_iff.mp (Nat.le_zero.mp hl.2)
    constructor
    · intro l hl r hr
      rw [empty l hl, empty r hr]
      simp [compareLists]
    · intro l hl m hm r hr
      rw [empty l hl, empty r hr]
      simp [compareLists]
  | succ n ih =>
    have pairs := law.lex ih
    have split : ∀ a l, a :: l ∈ {l : List α | (∀ a ∈ l, a ∈ S) ∧ l.length ≤ n + 1} →
        (a, l) ∈ {p : α × List α | p.1 ∈ S ∧
          p.2 ∈ {l : List α | (∀ a ∈ l, a ∈ S) ∧ l.length ≤ n}} := fun a l hl =>
      ⟨hl.1 a List.mem_cons_self, fun b mem => hl.1 b (List.mem_cons_of_mem a mem),
        Nat.le_of_succ_le_succ hl.2⟩
    constructor
    · intro l hl r hr
      cases l with
      | nil => cases r <;> simp [compareLists]
      | cons a l =>
        cases r with
        | nil => simp [compareLists]
        | cons b r => exact pairs.flip _ (split a l hl) _ (split b r hr)
    · intro l hl m hm r hr lm mr
      cases l with
      | nil => cases r <;> simp [compareLists]
      | cons a l =>
        cases m with
        | nil => simp [compareLists] at lm
        | cons b m =>
          cases r with
          | nil => simp [compareLists] at mr
          | cons c r => exact pairs.trans _ (split a l hl) _ (split b m hm) _ (split c r hr) lm mr

theorem ComparesOn.lists (law : ComparesOn cmp S) :
    ComparesOn (compareLists cmp) {l | ∀ a ∈ l, a ∈ S} where
  flip l hl r hr := (law.lists_bounded (l.length + r.length)).flip l ⟨hl, by omega⟩ r ⟨hr, by omega⟩
  trans l hl m hm r hr :=
    (law.lists_bounded (l.length + m.length + r.length)).trans l ⟨hl, by omega⟩ m ⟨hm, by omega⟩
      r ⟨hr, by omega⟩

/-- The first element of the list in the order of `cmp`. -/
def least (cmp : α → α → Int) : List α → Option α
  | [] => none
  | a :: l =>
    match least cmp l with
    | none => some a
    | some b => if cmp b a < 0 then some b else some a

theorem least_eq_none {l : List α} : least cmp l = none ↔ l = [] := by
  cases l with
  | nil => simp [least]
  | cons a l =>
    rw [least]
    split
    · simp
    · split_ifs <;> simp

theorem least_spec {l : List α} {m : α} (law : ComparesOn cmp {a | a ∈ l})
    (found : least cmp l = some m) : m ∈ l ∧ ∀ a ∈ l, cmp m a ≤ 0 := by
  induction l generalizing m with
  | nil => cases found
  | cons a l ih =>
    have inner := law.mono fun b (hb : b ∈ l) => List.mem_cons_of_mem a hb
    have ha : a ∈ {b | b ∈ a :: l} := List.mem_cons_self
    rw [least] at found
    cases rest : least cmp l with
    | none =>
      obtain rfl := least_eq_none.mp rest
      simp only [rest, Option.some_inj] at found
      subst found
      simpa using (law.refl ha).le
    | some b =>
      obtain ⟨mem, bound⟩ := ih inner rest
      have hb : b ∈ {b | b ∈ a :: l} := List.mem_cons_of_mem a mem
      simp only [rest] at found
      split_ifs at found with before
      · cases found
        refine ⟨List.mem_cons_of_mem a mem, fun x hx => ?_⟩
        rcases List.mem_cons.mp hx with rfl | hx
        · exact before.le
        · exact bound x hx
      · cases found
        refine ⟨List.mem_cons_self, fun x hx => ?_⟩
        rcases List.mem_cons.mp hx with rfl | inside
        · exact (law.refl ha).le
        · exact law.trans a ha b hb x hx ((law.le_iff ha hb).mpr (not_lt.mp before))
            (bound x inside)

/-! ### Results and keys -/

section Signs

variable {κ : Type*} [LinearOrder κ]

/-- The sign of a result is that of the comparison of two keys. -/
structure Signs (x : Int) (a b : κ) : Prop where
  lt_iff : x < 0 ↔ a < b
  gt_iff : 0 < x ↔ b < a

namespace Signs

variable {x : Int} {a b : κ}

theorem of_lt (neg : x < 0) (lt : a < b) : Signs x a b :=
  ⟨iff_of_true neg lt, iff_of_false (by omega) lt.not_gt⟩

theorem of_gt (pos : 0 < x) (gt : b < a) : Signs x a b :=
  ⟨iff_of_false (by omega) gt.not_gt, iff_of_true pos gt⟩

theorem eq_iff (h : Signs x a b) : x = 0 ↔ a = b := by
  have lt := h.lt_iff
  have gt := h.gt_iff
  rcases lt_trichotomy a b with less | same | greater
  · have := lt.mpr less
    exact iff_of_false (by omega) less.ne
  · subst same
    simp only [lt_irrefl, iff_false] at lt gt
    exact iff_of_true (by omega) rfl
  · have := gt.mpr greater
    exact iff_of_false (by omega) greater.ne'

variable {l r : List κ}

theorem of_head_lt (neg : x < 0) (lt : a < b) : Signs x (a :: l) (b :: r) :=
  .of_lt neg (List.cons_lt_cons_iff.mpr (.inl lt))

theorem of_head_gt (pos : 0 < x) (gt : b < a) : Signs x (a :: l) (b :: r) :=
  .of_gt pos (List.cons_lt_cons_iff.mpr (.inl gt))

/-- Lists with one head compare as their tails. -/
theorem cons (h : Signs x l r) (c : κ) : Signs x (c :: l) (c :: r) :=
  ⟨by simpa [List.cons_lt_cons_iff] using h.lt_iff, by simpa [List.cons_lt_cons_iff] using h.gt_iff⟩

theorem append (h : Signs x l r) (u : List κ) : Signs x (u ++ l) (u ++ r) := by
  induction u with
  | nil => exact h
  | cons c u ih => exact ih.cons c

/-- Lists compare as the keys of their elements do. -/
theorem compareLists {rank : α → κ} (signs : ∀ a b, Signs (cmp a b) (rank a) (rank b))
    (l r : List α) : Signs (compareLists cmp l r) (l.map rank) (r.map rank) := by
  fun_induction Lib.compareLists cmp l r with
  | case1 => exact ⟨by simp, by simp⟩
  | case2 => exact .of_lt (by decide) (List.nil_lt_cons _ _)
  | case3 => exact .of_gt (by decide) (List.nil_lt_cons _ _)
  | case4 a l b r differ =>
    rcases lt_trichotomy (rank a) (rank b) with less | same | greater
    · exact .of_head_lt ((signs a b).lt_iff.mpr less) less
    · exact absurd ((signs a b).eq_iff.mpr same) differ
    · exact .of_head_gt ((signs a b).gt_iff.mpr greater) greater
  | case5 a l b r same ih =>
    rw [List.map_cons, List.map_cons, (signs a b).eq_iff.mp (not_not.mp same)]
    exact ih.cons _

end Signs

/-- The elements of `S` have ranks in a linear order. -/
theorem ComparesOn.exists_rank {α : Type} {cmp : α → α → Int} {S : Set α}
    (law : ComparesOn cmp S) :
    ∃ (ρ : Type) (_ : LinearOrder ρ) (rank : S → ρ),
      ∀ a b : S, Signs (cmp a b) (rank a) (rank b) := by
  classical
  let order : Preorder S :=
    { le := fun a b => cmp a b ≤ 0
      le_refl := fun a => (law.refl a.property).le
      le_trans := fun a b c => law.trans a a.property b b.property c c.property }
  have total : Std.Total (fun a b : S => a ≤ b) := ⟨fun a b => by
    have := law.le_iff a.property b.property
    change cmp a b ≤ 0 ∨ cmp b a ≤ 0
    omega⟩
  have lt_iff : ∀ a b : S, cmp a b < 0 ↔ a < b := fun a b => by
    rw [lt_iff_le_not_ge]
    change _ ↔ cmp a b ≤ 0 ∧ ¬ cmp b a ≤ 0
    have := law.flip a a.property b b.property
    omega
  refine ⟨Antisymmetrization S (· ≤ ·), inferInstance, toAntisymmetrization (· ≤ ·),
    fun a b => ⟨?_, ?_⟩⟩
  · rw [toAntisymmetrization_lt_toAntisymmetrization_iff]
    exact lt_iff a b
  · rw [toAntisymmetrization_lt_toAntisymmetrization_iff, ← lt_iff b a]
    exact (law.flip b b.property a a.property).symm

/-- Lists whose elements all lie above a separator compare as they do with something behind them
that starts with the separator. -/
theorem append_lt_append {sep : κ} {u v x y : List κ} (above : ∀ a ∈ v, sep < a)
    (stops : ∀ a ∈ x.head?, a = sep) (lt : u < v) : u ++ x < v ++ y := by
  induction u generalizing v with
  | nil =>
    cases v with
    | nil => exact absurd lt (lt_irrefl _)
    | cons b v =>
      cases x with
      | nil => exact List.nil_lt_cons _ _
      | cons c x =>
        obtain rfl := stops c rfl
        exact List.cons_lt_cons_iff.mpr (.inl (above b List.mem_cons_self))
  | cons a u ih =>
    cases v with
    | nil => exact absurd lt (List.not_lt_nil _)
    | cons b v =>
      rcases List.cons_lt_cons_iff.mp lt with less | ⟨rfl, less⟩
      · exact List.cons_lt_cons_iff.mpr (.inl less)
      · exact List.cons_lt_cons_iff.mpr
          (.inr ⟨rfl, ih (fun c mem => above c (List.mem_cons_of_mem _ mem)) less⟩)

end Signs

end TokuMX.Lib
