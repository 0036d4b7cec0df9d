import Mathlib.Data.Prod.Lex
import TokuMX.Update.FieldNames

/-!
The order of field names (`LexNumCmp::cmp` in `util/stringutils.cpp`).

A name is read as a list of characters and numbers (`tokens`). A dot is before everything else
and the byte 255 behind it, so that a name is followed by what lies below it.

* `fieldNames_ordered` — it is a strict weak order, and `compareDottedFieldNames` agrees with it.
-/

namespace TokuMX.Update

open TokuMX.Lib FieldName Dotted

theorem length_dropWhile_le (s : List UInt8) : (s.dropWhile isdigit).length ≤ s.length :=
  (List.dropWhile_sublist _).length_le

/-! ### Words -/

/-- What is compared at once: its place among the others, and what is compared in this place. -/
abbrev Token := ℕ ×ₗ ℤ ×ₗ List ℕ

def charToken (c : UInt8) : Token :=
  if c = dot then toLex (0, toLex (0, []))
  else if c = 255 then toLex (3, toLex (0, []))
  else toLex (1, toLex (char c, []))

/-- Numbers are compared by their lengths, then digit by digit. -/
def numberToken (digits : List UInt8) : Token :=
  toLex (2, toLex (digits.length, digits.map UInt8.toNat))

/-- What a string starts with. -/
def headToken (lexOnly startWord : Bool) (c : UInt8) (s : List UInt8) : Token :=
  if ¬ lexOnly ∧ isdigit c then numberToken (number startWord (c :: s)) else charToken c

/-- A string as a list of characters and numbers. -/
def tokens (lexOnly startWord : Bool) : List UInt8 → List Token
  | [] => []
  | c :: s =>
    headToken lexOnly startWord c s ::
      if ¬ lexOnly ∧ isdigit c then tokens lexOnly false (s.dropWhile isdigit)
      else tokens lexOnly (c = dot) s
termination_by s => s.length
decreasing_by
  · exact Nat.lt_succ_of_le (length_dropWhile_le s)
  · exact Nat.lt_succ_self _

section Tokens

variable {lexOnly startWord : Bool} {c d : UInt8} {s t : List UInt8}

theorem headToken_digit (digit : ¬ lexOnly ∧ isdigit c) :
    headToken lexOnly startWord c s = numberToken (number startWord (c :: s)) := if_pos digit

theorem headToken_char (other : ¬ (¬ lexOnly ∧ isdigit c)) :
    headToken lexOnly startWord c s = charToken c := if_neg other

theorem not_isdigit_dot : ¬ (¬ lexOnly ∧ isdigit dot) := fun h => absurd h.2 (by decide)

theorem not_isdigit_top : ¬ (¬ lexOnly ∧ isdigit 255) := fun h => absurd h.2 (by decide)

/-- Where a token stands: a dot, another character, a number, the byte 255. -/
def place (lexOnly : Bool) (c : UInt8) : ℕ :=
  if ¬ lexOnly ∧ isdigit c then 2 else if c = dot then 0 else if c = 255 then 3 else 1

theorem headToken_lt_of_place {startWord' : Bool} (lt : place lexOnly c < place lexOnly d) :
    headToken lexOnly startWord c s < headToken lexOnly startWord' d t := by
  rw [place, place] at lt
  simp only [headToken, charToken, numberToken]
  split_ifs at lt ⊢ <;> simp_all [Prod.Lex.lt_iff]

theorem dot_lt_headToken (other : c ≠ dot) : charToken dot < headToken lexOnly startWord c s := by
  have dotToken : headToken lexOnly true dot [] = charToken dot := headToken_char not_isdigit_dot
  rw [← dotToken]
  refine headToken_lt_of_place ?_
  rw [place, place, if_neg not_isdigit_dot, if_pos rfl]
  split_ifs <;> decide

theorem charToken_lt_of_lt (hc : c ≠ dot) (hd : d ≠ dot) (hc' : c ≠ 255) (hd' : d ≠ 255)
    (lt : char c < char d) : charToken c < charToken d := by
  rw [charToken, charToken, if_neg hc, if_neg hc', if_neg hd, if_neg hd']
  simp [Prod.Lex.lt_iff, lt]

theorem numberToken_lt_iff {m n : List UInt8} : numberToken m < numberToken n ↔
    m.length < n.length ∨ m.length = n.length ∧ m.map UInt8.toNat < n.map UInt8.toNat := by
  simp [numberToken, Prod.Lex.lt_iff]

theorem digit_ne (digit : isdigit c) : c ≠ dot ∧ c ≠ 255 := by
  refine ⟨?_, ?_⟩ <;> rintro rfl <;> exact absurd digit (by decide)

/-- The comparison of strings is that of their tokens. -/
theorem lexNumCmpFrom_signs {rounds : Nat} (enough : s.length ≤ rounds) (zeroFree : 0 ∉ s)
    (zeroFree' : 0 ∉ t) : Signs (lexNumCmpFrom lexOnly rounds startWord s t)
      (tokens lexOnly startWord s) (tokens lexOnly startWord t) := by
  have later : ∀ {c : UInt8} {s : List UInt8}, 0 ∉ c :: s → 0 ∉ s ∧ 0 ∉ s.dropWhile isdigit :=
    fun none => ⟨fun mem => none (.tail _ mem),
      fun mem => none (.tail _ ((List.dropWhile_sublist _).subset mem))⟩
  have running : ∀ {rounds : Nat} {c d : UInt8} {s t : List UInt8}, (c :: s).length ≤ rounds →
      ¬ ∀ n c' s' d' t', rounds = n + 1 → c :: s = c' :: s' → d :: t = d' :: t' → False :=
    fun enough other =>
      other _ _ _ _ _ (Nat.succ_pred_eq_of_pos (Nat.zero_lt_of_lt enough)).symm rfl rfl
  fun_induction lexNumCmpFrom lexOnly rounds startWord s t with
  | case1 _ _ c s d t | case5 _ _ c s d t | case11 _ _ c s d t =>
    rw [tokens, tokens]
    exact .of_head_lt (by decide) (headToken_lt_of_place (by grind [place, digit_ne]))
  | case2 _ _ c s d t | case4 _ _ c s d t | case10 _ _ c s d t =>
    rw [tokens, tokens]
    exact .of_head_gt (by decide) (headToken_lt_of_place (by grind [place, digit_ne]))
  | case3 rounds startWord c s d t _ _ both ih =>
    rw [tokens, tokens, both.1, both.2, if_neg not_isdigit_dot, if_neg not_isdigit_dot,
      headToken_char not_isdigit_dot, headToken_char not_isdigit_dot]
    simpa using (ih (Nat.le_of_succ_le_succ enough) (later zeroFree).1 (later zeroFree').1).cons _
  | case6 rounds startWord c s d t _ _ _ _ _ digits m n longer =>
    rw [tokens, tokens, headToken_digit ⟨digits.1, digits.2.1⟩,
      headToken_digit ⟨digits.1, digits.2.2⟩]
    exact .of_head_gt (by decide) (numberToken_lt_iff.mpr (.inl longer))
  | case7 rounds startWord c s d t _ _ _ _ _ digits m n _ shorter =>
    rw [tokens, tokens, headToken_digit ⟨digits.1, digits.2.1⟩,
      headToken_digit ⟨digits.1, digits.2.2⟩]
    exact .of_head_lt (by decide) (numberToken_lt_iff.mpr (.inl shorter))
  | case8 rounds startWord c s d t _ _ _ _ _ digits m n notLonger notShorter differ =>
    have length : m.length = n.length := by omega
    rw [tokens, tokens, headToken_digit ⟨digits.1, digits.2.1⟩,
      headToken_digit ⟨digits.1, digits.2.2⟩]
    rcases lt_or_gt_of_ne differ with neg | pos
    · exact .of_head_lt neg
        (numberToken_lt_iff.mpr (.inr ⟨length, (memcmp_signs length).lt_iff.mp neg⟩))
    · exact .of_head_gt pos
        (numberToken_lt_iff.mpr (.inr ⟨length.symm, (memcmp_signs length).gt_iff.mp pos⟩))
  | case9 rounds startWord c s d t _ _ _ _ _ digits m n notLonger notShorter same ih =>
    have length : m.length = n.length := by omega
    have equal : numberToken m = numberToken n := by
      rw [numberToken, numberToken, length, (memcmp_signs length).eq_iff.mp (not_not.mp same)]
    rw [tokens, tokens, headToken_digit ⟨digits.1, digits.2.1⟩,
      headToken_digit ⟨digits.1, digits.2.2⟩, if_pos ⟨digits.1, digits.2.1⟩,
      if_pos ⟨digits.1, digits.2.2⟩, show number _ _ = m from rfl, equal]
    have enough := (length_dropWhile_le s).trans (Nat.le_of_succ_le_succ enough)
    exact (ih enough (later zeroFree).2 (later zeroFree').2).cons _
  | case12 rounds startWord c s d t dots dots' _ tops tops' _ other other' greater =>
    rw [tokens, tokens, headToken_char other, headToken_char other']
    exact .of_head_gt (by decide)
      (charToken_lt_of_lt (by grind) (by grind) (by grind) (by grind) greater)
  | case13 rounds startWord c s d t dots dots' _ tops tops' _ other other' _ less =>
    rw [tokens, tokens, headToken_char other, headToken_char other']
    exact .of_head_lt (by decide)
      (charToken_lt_of_lt (by grind) (by grind) (by grind) (by grind) less)
  | case14 rounds startWord c s d t _ _ notDots _ _ _ other other' notGreater notLess ih =>
    obtain rfl := char_injective (le_antisymm (not_lt.mp notGreater) (not_lt.mp notLess))
    have word : ¬ c = dot := fun eq => notDots ⟨eq, eq⟩
    rw [tokens, tokens, if_neg other, if_neg other, headToken_char other, headToken_char other]
    simpa [word] using
      (ih (Nat.le_of_succ_le_succ enough) (later zeroFree).1 (later zeroFree').1).cons _
  | case15 rounds startWord s t more other =>
    obtain _ | ⟨c, s⟩ := s
    · cases more
    · obtain _ | ⟨d, t⟩ := t
      · rw [tokens, tokens]
        exact .of_gt (by decide) (List.nil_lt_cons _ _)
      · exact (running enough other).elim
  | case16 rounds startWord s t ended more other =>
    obtain _ | ⟨d, t⟩ := t
    · cases more
    · obtain _ | ⟨c, s⟩ := s
      · rw [tokens, tokens]
        exact .of_lt (by decide) (List.nil_lt_cons _ _)
      · exact (running enough other).elim
  | case17 rounds startWord s t ended ended' _ =>
    obtain _ | ⟨c, s⟩ := s
    · obtain _ | ⟨d, t⟩ := t
      · exact ⟨by simp, by simp⟩
      · simp_all
    · simp_all

theorem lexNumCmp_signs (lexOnly : Bool) (zeroFree : 0 ∉ s) (zeroFree' : 0 ∉ t) :
    Signs (lexNumCmp lexOnly s t) (tokens lexOnly true s) (tokens lexOnly true t) :=
  lexNumCmpFrom_signs le_rfl zeroFree zeroFree'

/-- What does not take in a dot ends there. -/
theorem while_append_dot {p : UInt8 → Bool} (stops : p dot = false) (s t : List UInt8) :
    (s ++ dot :: t).takeWhile p = s.takeWhile p ∧
      (s ++ dot :: t).dropWhile p = s.dropWhile p ++ dot :: t := by
  induction s with
  | nil => simp [stops]
  | cons c s ih =>
    rw [List.cons_append, List.takeWhile_cons, List.takeWhile_cons, List.dropWhile_cons,
      List.dropWhile_cons, ih.1, ih.2]
    split_ifs <;> simp

theorem number_append_dot (s t : List UInt8) :
    number startWord (s ++ dot :: t) = number startWord s := by
  have digits := fun s : List UInt8 => (while_append_dot (p := isdigit) (by decide) s t).1
  rw [number, number]
  split_ifs
  · rw [(while_append_dot (by decide) s t).2, digits]
  · exact digits s

/-- The tokens of a part in front of a dot, and of what follows. -/
theorem tokens_append_dot (none : dot ∉ s) (t : List UInt8) :
    tokens lexOnly startWord (s ++ dot :: t) =
      tokens lexOnly startWord s ++ charToken dot :: tokens lexOnly true t := by
  fun_induction tokens lexOnly startWord s with
  | case1 =>
    rw [List.nil_append, List.nil_append, tokens, if_neg not_isdigit_dot,
      headToken_char not_isdigit_dot]
    simp
  | case2 startWord c s ih ih' =>
    have later : dot ∉ s := fun mem => none (.tail _ mem)
    have head : headToken lexOnly startWord c (s ++ dot :: t) =
        headToken lexOnly startWord c s := by
      rw [headToken, headToken, ← List.cons_append, number_append_dot]
    rw [List.cons_append, tokens, head, (while_append_dot (by decide) _ _).2]
    split_ifs with digit
    · rw [ih fun mem => later ((List.dropWhile_sublist _).subset mem), List.cons_append]
    · rw [ih' later, List.cons_append]

/-- Every token of a part lies above the dot. -/
theorem dot_lt_of_mem (none : dot ∉ s) {x : Token} (mem : x ∈ tokens lexOnly startWord s) :
    charToken dot < x := by
  fun_induction tokens lexOnly startWord s with
  | case1 => cases mem
  | case2 startWord c s ih ih' =>
    have other : c ≠ dot := fun eq => none (eq ▸ List.mem_cons_self)
    have later : dot ∉ s := fun mem => none (.tail _ mem)
    rcases List.mem_cons.mp mem with rfl | mem
    · exact dot_lt_headToken other
    · split_ifs at mem with digit
      · exact ih (fun mem => later ((List.dropWhile_sublist _).subset mem)) mem
      · exact ih' later mem

end Tokens

/-! ### Dotted names -/

/-- The parts of a name between its dots. -/
def components (name : List UInt8) : List (List UInt8) := name.splitOn dot

/-- No part of the name is empty. -/
def Proper (name : List UInt8) : Prop := ∀ part ∈ components name, part ≠ []

instance (name : List UInt8) : Decidable (Proper name) :=
  inferInstanceAs (Decidable (∀ part ∈ components name, part ≠ []))

/-- The first list goes on where the second ends. Up to there they agree. -/
def Extends {α : Type} (E : α → α → Prop) (l r : List α) : Prop :=
  ∃ p q, l = p ++ q ∧ q ≠ [] ∧ p.Forall₂ E r

/-- What the answer is to say: which of the two lists of parts goes on where the other ends, if
they agree up to there, and otherwise how the names compare. -/
structure Places (cmp : List UInt8 → List UInt8 → Int) (l r : List UInt8)
    (x : FieldCompareResult) : Prop where
  same_iff : x = .same ↔ (components l).Forall₂ (cmp · · = 0) (components r)
  left_iff : x = .leftSubfield ↔ Extends (cmp · · = 0) (components l) (components r)
  right_iff : x = .rightSubfield ↔ Extends (fun b a => cmp a b = 0) (components r) (components l)
  before : x = .leftBefore → cmp l r < 0
  after : x = .rightBefore → 0 < cmp l r

section Extends

variable {α : Type} {E : α → α → Prop} {a b : α} {l r : List α}

@[simp] theorem extends_nil_left : ¬ Extends E [] r := by
  rintro ⟨p, q, split, rest, -⟩
  exact rest (List.append_eq_nil_iff.mp split.symm).2

@[simp] theorem extends_cons_nil : Extends E (a :: l) [] := ⟨[], a :: l, rfl, by simp, .nil⟩

@[simp] theorem extends_cons_cons : Extends E (a :: l) (b :: r) ↔ E a b ∧ Extends E l r := by
  constructor
  · rintro ⟨p, q, split, rest, agree⟩
    cases agree with
    | cons here later =>
      obtain ⟨rfl, rfl⟩ := List.cons.inj split
      exact ⟨here, _, q, rfl, rest, later⟩
  · rintro ⟨here, p, q, rfl, rest, later⟩
    exact ⟨a :: p, q, rfl, rest, .cons here later⟩

end Extends

section Components

variable {lexOnly : Bool} {l r : List UInt8}

theorem components_of_notMem (none : dot ∉ l) : components l = [first dot l] := by
  rw [first_of_notMem none]
  exact List.splitOnP_eq_singleton fun c mem => by simpa using fun eq : c = dot => none (eq ▸ mem)

theorem components_of_mem (mem : dot ∈ l) :
    components l = first dot l :: components (later dot l) := by
  conv_lhs => rw [eq_of_mem mem]
  refine List.splitOnP_append_cons_of_forall_mem (fun c mem => ?_) _ (by simp) _
  simpa using fun eq : c = dot => notMem_first (eq ▸ mem)

theorem components_eq_cons (l : List UInt8) : ∃ rest, components l = first dot l :: rest := by
  by_cases mem : dot ∈ l
  · exact ⟨_, components_of_mem mem⟩
  · exact ⟨[], components_of_notMem mem⟩

theorem tokens_of_mem (lexOnly : Bool) (mem : dot ∈ l) : tokens lexOnly true l =
    tokens lexOnly true (first dot l) ++ charToken dot :: tokens lexOnly true (later dot l) := by
  rw [← tokens_append_dot notMem_first, ← eq_of_mem mem]

theorem tokens_eq_append (lexOnly : Bool) (l : List UInt8) :
    ∃ rest, tokens lexOnly true l = tokens lexOnly true (first dot l) ++ rest ∧
      ∀ a ∈ rest.head?, a = charToken dot := by
  by_cases mem : dot ∈ l
  · exact ⟨_, tokens_of_mem lexOnly mem, by simp⟩
  · exact ⟨[], by rw [first_of_notMem mem, List.append_nil], by simp⟩

/-- A proper name has a dot exactly if something follows its first part. -/
theorem Proper.later_eq_nil (proper : Proper l) : later dot l = [] ↔ dot ∉ l := by
  refine ⟨fun none mem => ?_, later_of_notMem⟩
  have last : [] ∈ components l := by
    rw [components_of_mem mem, none]
    exact List.mem_cons_of_mem _ (by simp [components])
  exact proper [] last rfl

theorem Proper.later (proper : Proper l) (mem : dot ∈ l) : Proper (later dot l) :=
  fun part at_later => proper part (components_of_mem mem ▸ .tail _ at_later)

/-- Names whose first parts differ compare as these. -/
theorem compares_as_first (lexOnly : Bool) (zeroFree : 0 ∉ l) (zeroFree' : 0 ∉ r) :
    (lexNumCmp lexOnly (first dot l) (first dot r) < 0 → lexNumCmp lexOnly l r < 0) ∧
      (0 < lexNumCmp lexOnly (first dot l) (first dot r) →
        0 < lexNumCmp lexOnly l r) := by
  have signs := lexNumCmp_signs lexOnly zeroFree zeroFree'
  obtain ⟨x, left, stops⟩ := tokens_eq_append lexOnly l
  obtain ⟨y, right, stops'⟩ := tokens_eq_append lexOnly r
  rw [left, right] at signs
  have first := lexNumCmp_signs lexOnly (zeroFree_first zeroFree) (zeroFree_first zeroFree')
  refine ⟨fun less => signs.lt_iff.mpr ?_, fun greater => signs.gt_iff.mpr ?_⟩
  · exact append_lt_append (fun a => dot_lt_of_mem notMem_first) stops (first.lt_iff.mp less)
  · exact append_lt_append (fun a => dot_lt_of_mem notMem_first) stops' (first.gt_iff.mp greater)

/-- Names with one first part compare as what follows it. -/
theorem compares_as_later (zeroFree : 0 ∉ l) (zeroFree' : 0 ∉ r) (mem : dot ∈ l) (mem' : dot ∈ r)
    (same : lexNumCmp lexOnly (first dot l) (first dot r) = 0) :
    (lexNumCmp lexOnly (later dot l) (later dot r) < 0 ↔ lexNumCmp lexOnly l r < 0) ∧
      (0 < lexNumCmp lexOnly (later dot l) (later dot r) ↔
        0 < lexNumCmp lexOnly l r) := by
  have first := (lexNumCmp_signs lexOnly (zeroFree_first zeroFree)
    (zeroFree_first zeroFree')).eq_iff.mp same
  have later := ((lexNumCmp_signs lexOnly (zeroFree_later zeroFree)
    (zeroFree_later zeroFree')).cons (charToken dot)).append
      (tokens lexOnly true (Dotted.first dot r))
  have whole := lexNumCmp_signs lexOnly zeroFree zeroFree'
  rw [tokens_of_mem lexOnly mem, tokens_of_mem lexOnly mem', first] at whole
  exact ⟨later.lt_iff.trans whole.lt_iff.symm, later.gt_iff.trans whole.gt_iff.symm⟩

theorem compareDotted_places {loops : Nat} (zeroFree : 0 ∉ l) (zeroFree' : 0 ∉ r)
    (proper : Proper l) (proper' : Proper r) (enough : (components l).length ≤ loops) :
    ∃ x, compareDotted lexOnly loops l r = some x ∧
      Places (lexNumCmp lexOnly) l r x := by
  induction loops generalizing l r with
  | zero =>
    obtain ⟨rest, left⟩ := components_eq_cons l
    rw [left] at enough
    cases enough
  | succ loops ih =>
    obtain ⟨p, left⟩ := components_eq_cons l
    obtain ⟨q, right⟩ := components_eq_cons r
    obtain ⟨less_of_first, greater_of_first⟩ := compares_as_first lexOnly zeroFree zeroFree'
    rw [compareDotted]
    rcases lt_trichotomy (lexNumCmp lexOnly (first dot l) (first dot r)) 0
      with less | same | greater
    · refine ⟨_, if_pos less, ?_⟩
      constructor <;> simp [left, right, less.ne, less_of_first less]
    · simp only [same, lt_irrefl, if_false, proper.later_eq_nil, proper'.later_eq_nil]
      by_cases mem : dot ∈ l
      · obtain ⟨_, more⟩ := components_eq_cons (later dot l)
        rw [components_of_mem mem] at enough
        by_cases mem' : dot ∈ r
        · obtain ⟨x, result, places⟩ := ih (zeroFree_later zeroFree) (zeroFree_later zeroFree')
            (proper.later mem) (proper'.later mem') (Nat.le_of_succ_le_succ enough)
          obtain ⟨less, greater⟩ := compares_as_later zeroFree zeroFree' mem mem' same
          refine ⟨x, by simpa [mem, mem'] using result, ?_, ?_, ?_, ?_, ?_⟩
          · simpa [components_of_mem mem, components_of_mem mem', same] using places.same_iff
          · simpa [components_of_mem mem, components_of_mem mem', same] using places.left_iff
          · simpa [components_of_mem mem, components_of_mem mem', same] using places.right_iff
          · exact fun eq => less.mp (places.before eq)
          · exact fun eq => greater.mp (places.after eq)
        · refine ⟨.leftSubfield, by simp [mem, mem'], ?_⟩
          constructor <;> simp [components_of_mem mem, more, components_of_notMem mem', same]
      · by_cases mem' : dot ∈ r
        · obtain ⟨_, more⟩ := components_eq_cons (later dot r)
          refine ⟨.rightSubfield, by simp [mem, mem'], ?_⟩
          constructor <;> simp [components_of_mem mem', more, components_of_notMem mem, same]
        · refine ⟨.same, by simp [mem, mem'], ?_⟩
          constructor <;> simp [components_of_notMem mem', components_of_notMem mem, same]
    · refine ⟨_, by rw [if_neg greater.not_gt, if_pos greater], ?_⟩
      constructor <;> simp [left, right, greater.ne', greater_of_first greater]

end Components

/-- `LexNumCmp` orders the names, with `lexOnly` without making two of them equal, and
`compareDottedFieldNames` compares proper names part by part as it does. -/
theorem fieldNames_ordered (lexOnly : Bool) :
    (∀ a b : FieldName, lexNumCmp lexOnly a.bytes b.bytes < 0 ↔
      0 < lexNumCmp lexOnly b.bytes a.bytes) ∧
    (∀ a b c : FieldName, lexNumCmp lexOnly a.bytes b.bytes < 0 →
      lexNumCmp lexOnly b.bytes c.bytes < 0 → lexNumCmp lexOnly a.bytes c.bytes < 0) ∧
    (∀ a b c : FieldName, lexNumCmp lexOnly a.bytes b.bytes = 0 →
      lexNumCmp lexOnly b.bytes c.bytes = 0 → lexNumCmp lexOnly a.bytes c.bytes = 0) ∧
    (lexOnly → ∀ a b : FieldName, lexNumCmp lexOnly a.bytes b.bytes = 0 → a = b) ∧
    ∀ l r : FieldName, Proper l.bytes → Proper r.bytes → (components l.bytes).length < 2 ^ 20 →
      (components r.bytes).length < 2 ^ 20 →
      ∃ x, compareDottedFieldNames lexOnly l r = some x ∧
        Places (lexNumCmp lexOnly) l.bytes r.bytes x := by
  have signs : ∀ a b : FieldName, Signs (lexNumCmp lexOnly a.bytes b.bytes)
      (tokens lexOnly true a.bytes) (tokens lexOnly true b.bytes) :=
    fun a b => lexNumCmp_signs lexOnly a.zeroFree b.zeroFree
  refine ⟨fun a b => ?_, fun a b c ab bc => ?_, fun a b c ab bc => ?_, ?_, ?_⟩
  · rw [(signs a b).lt_iff, (signs b a).gt_iff]
  · rw [(signs _ _).lt_iff] at ab bc ⊢
    exact ab.trans bc
  · rw [(signs _ _).eq_iff] at ab bc ⊢
    exact ab.trans bc
  · rintro rfl a b same
    exact ext_bytes ((lexNumCmp_eq_zero a.zeroFree b.zeroFree).mp same)
  · intro l r proper proper' few _
    exact compareDotted_places l.zeroFree r.zeroFree proper proper' few.le

/-- Names that differ in zeros, with digits as numbers. -/
theorem fieldNames_ordered_zeros :
    ∃ l r : FieldName, Proper l.bytes ∧ Proper r.bytes ∧ (components l.bytes).length < 2 ^ 20 ∧
      (components r.bytes).length < 2 ^ 20 ∧
      ∃ x, compareDottedFieldNames false l r = some x ∧
        Places (lexNumCmp false) l.bytes r.bytes x := by
  have left : Proper (ascii "a.1") ∧ (components (ascii "a.1")).length < 2 ^ 20 := by decide
  have right : Proper (ascii "a.01") ∧ (components (ascii "a.01")).length < 2 ^ 20 := by decide
  exact ⟨⟨ascii "a.1", by decide⟩, ⟨ascii "a.01", by decide⟩, left.1, right.1, left.2, right.2,
    (fieldNames_ordered false).2.2.2.2 ⟨ascii "a.1", by decide⟩ ⟨ascii "a.01", by decide⟩
      left.1 right.1 left.2 right.2⟩

end TokuMX.Update
