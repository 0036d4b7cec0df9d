import Mathlib.Data.Prod.Lex
import TokuMX.BSON.Grammar

/-!
What `validateBSON` (`bson/bson_validate.cpp`) makes of a buffer, from the length fields in it.

* `Begins` — where the bytes themselves lead: the places where a document, a code with scope
  or an element begins, with what is open around it.
* `LengthsInOrder` — at all these places a string's length field is at least one and a
  binary's is not negative.
* `validateBSON_terminates` — then the validator comes to a result, in a buffer of any size.
* `validateBSON_grammar` — what starts with a document is accepted, and where the length
  fields are in order nothing else is (`emptyString_accepted`).
-/

namespace TokuMX.BSON.Validation

open TokuMX.Lib

/-! ### Where the bytes lead -/

/-- What can begin at a position. -/
inductive Part where
  | document
  | codeWScope
  | element

/-- What begins at a position inside these open frames, if every value before it is one of
the grammar and whatever was closed had the length stored for it. -/
inductive Begins (b : Memory) : List Frame → Part → Nat → Prop where
  | top : Begins b [] .document 0
  | first {around size p q} : Begins b around .document p →
      Consumes b p (halfBytes size) q → Begins b (.at p false size :: around) .element q
  | scalar {around type name value p q r} :
      Begins b around .element p → 0 ∉ name → Consumes b p (elementHeader type name) q →
      Scalar type value → Consumes b q value r → Begins b around .element r
  | document {around type name p q} :
      Begins b around .element p → 0 ∉ name → type = .object ∨ type = .array →
      Consumes b p (elementHeader type name) q → Begins b around .document q
  | codeWScope {around name p q} :
      Begins b around .element p → 0 ∉ name → Consumes b p (elementHeader .codeWScope name) q →
      Begins b around .codeWScope q
  | scope {around size code p q} :
      Begins b around .codeWScope p → IsString code → Consumes b p (halfBytes size ++ code) q →
      Begins b (.at p true size :: around) .document q
  | closed {f g outer p q} :
      Begins b (f :: g :: outer) .element p → Consumes b p [0] q →
      f.actualLength q = f.expectedSize → g.isCodeWithScope = false →
      Begins b (g :: outer) .element q
  | closedScope {f g h outer p q} :
      Begins b (f :: g :: h :: outer) .element p → Consumes b p [0] q →
      f.actualLength q = f.expectedSize → g.isCodeWithScope = true →
      g.actualLength q = g.expectedSize → Begins b (h :: outer) .element q

/-- The length fields that the bytes lead to are in order. -/
structure LengthsInOrder (b : Memory) : Prop where
  element : ∀ {frames p}, Begins b frames .element p → ElementLengths b p
  code : ∀ {frames p}, Begins b frames .codeWScope p → AtLeast b 1 (p + 4)

variable {b : Memory} {p q n : Nat} {x : List UInt8} {size : BitVec 32} {type : BSONType}
  {c c' : Control} {frames frames' : List Frame} {f : Frame} {outer : List Frame}

theorem Begins.inside {part : Part} (begins : Begins b frames part p) : p ≤ b.maxLength := by
  cases begins with
  | top => exact Nat.zero_le _
  | first _ here | scalar _ _ _ _ here | document _ _ _ here | codeWScope _ _ here
  | scope _ _ here | closed _ here | closedScope _ here => exact here.inside

/-! ### The validator comes to a result -/

/-- The machine is where the bytes lead. Behind the buffer it can only fail. -/
def Follows (b : Memory) (c : Control) (frames : List Frame) : Prop :=
  match c.state with
  | .beginObj => Begins b frames .document c.position
  | .beginCodeWScope => Begins b frames .codeWScope c.position
  | .withinObj => Begins b frames .element c.position ∨ b.maxLength < c.position
  | .endObj => ∃ p, Begins b frames .element p ∧ Consumes b p [0] c.position
  | .endCodeWScope => frames.head?.any Frame.isCodeWithScope ∧
      ∃ f p, Begins b (f :: frames) .element p ∧ Consumes b p [0] c.position ∧
        f.actualLength c.position = f.expectedSize
  | .done => ∃ f p, Begins b [f] .element p ∧ Consumes b p [0] c.position ∧
      f.actualLength c.position = f.expectedSize

/-- Further on in the buffer, or at the same position with less open. -/
def Progress (m m' : Control × List Frame) : Prop :=
  m.1.position < m'.1.position ∨ m.1.position = m'.1.position ∧ m'.2.length < m.2.length

theorem validateValue_state (read : validateValue b p type = .ok c) :
    c.state = .withinObj ∨ ((type = .object ∨ type = .array) ∧ c = ⟨p, .beginObj⟩) ∨
      type = .codeWScope ∧ c = ⟨p, .beginCodeWScope⟩ := by
  cases type with
  | object => exact .inr (.inl ⟨.inl rfl, (Except.ok.inj read).symm⟩)
  | array => exact .inr (.inl ⟨.inr rfl, (Except.ok.inj read).symm⟩)
  | codeWScope => exact .inr (.inr ⟨rfl, (Except.ok.inj read).symm⟩)
  | minKey | maxKey | jstNULL | undefined =>
    obtain rfl := Except.ok.inj read
    exact .inl rfl
  | jstOID | numberInt | bool | numberDouble | numberLong | timestamp | date | dbRef | code | symbol
  | string | regEx | binData =>
    simp only [validateValue, except_bind_eq_ok, pure, Except.pure, Except.ok.injEq] at read
    grind

theorem follows_element (lengths : LengthsInOrder b) (begins : Begins b frames .element p)
    (read : validateElementInfo b p = .ok c) : Follows b c frames ∧ p < c.position := by
  obtain ⟨position, state⟩ := c
  have inside := begins.inside
  rcases validateElementInfo_eq_ok (by omega) read (lengths.element begins) with
    ⟨rfl, last⟩ | ⟨type, name, q, clean, header, value, good⟩
  · have stop : position = p + 1 := last.stop
    exact ⟨⟨p, begins, last⟩, by simp only; omega⟩
  · have stop : q = p + _ := header.stop
    have further : p < q := by
      simp only [elementHeader, List.length_cons] at stop
      omega
    rcases validateValue_state value with within | ⟨isObject, same⟩ | ⟨rfl, same⟩
    · simp only at within
      subst within
      rcases scalar_of_validateValue header.inside value good with ⟨x, scalar, rest⟩ | beyond
      · have stop' := rest.stop
        exact ⟨.inl (.scalar begins clean header scalar rest), by simp only; omega⟩
      · exact ⟨.inr beyond, by simp only; omega⟩
    · obtain ⟨rfl, rfl⟩ := Control.mk.inj same
      exact ⟨.document begins clean isObject header, further⟩
    · obtain ⟨rfl, rfl⟩ := Control.mk.inj same
      exact ⟨.codeWScope begins clean header, further⟩

/-- One round of the machine goes on where the bytes lead. -/
theorem follows_step (lengths : LengthsInOrder b) (near : c.position ≤ b.maxLength + 12)
    (running : c.state ≠ .done) (follows : Follows b c frames)
    (made : step b c frames = .ok (c', frames')) :
    Follows b c' frames' ∧ Progress (c, frames) (c', frames') := by
  obtain ⟨position, state⟩ := c
  simp only at near
  cases state with
  | beginObj =>
    simp only [step, except_bind_eq_ok, Prod.exists, readInt_eq_ok _ near, pure, Except.pure,
      Except.ok.injEq, Prod.mk.injEq] at made
    obtain ⟨size, p, length, control, read, rfl, rfl⟩ := made
    have stop : p = position + 4 := length.stop
    obtain ⟨next, further⟩ := follows_element lengths (.first follows length) read
    exact ⟨next, .inl (by simp only; omega)⟩
  | withinObj =>
    simp only [step, except_bind_eq_ok, pure, Except.pure, Except.ok.injEq, Prod.mk.injEq] at made
    obtain ⟨control, read, rfl, rfl⟩ := made
    rcases follows with begins | beyond
    · obtain ⟨next, further⟩ := follows_element lengths begins read
      exact ⟨next, .inl further⟩
    · obtain ⟨r, byte, -⟩ := except_bind_eq_ok.mp read
      have consumes := (readChar_eq_ok _ near).mp byte
      have stop := consumes.stop
      have inside := consumes.inside
      simp only at beyond
      omega
  | beginCodeWScope =>
    simp only [step, except_bind_eq_ok, Prod.exists, readInt_eq_ok _ near, pure, Except.pure,
      Except.ok.injEq, Prod.mk.injEq] at made
    obtain ⟨size, p, length, q, read, rfl, rfl⟩ := made
    have stop : p = position + 4 := length.stop
    have inside := length.inside
    subst stop
    obtain ⟨code, string, consumes⟩ :=
      (readUTF8String_eq_ok (by omega)).mp ⟨read, lengths.code follows⟩
    have stop := consumes.stop
    exact ⟨.scope follows string (length.append consumes), .inl (by simp only; omega)⟩
  | endObj =>
    obtain ⟨p, begins, last⟩ := follows
    cases frames with
    | nil => simp [step] at made
    | cons f outer =>
      simp only [step] at made
      split_ifs at made with checked
      obtain ⟨rfl, rfl⟩ := Prod.mk.inj (Except.ok.inj made)
      refine ⟨?_, .inr ⟨rfl, Nat.lt_succ_self _⟩⟩
      cases outer with
      | nil => exact ⟨f, p, begins, last, checked⟩
      | cons g outer =>
        cases kind : g.isCodeWithScope with
        | false =>
          simp only [State.afterObj, kind]
          exact .inl (.closed begins last checked kind)
        | true =>
          simp only [State.afterObj, kind]
          exact ⟨by simpa using kind, f, p, begins, last, checked⟩
  | endCodeWScope =>
    obtain ⟨kind, f, p, begins, last, checked⟩ := follows
    cases frames with
    | nil => simp [step] at made
    | cons g outer =>
      simp only [step] at made
      split_ifs at made with checked' none
      obtain ⟨rfl, rfl⟩ := Prod.mk.inj (Except.ok.inj made)
      refine ⟨.inl ?_, .inr ⟨rfl, Nat.lt_succ_self _⟩⟩
      cases outer with
      | nil => exact absurd rfl none
      | cons h outer => exact .closedScope begins last checked (by simpa using kind) checked'
  | done => exact absurd rfl running

/-- What is still ahead of the machine: bytes, then frames to close. -/
def ahead (b : Memory) (m : Control × List Frame) : Nat ×ₗ Nat :=
  toLex (b.maxLength + 12 - m.1.position, m.2.length)

theorem validateBSONIterative_stops (lengths : LengthsInOrder b) (m : Control × List Frame)
    (sane : Sane b m.1 m.2) (follows : Follows b m.1 m.2) :
    ∃ fuel status, validateBSONIterative b fuel m = some status := by
  induction bound : ahead b m using WellFoundedLT.induction generalizing m with
  | ind bound' ih =>
    obtain ⟨c, frames⟩ := m
    by_cases done : c.state = .done
    · exact ⟨1, .ok (), by simp [validateBSONIterative, done]⟩
    · cases made : step b c frames with
      | error failure => exact ⟨1, .error failure, by simp [validateBSONIterative, done, made]⟩
      | ok m' =>
        have safe := step_safe sane
        rw [made] at safe
        obtain ⟨next, progress⟩ := follows_step lengths sane.placed.1 done follows made
        have less : ahead b m' < bound' := by
          have near := safe.placed.1
          rw [← bound, ahead, ahead, Prod.Lex.toLex_lt_toLex]
          simp only [Progress] at progress ⊢
          omega
        obtain ⟨fuel, status, result⟩ := ih _ less m' safe next rfl
        exact ⟨fuel + 1, status, by simp [validateBSONIterative, done, made, result]⟩

/-- For every buffer: if the length fields that the bytes lead to are in order, the validator
comes to a result. -/
theorem validateBSON_terminates (b : Memory) (lengths : LengthsInOrder b) : Terminates b := by
  by_cases short : b.maxLength < 5
  · exact ⟨0, _, if_pos short⟩
  · obtain ⟨fuel, status, result⟩ :=
      validateBSONIterative_stops lengths start sane_start .top
    exact ⟨fuel, status, by rw [validateBSON, if_neg short, result]⟩

/-! ### Documents are accepted -/

/-- The length fields that the next round reads, apart from those of frames, are in order. -/
def LengthsGood (b : Memory) (c : Control) : Prop :=
  match c.state with
  | .beginObj => ElementLengths b (c.position + 4)
  | .withinObj => ElementLengths b c.position
  | .beginCodeWScope => AtLeast b 1 (c.position + 4)
  | _ => True

/-- The machine goes on to accept, and reads only lengths that are in order. -/
inductive Accepted (b : Memory) : Control → List Frame → Prop where
  | done {c : Control} {frames : List Frame} : c.state = .done → Accepted b c frames
  | step {c c' : Control} {frames frames' : List Frame} : c.state ≠ .done → LengthsGood b c →
      step b c frames = .ok (c', frames') → Accepted b c' frames' → Accepted b c frames

theorem Accepted.validate (accepted : Accepted b c frames) :
    ∃ fuel, validateBSONIterative b fuel (c, frames) = some (.ok ()) := by
  induction accepted with
  | done state => exact ⟨1, by simp [validateBSONIterative, state]⟩
  | step running _ made _ ih =>
    obtain ⟨fuel, result⟩ := ih
    exact ⟨fuel + 1, by simp [validateBSONIterative, running, made, result]⟩

theorem Accepted.good (accepted : Accepted b c frames) : LengthsGood b c := by
  cases accepted with
  | done state => simp [LengthsGood, state]
  | step _ good _ _ => exact good

/-- The first element of an object is read in the round that opens the object. -/
theorem Accepted.begin (length : Consumes b p (halfBytes size) q)
    (accepted : Accepted b ⟨q, .withinObj⟩ (.at p false size :: frames)) :
    Accepted b ⟨p, .beginObj⟩ frames := by
  have stop : q = p + 4 := length.stop
  have inside := length.inside
  have read := (readInt_eq_ok "bson size is larger than buffer size" (by omega)).mpr length
  cases accepted with
  | done state => cases state
  | step _ good made rest =>
    subst stop
    refine .step State.noConfusion good ?_ rest
    rw [← made]
    simp only [Validation.step, read]
    rfl

/-- A frame that stores its length passes its check, while positions are small. -/
theorem actualLength_at (isCodeWithScope : Bool) (stop : q = p + n) (small : q < 2 ^ 31) :
    (Frame.at p isCodeWithScope (BitVec.ofNat 32 n)).actualLength q = BitVec.ofNat 32 n := by
  have start : p % 2 ^ 31 = p := Nat.mod_eq_of_lt (by omega)
  simp only [Frame.at, Frame.actualLength, start]
  rw [← Int.ofNat_sub (by omega), BitVec.ofInt_natCast]
  congr 1
  omega

/-- What a string of the grammar means for the machine in front of it. -/
def Accepting (b : Memory) : Nonterminal → List UInt8 → Prop
  | .document, d => ∀ p q frames, Consumes b p d q →
      Accepted b ⟨q, .afterObj frames⟩ frames → Accepted b ⟨p, .beginObj⟩ frames
  | .elements, es => ∀ p q frames, Consumes b p es q → q < b.maxLength →
      State.afterObj frames = .withinObj →
      Accepted b ⟨q, .withinObj⟩ frames → Accepted b ⟨p, .withinObj⟩ frames
  | .value type, v => ∀ p₀ name p q frames, 0 ∉ name →
      Consumes b p₀ (elementHeader type name) p → Consumes b p v q → q < b.maxLength →
      State.afterObj frames = .withinObj →
      Accepted b ⟨q, .withinObj⟩ frames → Accepted b ⟨p₀, .withinObj⟩ frames

/-- An element whose value is read in the same round, or starts a frame of its own. -/
theorem Accepted.element {name : List UInt8} (clean : 0 ∉ name)
    (header : Consumes b p (elementHeader type name) q) (value : validateValue b q type = .ok c)
    (good : ValueLengths b q type) (accepted : Accepted b c frames) :
    Accepted b ⟨p, .withinObj⟩ frames := by
  obtain ⟨read, lengths⟩ := validateElementInfo_element clean header
  refine .step State.noConfusion (lengths good) ?_ accepted
  simp only [Validation.step, read, value]
  rfl

theorem accepting_document (small : b.maxLength < 2 ^ 31) {body : List UInt8}
    (elements : Accepting b .elements body) :
    Accepting b .document (int32 (body.length + 5) ++ (body ++ [0])) := by
  intro p q frames consumes accepted
  obtain ⟨length, rest⟩ := consumes.split
  obtain ⟨inner, last⟩ := rest.split
  have stop := last.stop
  have inside := last.inside
  rw [length_int32, List.length_singleton] at stop
  obtain ⟨read, good⟩ := validateElementInfo_end last
  have counted := actualLength_at false (show q = p + (body.length + 5) by omega) (by omega)
  have closed : Accepted b ⟨q, .endObj⟩
      (.at p false (BitVec.ofNat 32 (body.length + 5)) :: frames) := by
    refine .step State.noConfusion trivial ?_ accepted
    simp only [Validation.step, counted]
    exact if_pos rfl
  have ended : Accepted b ⟨p + (int32 (body.length + 5)).length + body.length, .withinObj⟩
      (.at p false (BitVec.ofNat 32 (body.length + 5)) :: frames) := by
    refine .step State.noConfusion good ?_ closed
    simp only [Validation.step, read]
    rfl
  exact .begin length (elements _ _ _ inner (by rw [length_int32]; omega) rfl ended)

theorem accepting_codeWScope (small : b.maxLength < 2 ^ 31) {code scope : List UInt8}
    (string : IsString code) (document : Accepting b .document scope) :
    Accepting b (.value .codeWScope) (int32 (4 + (code ++ scope).length) ++ (code ++ scope)) := by
  intro p₀ name p q frames clean header consumes within framed accepted
  obtain ⟨length, rest⟩ := consumes.split
  obtain ⟨inner, last⟩ := rest.split
  have stop := consumes.stop
  have inside := length.inside
  rw [List.length_append, length_int32] at stop
  rw [length_int32] at inside inner last
  refine .element clean header rfl trivial ?_
  obtain ⟨read, good⟩ := (readUTF8String_eq_ok (by omega)).mpr ⟨code, string, inner⟩
  have size := (readInt_eq_ok "invalid bson CodeWScope size" (by omega)).mpr length
  rw [length_int32] at size
  have counted := actualLength_at true stop (by omega)
  have nested : frames ≠ [] := by
    rintro rfl
    cases framed
  have closed : Accepted b ⟨q, .endCodeWScope⟩
      (.at p true (BitVec.ofNat 32 (4 + (code ++ scope).length)) :: frames) := by
    refine .step State.noConfusion trivial ?_ accepted
    simp only [Validation.step, counted, nested, if_false]
    exact if_pos rfl
  refine .step State.noConfusion good ?_ (document _ _
    (.at p true (BitVec.ofNat 32 (4 + (code ++ scope).length)) :: frames) last closed)
  simp only [Validation.step, size, read, bind, Except.bind, pure, Except.pure]

theorem Derives.accepting (small : b.maxLength < 2 ^ 31) {n : Nonterminal} {x : List UInt8}
    (derives : Derives n x) : Accepting b n x := by
  induction derives with
  | document _ _ elements => exact accepting_document small elements
  | none =>
    intro p q frames consumes _ _ accepted
    have stop : q = p := consumes.stop
    exact stop ▸ accepted
  | element _ clean _ before value =>
    intro p q frames consumes within framed accepted
    obtain ⟨earlier, element⟩ := consumes.split
    obtain ⟨header, rest⟩ := element.split
    have stop := rest.stop
    have stop' := header.stop
    exact before _ _ _ earlier (by omega) framed
      (value _ _ _ _ _ clean header rest within framed accepted)
  | scalar scalar =>
    intro p₀ name p q frames clean header consumes within _ accepted
    obtain ⟨read, good⟩ := validateValue_scalar small scalar consumes within
    exact .element clean header read good accepted
  | object _ document | array _ document =>
    intro p₀ name p q frames clean header consumes _ framed accepted
    refine .element clean header rfl trivial (document _ _ _ consumes ?_)
    rwa [framed]
  | codeWScope string _ _ document => exact accepting_codeWScope small string document

/-! ### What is accepted is a document -/

/-- The elements of the open object `f` go up to `p`. -/
structure Holds (b : Memory) (f : Frame) (p : Nat) : Prop where
  object : f.isCodeWithScope = false
  elements : ∃ body, Derives .elements body ∧
    Consumes b f.startPosition (halfBytes f.expectedSize ++ body) p

/-- The frames are open in each other, and in the innermost one something of the given kind
starts at the position. -/
def Encloses (b : Memory) : Part → List Frame → Nat → Prop
  | .document, [], p => p = 0
  | _, [], _ => False
  | .element, f :: outer, p => Encloses b .document outer f.startPosition ∧ Holds b f p
  | .codeWScope, f :: outer, q => Encloses b .document outer f.startPosition ∧
      ∃ p name, Holds b f p ∧ 0 ∉ name ∧ Consumes b p (elementHeader .codeWScope name) q
  | .document, f :: outer, q =>
    (Encloses b .document outer f.startPosition ∧ ∃ p type name, Holds b f p ∧ 0 ∉ name ∧
      (type = .object ∨ type = .array) ∧ Consumes b p (elementHeader type name) q) ∨
    (Encloses b .codeWScope outer f.startPosition ∧ f.isCodeWithScope = true ∧
      ∃ code, IsString code ∧ Consumes b f.startPosition (halfBytes f.expectedSize ++ code) q)

theorem Holds.append {name value : List UInt8} {r : Nat} (holds : Holds b f p) (clean : 0 ∉ name)
    (header : Consumes b p (elementHeader type name) q) (derives : Derives (.value type) value)
    (consumes : Consumes b q value r) : Holds b f r := by
  obtain ⟨body, elements, before⟩ := holds.elements
  refine ⟨holds.object, _, .element elements clean derives, ?_⟩
  rw [← List.append_assoc]
  exact before.append (header.append consumes)

section

variable (small : b.maxLength < 2 ^ 31)
include small

/-- The stored length is right, as the frame's check of it says. -/
theorem expectedSize_eq (consumes : Consumes b f.startPosition (halfBytes f.expectedSize ++ x) p)
    (checked : f.actualLength p = f.expectedSize) :
    halfBytes f.expectedSize = int32 (4 + x.length) ∧ 4 + x.length < 2 ^ 31 := by
  have stop := consumes.stop
  have inside := consumes.inside
  have four : (halfBytes f.expectedSize).length = 4 := length_leBytes _ _
  rw [List.length_append, four] at stop
  refine ⟨?_, by omega⟩
  rw [int32, ← checked, Frame.actualLength, stop]
  congr 1
  rw [← BitVec.ofInt_natCast]
  congr 1
  omega

/-- A document is closed whose length was right. -/
theorem Holds.closed (holds : Holds b f p) (last : Consumes b p [0] q)
    (checked : f.actualLength q = f.expectedSize) :
    ∃ d, Derives .document d ∧ Consumes b f.startPosition d q := by
  obtain ⟨body, elements, consumes⟩ := holds.elements
  have all := consumes.append last
  rw [List.append_assoc] at all
  obtain ⟨length, short⟩ := expectedSize_eq small all checked
  rw [List.length_append, List.length_singleton] at length short
  rw [length, show 4 + (body.length + 1) = body.length + 5 by omega] at all
  exact ⟨_, .document elements (by omega), all⟩

theorem Begins.encloses {part : Part} (begins : Begins b frames part p) :
    Encloses b part frames p := by
  have start : ∀ isCode size {p}, p ≤ b.maxLength →
      (Frame.at p isCode size).startPosition = p :=
    fun _ _ _ inside => Nat.mod_eq_of_lt (by omega)
  induction begins with
  | top => exact rfl
  | @first _ size _ _ before length ih =>
    have here := start false size before.inside
    refine ⟨here.symm ▸ ih, rfl, [], .none, ?_⟩
    rw [here, List.append_nil]
    exact length
  | @scalar frames _ _ _ _ _ _ _ clean header scalar value ih =>
    cases frames with
    | nil => cases ih
    | cons f outer => exact ⟨ih.1, ih.2.append clean header (.scalar scalar) value⟩
  | @document frames _ _ _ _ _ clean isObject header ih =>
    cases frames with
    | nil => cases ih
    | cons f outer => exact .inl ⟨ih.1, _, _, _, ih.2, clean, isObject, header⟩
  | @codeWScope frames _ _ _ _ clean header ih =>
    cases frames with
    | nil => cases ih
    | cons f outer => exact ⟨ih.1, _, _, ih.2, clean, header⟩
  | @scope _ size _ _ _ before string consumes ih =>
    have here := start true size before.inside
    refine .inr ⟨here.symm ▸ ih, rfl, _, string, ?_⟩
    rw [here]
    exact consumes
  | @closed f g outer p q _ last checked kind ih =>
    obtain ⟨outside, holds⟩ := ih
    obtain ⟨d, document, consumes⟩ := holds.closed small last checked
    rcases outside with ⟨outside', _, _, _, holds', clean, isObject, header⟩ | ⟨-, isScope, -⟩
    · refine ⟨outside', holds'.append clean header ?_ consumes⟩
      rcases isObject with rfl | rfl
      · exact .object document
      · exact .array document
    · simp [isScope] at kind
  | @closedScope f g h outer p q _ last checked kind checked' ih =>
    obtain ⟨outside, holds⟩ := ih
    obtain ⟨d, document, consumes⟩ := holds.closed small last checked
    rcases outside with ⟨-, _, _, _, holds', -⟩ | ⟨outside', -, _, string, before⟩
    · simp [holds'.object] at kind
    · have all := before.append consumes
      rw [List.append_assoc] at all
      obtain ⟨length, short⟩ := expectedSize_eq small all checked'
      rw [length] at all
      obtain ⟨outer', _, _, holds', clean, header⟩ := outside'
      exact ⟨outer', holds'.append clean header (.codeWScope string document short) all⟩

end

/-! ### The result -/

theorem follows_done (lengths : LengthsInOrder b) {fuel : Nat} {m : Control × List Frame}
    (sane : Sane b m.1 m.2) (follows : Follows b m.1 m.2)
    (accepted : validateBSONIterative b fuel m = some (.ok ())) :
    ∃ position, Follows b ⟨position, .done⟩ [] := by
  induction fuel generalizing m with
  | zero => cases accepted
  | succ fuel ih =>
    obtain ⟨⟨position, state⟩, frames⟩ := m
    rw [validateBSONIterative] at accepted
    split_ifs at accepted with done
    · simp only at done
      subst done
      exact ⟨position, follows⟩
    · cases made : step b ⟨position, state⟩ frames with
      | error failure => simp [made] at accepted
      | ok m' =>
        have safe := step_safe sane
        rw [made] at safe accepted
        exact ih safe (follows_step lengths sane.placed.1 done follows made).1 accepted

theorem startsWithDocument_of_accepts (small : b.maxLength < 2 ^ 31) (lengths : LengthsInOrder b)
    (accepts : Accepts b) : StartsWithDocument b := by
  obtain ⟨fuel, accepted⟩ := accepts
  unfold validateBSON at accepted
  split_ifs at accepted with short
  · simp at accepted
  · obtain ⟨position, f, p, begins, last, checked⟩ :=
      follows_done lengths sane_start .top accepted
    obtain ⟨outside, holds⟩ := begins.encloses small
    obtain ⟨d, document, consumes⟩ := holds.closed small last checked
    rw [show f.startPosition = 0 from outside] at consumes
    have stop : position = d.length := consumes.stop.trans (Nat.zero_add _)
    exact ⟨d, document, startsWith_iff.mpr (stop ▸ consumes)⟩

theorem StartsWithDocument.accepted (small : b.maxLength < 2 ^ 31)
    (document : StartsWithDocument b) : 5 ≤ b.maxLength ∧ Accepted b ⟨0, .beginObj⟩ [] := by
  obtain ⟨d, derives, front⟩ := document
  have consumes := startsWith_iff.mp front
  refine ⟨?_, derives.accepting small _ _ [] consumes (.done rfl)⟩
  have inside := consumes.inside
  cases derives
  simp at inside
  omega

/-- For every buffer below 2 GiB: what starts with a document of the grammar is accepted, and
if the length fields that the bytes lead to are in order, nothing else is. -/
theorem validateBSON_grammar (b : Memory) (small : b.maxLength < 2 ^ 31) :
    (StartsWithDocument b → Accepts b) ∧
      (LengthsInOrder b → (Accepts b ↔ StartsWithDocument b)) := by
  have complete : StartsWithDocument b → Accepts b := by
    intro document
    obtain ⟨long, accepted⟩ := document.accepted small
    obtain ⟨fuel, result⟩ := accepted.validate
    exact ⟨fuel, by rw [validateBSON, if_neg (not_lt.mpr long), start, result]⟩
  exact ⟨complete, fun lengths => ⟨startsWithDocument_of_accepts small lengths, complete⟩⟩

/-- `{a: "x"}`, and behind it the element of `negativeLength`, to which nothing leads. -/
def shortString : Memory where
  bytes := [14, 0, 0, 0, 2, 97, 0, 2, 0, 0, 0, 120, 0, 0, 2, 0, 0xfa, 0xff, 0xff, 0xff]
  maxLength := 20
  backed := le_rfl
  addressable := by decide

theorem shortString_header {name : List UInt8} (place : p = 4 ∨ p = 13) (clean : 0 ∉ name)
    (header : Consumes shortString p (elementHeader type name) q) :
    p = 4 ∧ type = .string ∧ q = 7 := by
  have first : Consumes shortString 4 (elementHeader .string [97]) 7 := ⟨rfl, by decide, rfl⟩
  have last : Consumes shortString 13 [0] 14 := ⟨rfl, by decide, rfl⟩
  rcases place with rfl | rfl
  · exact ⟨rfl, elementHeader_unique (by decide) clean first header⟩
  · exact (not_elementHeader last header).elim

theorem shortString_begins {part : Part} (begins : Begins shortString frames part p) :
    match part with
    | .document => frames = [] ∧ p = 0
    | .element => frames.length = 1 ∧ (p = 4 ∨ p = 13)
    | .codeWScope => False := by
  induction begins with
  | top => exact ⟨rfl, rfl⟩
  | first _ length ih =>
    obtain ⟨rfl, rfl⟩ := ih
    exact ⟨rfl, .inl length.stop⟩
  | scalar _ clean header scalar value ih =>
    obtain ⟨single, place⟩ := ih
    obtain ⟨rfl, rfl, rfl⟩ := shortString_header place clean header
    have made : readUTF8String shortString 7 = .ok 13 := by decide +kernel
    cases scalar with
    | fixed width => cases width
    | string _ string =>
      have read := (readUTF8String_eq_ok (by decide)).mpr ⟨_, string, value⟩
      exact ⟨single, .inr (Except.ok.inj (read.1.symm.trans made))⟩
  | document _ clean isObject header ih =>
    obtain ⟨-, rfl, -⟩ := shortString_header ih.2 clean header
    simp at isObject
  | codeWScope _ clean header ih => cases (shortString_header ih.2 clean header).2.1
  | scope _ _ _ ih => exact ih.elim
  | closed _ _ _ _ ih | closedScope _ _ _ _ _ ih => simp at ih

theorem shortString_inOrder : LengthsInOrder shortString where
  element := by
    intro frames p begins type name q clean header
    obtain ⟨rfl, rfl, rfl⟩ := shortString_header (shortString_begins begins).2 clean header
    have length : Consumes shortString 7 (halfBytes 2) 11 := ⟨rfl, by decide, rfl⟩
    exact length.atLeast (by decide)
  code begins := (shortString_begins begins).elim

theorem validateBSON_terminates_shortString : Terminates shortString :=
  validateBSON_terminates shortString shortString_inOrder

theorem validateBSON_grammar_shortString :
    Accepts shortString ∧ StartsWithDocument shortString := by
  have accepts : Accepts shortString := ⟨4, by decide +kernel⟩
  exact ⟨accepts,
    ((validateBSON_grammar shortString (by decide)).2 shortString_inOrder).mp accepts⟩

/-- An object whose only element is a string with the length zero: not even the zero byte at
its end is there. -/
def emptyString : Memory where
  bytes := [12, 0, 0, 0, 2, 97, 0, 0, 0, 0, 0, 0]
  maxLength := 12
  backed := le_rfl
  addressable := by decide

/-- The byte in front of the string, the last of its length, passes for its end. -/
theorem emptyString_accepted : Accepts emptyString ∧ ¬ StartsWithDocument emptyString := by
  refine ⟨⟨4, by decide +kernel⟩, fun document => ?_⟩
  · have good : ElementLengths emptyString 4 := (document.accepted (by decide)).2.good
    have type : Consumes emptyString 4 [2] 5 := ⟨rfl, by decide, rfl⟩
    have name : Consumes emptyString 5 ([97] ++ [0]) 7 := ⟨rfl, by decide, rfl⟩
    have length : Consumes emptyString 7 (halfBytes 0) 11 := ⟨rfl, by decide, rfl⟩
    have positive : AtLeast emptyString 1 7 :=
      good .string [97] 7 (by decide) (type.append name)
    exact absurd (positive 0 11 length) (by decide)

end TokuMX.BSON.Validation
