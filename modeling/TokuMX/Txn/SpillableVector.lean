import Mathlib.Algebra.GroupWithZero.Nat
import TokuMX.BSON.Object
import TokuMX.Lib.Chunks
import TokuMX.Lib.Runs

/-!
`SpillableVector`: the operations a transaction logs for a chunk migration
(`db/spillable_vector.cpp`).

A vector that reaches `maxSize` writes its objects into documents numbered by a
counter that all vectors of a tree share. A document gets its number when it is
opened; each vector fills its own open document and writes it when the next object
does not fit or when the vector is finished. A vector that starts to spill makes its
ancestors spill first.

* `VectorInv` — the documents opened so far, written or still open, followed by what
  the vectors hold in memory, outermost first, are what was appended.
* `spilled_in_order` — if every call is careful (`Careful`), no call meets a builder
  that was never initialised or a document too large to be finished, and the iterator over
  the root's result yields what was appended, in order.
* `spilled_out_of_order` — two runs that are not: a vector that spills only because
  its child did has no builder to finish, and an object appended to a vector after
  its child has spilled goes into the vector's older document.

A document that is finished, by `done`, has to be a valid `BSONObj`; otherwise `done` throws
(10334), and the call has no result. Nothing that a call does afterwards depends on it, so the
documents written are checked at its end (`VectorState.validated`).

All vectors of a tree have the same `maxSize`, as those of `TxnContext` do. Aborted
children are not modelled. Sizes and sequence numbers do not wrap around.
-/

namespace TokuMX.Txn

open TokuMX.Lib

variable {Obj : Type}

/-- The fields of `class SpillableVector` that differ between the vectors of a tree.
`cur` is the open document, once `_curObjInited`. -/
structure SpillableVector (Obj : Type) where
  vec : List Obj
  curSize : Nat
  cur : Option (Chunk Obj)
deriving DecidableEq

/-- The vectors of a tree that are alive, innermost first, their shared counter and
the documents written. -/
structure VectorState (Obj : Type) where
  vectors : List (SpillableVector Obj)
  seqNo : Nat
  written : List (Chunk Obj)
deriving DecidableEq

/-- `_curObjBuilder->len()` of a document just opened: the object's size, its
`_id: {oid, seq}` and the start of the array `a`. -/
def docHeader : Nat := 4 + (1 + 4 + (4 + (1 + 4 + 12) + (1 + 4 + 8) + 1)) + (1 + 2) + 4

section

variable (objsize : Obj → Nat) (maxSize : Nat)

/-- The elements of an array of objects: each costs a type byte, its index in decimal and a
terminator besides the object. -/
def elementsLen (items : List Obj) : Nat :=
  (items.zipIdx.map fun (o, i) => 1 + (Nat.toDigits 10 i).length + 1 + objsize o).sum

/-- `_curObjBuilder->len()` of an open document. -/
def docLen (items : List Obj) : Nat := docHeader + elementsLen objsize items

/-- `BSONObj::isValid` of a document that is finished: its array and the document itself get
their terminators. -/
def ValidDoc (items : List Obj) : Prop := docLen objsize items + 2 ≤ BSON.BSONObjMaxInternalSize

/-- `BSONObj::isValid` of the document `{a: [...]}`. -/
def ValidArray (items : List Obj) : Prop :=
  4 + (1 + 2 + (4 + elementsLen objsize items + 1)) + 1 ≤ BSON.BSONObjMaxInternalSize

instance (items : List Obj) : Decidable (ValidDoc objsize items) :=
  inferInstanceAs (Decidable (_ ≤ _))

instance (items : List Obj) : Decidable (ValidArray objsize items) :=
  inferInstanceAs (Decidable (_ ≤ _))

namespace SpillableVector

/-- A vector just created. -/
def new : SpillableVector Obj := ⟨[], 0, none⟩

/-- `SpillableVector::spilling`. -/
def spilling (v : SpillableVector Obj) : Bool := maxSize ≤ v.curSize

end SpillableVector

/-- `SpillableVector::spillCurObj` on an open document: an empty one is not written. The check
of `done` is `VectorState.validated`. -/
def spillCurObj (written : List (Chunk Obj)) (cur : Chunk Obj) : List (Chunk Obj) :=
  if cur.items = [] then written else written ++ [cur]

/-- `SpillableVector::spillOneObject`. -/
def spillOneObject (v : SpillableVector Obj) (seqNo : Nat) (written : List (Chunk Obj)) (o : Obj) :
    SpillableVector Obj × Nat × List (Chunk Obj) :=
  let (cur, seqNo) :=
    match v.cur with
    | some cur => (cur, seqNo)
    | none => (⟨seqNo, []⟩, seqNo + 1)
  if maxSize ≤ docLen objsize cur.items + objsize o then
    ({ v with cur := some ⟨seqNo, [o]⟩ }, seqNo + 1, spillCurObj written cur)
  else
    ({ v with cur := some ⟨cur.seq, cur.items ++ [o]⟩ }, seqNo, written)

/-- The loop of `spillAllObjects` over one vector. -/
def spillObjects (v : SpillableVector Obj) (seqNo : Nat) (written : List (Chunk Obj)) :
    List Obj → SpillableVector Obj × Nat × List (Chunk Obj)
  | [] => (v, seqNo, written)
  | o :: os =>
    let (v, seqNo, written) := spillOneObject objsize maxSize v seqNo written o
    spillObjects v seqNo written os

/-- `SpillableVector::spillAllObjects` of the first vector: its ancestors first. -/
def spillAllObjects (seqNo : Nat) (written : List (Chunk Obj)) :
    List (SpillableVector Obj) → VectorState Obj
  | [] => ⟨[], seqNo, written⟩
  | v :: ancestors =>
    let above := spillAllObjects seqNo written ancestors
    let (v', seqNo, written) :=
      spillObjects objsize maxSize { v with vec := [] } above.seqNo above.written v.vec
    ⟨v' :: above.vectors, seqNo, written⟩

/-- `SpillableVector::finish`; `none` is the use of a builder that was never
initialised. -/
def finish (v : SpillableVector Obj) (written : List (Chunk Obj)) : Option (List (Chunk Obj)) :=
  if v.spilling maxSize then v.cur.map (spillCurObj written) else some written

namespace VectorState

/-- No document that has been finished is too large. -/
def Valid (s : VectorState Obj) : Prop := ∀ doc ∈ s.written, ValidDoc objsize doc.items

instance (s : VectorState Obj) : Decidable (s.Valid objsize) :=
  inferInstanceAs (Decidable (∀ doc ∈ s.written, _))

/-- The end of a call, which has thrown if a document it finished is too large. -/
def validated (s : VectorState Obj) : Option (VectorState Obj) := do
  check (s.Valid objsize)
  return s

/-- A root vector just created. -/
def start : VectorState Obj := ⟨[.new], 0, []⟩

/-- A child vector is created. -/
def begin (s : VectorState Obj) : VectorState Obj := { s with vectors := .new :: s.vectors }

/-- `SpillableVector::append` to the innermost vector. -/
def append (s : VectorState Obj) (o : Obj) : Option (VectorState Obj) :=
  match s.vectors with
  | [] => none
  | v :: ancestors =>
    let v' := { v with curSize := v.curSize + objsize o }
    let s' :=
      if !v.spilling maxSize && v'.spilling maxSize then
        spillAllObjects objsize maxSize s.seqNo s.written (v' :: ancestors)
      else ⟨v' :: ancestors, s.seqNo, s.written⟩
    match s'.vectors with
    | [] => none
    | v :: ancestors =>
      if v.spilling maxSize then
        let (v, seqNo, written) := spillOneObject objsize maxSize v s'.seqNo s'.written o
        some ⟨v :: ancestors, seqNo, written⟩
      else some ⟨{ v with vec := v.vec ++ [o] } :: ancestors, s'.seqNo, s'.written⟩

/-- `SpillableVector::transfer` of the innermost vector, which then is gone. -/
def transfer (s : VectorState Obj) : Option (VectorState Obj) :=
  match s.vectors with
  | v :: parent :: ancestors => do
    let written ← finish maxSize v s.written
    let parent := { parent with
      vec := if v.spilling maxSize then parent.vec else parent.vec ++ v.vec
      curSize := parent.curSize + v.curSize }
    if parent.spilling maxSize then
      return spillAllObjects objsize maxSize s.seqNo written (parent :: ancestors)
    else
      return ⟨parent :: ancestors, s.seqNo, written⟩
  | _ => none

end VectorState

end

/-- What `getObjectsOrRef` puts into the document: the objects as `a`, or the OID they
are filed under. -/
inductive ObjectsOrRef (Obj : Type) where
  | a (objects : List Obj)
  | refOID
deriving DecidableEq

/-- `SpillableVector::getObjectsOrRef` of the root into an empty builder, which is then
finished, and the documents after it. -/
def VectorState.getObjectsOrRef (objsize : Obj → Nat) (maxSize : Nat) (s : VectorState Obj) :
    Option (ObjectsOrRef Obj × List (Chunk Obj)) :=
  match s.vectors with
  | [v] => do
    let s ← { s with written := ← finish maxSize v s.written }.validated objsize
    if v.spilling maxSize then return (.refOID, s.written)
    else
      check (ValidArray objsize v.vec)
      return (.a v.vec, s.written)
  | _ => none

/-- What `SpillableVectorIterator` yields; `none` is a failed check of the numbers. -/
def ObjectsOrRef.iterate (written : List (Chunk Obj)) : ObjectsOrRef Obj → Option (List Obj)
  | .a objects => some objects
  | .refOID => readChunks written

theorem VectorState.validated_of {objsize : Obj → Nat} {s : VectorState Obj}
    (valid : s.Valid objsize) : s.validated objsize = some s := by
  simp [validated, check, valid]

/-! ### Documents -/

section Documents

variable {objsize : Obj → Nat} {maxSize seqNo : Nat} {pieces : List (List Obj)}
  {written others stored : List (Chunk Obj)} {v : SpillableVector Obj}

/-- The documents opened so far are `pieces`, numbered from zero; `stored` lists them,
written or still open. None is empty. -/
structure Filed (pieces : List (List Obj)) (seqNo : Nat) (stored : List (Chunk Obj)) : Prop where
  next : seqNo = pieces.length
  nonempty : ∀ piece ∈ pieces, piece ≠ []
  perm : stored.Perm (number 0 pieces)

/-- It does not matter in which order the documents are listed. -/
theorem Filed.of_count {stored' : List (Chunk Obj)} (filed : Filed pieces seqNo stored)
    (same : ∀ [DecidableEq (Chunk Obj)] c, stored'.count c = stored.count c) :
    Filed pieces seqNo stored' := by
  classical
  exact ⟨filed.next, filed.nonempty, (List.perm_iff_count.mpr fun c => same c).trans filed.perm⟩

/-- `o` goes to the end of what has been opened: into a new document, or into the last
one opened. -/
def InOrder (objsize : Obj → Nat) (maxSize : Nat) (v : SpillableVector Obj) (seqNo : Nat)
    (o : Obj) : Prop :=
  ∀ cur, v.cur = some cur → docLen objsize cur.items + objsize o < maxSize → cur.seq + 1 = seqNo

instance (o : Obj) : Decidable (InOrder objsize maxSize v seqNo o) :=
  inferInstanceAs (Decidable (∀ cur ∈ v.cur, _ → _))

/-- The open document of `v` is the last one opened. -/
def Latest (v : SpillableVector Obj) (seqNo : Nat) : Prop :=
  ∃ cur, v.cur = some cur ∧ cur.seq + 1 = seqNo

theorem Latest.inOrder (latest : Latest v seqNo) (o : Obj) : InOrder objsize maxSize v seqNo o := by
  intro cur open' _
  obtain ⟨cur', open'', last⟩ := latest
  obtain rfl := Option.some.inj (open'.symm.trans open'')
  exact last

/-- Opening a document for `o`. -/
theorem Filed.opened (filed : Filed pieces seqNo stored) (o : Obj) :
    Filed (pieces ++ [[o]]) (seqNo + 1) (stored ++ [⟨seqNo, [o]⟩]) := by
  refine ⟨by simp [filed.next], ?_, ?_⟩
  · exact List.forall_mem_append.mpr ⟨filed.nonempty, by simp⟩
  · rw [filed.next]
    exact perm_open [o] filed.perm

/-- Putting `o` into the last document opened. -/
theorem Filed.extended {cur : Chunk Obj} (filed : Filed pieces seqNo (stored ++ [cur]))
    (last : cur.seq + 1 = seqNo) (o : Obj) :
    ∃ pieces', Filed pieces' seqNo (stored ++ [⟨cur.seq, cur.items ++ [o]⟩]) ∧
      pieces'.flatten = pieces.flatten ++ [o] := by
  obtain ⟨init, rfl, perm⟩ := perm_extendLast [o] (last.trans filed.next) filed.perm
  refine ⟨init ++ [cur.items ++ [o]], ⟨by simp [filed.next], ?_, perm⟩, by simp⟩
  exact List.forall_mem_append.mpr ⟨(List.forall_mem_append.mp filed.nonempty).1, by simp⟩

/-- What `spillOneObject` does to the documents: `o` is appended at their end, and the
vector's open document is the last one. -/
theorem spillOneObject_filed {o : Obj} (fits : docHeader + objsize o < maxSize)
    (filed : Filed pieces seqNo (others ++ written ++ v.cur.toList))
    (inOrder : InOrder objsize maxSize v seqNo o) :
    ∃ cur seqNo' written' pieces', spillOneObject objsize maxSize v seqNo written o =
        ({ v with cur := some cur }, seqNo', written') ∧
      cur.seq + 1 = seqNo' ∧ Filed pieces' seqNo' (others ++ written' ++ [cur]) ∧
      pieces'.flatten = pieces.flatten ++ [o] := by
  cases open' : v.cur with
  | none =>
    have room : ¬ maxSize ≤ docLen objsize [] + objsize o := by
      simpa [docLen, elementsLen] using fits
    rw [open', Option.toList_none, List.append_nil] at filed
    refine ⟨⟨seqNo, [o]⟩, seqNo + 1, written, pieces ++ [[o]], ?_, rfl, filed.opened o, by simp⟩
    simp [spillOneObject, open', room]
  | some cur =>
    rw [open', Option.toList_some] at filed
    by_cases full : maxSize ≤ docLen objsize cur.items + objsize o
    · have nonempty : cur.items ≠ [] :=
        filed.nonempty _ (mem_number (filed.perm.mem_iff.mp (by simp))).2.2
      refine ⟨⟨seqNo, [o]⟩, seqNo + 1, written ++ [cur], pieces ++ [[o]], ?_, rfl, ?_, by simp⟩
      · simp [spillOneObject, open', full, spillCurObj, nonempty]
      · simpa using filed.opened o
    · have last := inOrder cur open' (not_le.mp full)
      obtain ⟨pieces', filed', content⟩ := filed.extended last o
      refine ⟨⟨cur.seq, cur.items ++ [o]⟩, seqNo, written, pieces', ?_, last, filed', content⟩
      simp [spillOneObject, open', full]

theorem spillObjects_filed {os : List Obj} (fits : ∀ o ∈ os, docHeader + objsize o < maxSize)
    (filed : Filed pieces seqNo (others ++ written ++ v.cur.toList))
    (inOrder : ∀ o ∈ os.head?, InOrder objsize maxSize v seqNo o) :
    ∃ cur seqNo' written' pieces',
      spillObjects objsize maxSize v seqNo written os = ({ v with cur }, seqNo', written') ∧
      (os = [] ∧ cur = v.cur ∧ seqNo' = seqNo ∨ Latest { v with cur } seqNo') ∧
      Filed pieces' seqNo' (others ++ written' ++ cur.toList) ∧
      pieces'.flatten = pieces.flatten ++ os := by
  induction os generalizing v seqNo written pieces with
  | nil => exact ⟨v.cur, seqNo, written, pieces, rfl, .inl ⟨rfl, rfl, rfl⟩, filed, by simp⟩
  | cons o os ih =>
    obtain ⟨cur, seqNo₁, written₁, pieces₁, spilled, last, filed₁, content₁⟩ :=
      spillOneObject_filed (fits o List.mem_cons_self) filed (inOrder o rfl)
    have latest : Latest { v with cur := some cur } seqNo₁ := ⟨cur, rfl, last⟩
    obtain ⟨cur₂, seqNo₂, written₂, pieces₂, rest, status, filed₂, content₂⟩ :=
      ih (v := { v with cur := some cur }) (fun o' mem => fits o' (List.mem_cons_of_mem _ mem))
        filed₁ (fun o' _ => latest.inOrder o')
    refine ⟨cur₂, seqNo₂, written₂, pieces₂, ?_, .inr ?_, filed₂, by simp [content₂, content₁]⟩
    · simp [spillObjects, spilled, rest]
    · rcases status with ⟨-, rfl, rfl⟩ | latest₂
      · exact latest
      · exact latest₂

end Documents

/-! ### Stacks of vectors -/

open VectorState

section Stacks

variable {objsize : Obj → Nat} {maxSize seqNo : Nat} {pieces : List (List Obj)}
  {written : List (Chunk Obj)} {vs ancestors : List (SpillableVector Obj)}
  {v parent : SpillableVector Obj}

/-- The open documents. -/
def openDocs (vs : List (SpillableVector Obj)) : List (Chunk Obj) := vs.filterMap (·.cur)

/-- What the vectors hold in memory, outermost first. -/
def memory : List (SpillableVector Obj) → List Obj
  | [] => []
  | v :: ancestors => memory ancestors ++ v.vec

theorem openDocs_cons : openDocs (v :: vs) = v.cur.toList ++ openDocs vs := by
  cases open' : v.cur <;> simp [openDocs, open']

theorem memory_eq_nil (empty : ∀ v ∈ vs, v.vec = []) : memory vs = [] := by
  induction vs with
  | nil => rfl
  | cons v vs ih =>
    rw [memory, ih fun w mem => empty w (List.mem_cons_of_mem _ mem), empty v List.mem_cons_self]
    rfl

theorem spillAllObjects_of_empty (empty : ∀ v ∈ vs, v.vec = []) :
    spillAllObjects objsize maxSize seqNo written vs = ⟨vs, seqNo, written⟩ := by
  induction vs with
  | nil => rfl
  | cons v vs ih =>
    have none : v.vec = [] := empty v List.mem_cons_self
    have above := ih fun w mem => empty w (List.mem_cons_of_mem _ mem)
    have same : { v with vec := [] } = v := by rw [← none]
    simp [spillAllObjects, above, none, spillObjects, same]

/-- A stack that can be spilled in order: a vector with something in memory has no
open document, or its ancestors have nothing in memory and its first object goes to
the end. -/
def Ready (objsize : Obj → Nat) (maxSize seqNo : Nat) : List (SpillableVector Obj) → Prop
  | [] => True
  | v :: ancestors =>
    (v.vec = [] ∨ v.cur = none ∨ (∀ w ∈ ancestors, w.vec = []) ∧
        ∀ o ∈ v.vec.head?, InOrder objsize maxSize v seqNo o) ∧
      Ready objsize maxSize seqNo ancestors

theorem Ready.of_unopened (unopened : ∀ v ∈ vs, v.vec = [] ∨ v.cur = none) :
    Ready objsize maxSize seqNo vs := by
  induction vs with
  | nil => trivial
  | cons v vs ih =>
    refine ⟨?_, ih fun w mem => unopened w (List.mem_cons_of_mem _ mem)⟩
    rcases unopened v List.mem_cons_self with none | none
    · exact .inl none
    · exact .inr (.inl none)

open SpillableVector

/-- Spilling a stack files what it holds in memory, outermost first. -/
theorem spillAllObjects_filed {others : List (Chunk Obj)}
    (fits : ∀ v ∈ vs, ∀ o ∈ v.vec, docHeader + objsize o < maxSize)
    (filed : Filed pieces seqNo (others ++ written ++ openDocs vs))
    (ready : Ready objsize maxSize seqNo vs) :
    ∃ s pieces', spillAllObjects objsize maxSize seqNo written vs = s ∧
      Filed pieces' s.seqNo (others ++ s.written ++ openDocs s.vectors) ∧
      pieces'.flatten = pieces.flatten ++ memory vs ∧
      s.vectors.map curSize = vs.map curSize ∧
      (∀ v ∈ s.vectors, v.vec = []) ∧
      ∀ w ∈ s.vectors.head?, Latest w s.seqNo ∨ ∃ v ∈ vs.head?, w.cur = v.cur := by
  induction vs generalizing others with
  | nil =>
    exact ⟨_, pieces, rfl, filed, by simp [memory], rfl, by simp [spillAllObjects],
      by simp [spillAllObjects]⟩
  | cons v vs ih =>
    rw [openDocs_cons] at filed
    have moved : Filed pieces seqNo (others ++ v.cur.toList ++ written ++ openDocs vs) := by
      refine filed.of_count fun c => ?_
      simp only [List.count_append]
      omega
    obtain ⟨s, pieces₁, above, filed₁, content₁, sizes, empty, -⟩ :=
      ih (fun w mem => fits w (List.mem_cons_of_mem _ mem)) moved ready.2
    have moved₁ : Filed pieces₁ s.seqNo
        (others ++ openDocs s.vectors ++ s.written ++ v.cur.toList) := by
      refine filed₁.of_count fun c => ?_
      simp only [List.count_append]
      omega
    have inOrder : ∀ o ∈ v.vec.head?, InOrder objsize maxSize { v with vec := [] } s.seqNo o := by
      intro o first cur open'
      rcases ready.1 with none | none | ⟨aboveEmpty, inOrder⟩
      · simp [none] at first
      · simp [none] at open'
      · have same := above.symm.trans (spillAllObjects_of_empty aboveEmpty)
        rw [same]
        exact inOrder o first cur open'
    obtain ⟨cur, seqNo₂, written₂, pieces₂, spilled, status, filed₂, content₂⟩ :=
      spillObjects_filed (v := { v with vec := [] }) (fits v List.mem_cons_self) moved₁ inOrder
    refine ⟨⟨{ v with vec := [], cur } :: s.vectors, seqNo₂, written₂⟩, pieces₂,
      ?_, ?_, ?_, ?_, ?_, ?_⟩
    · simp [spillAllObjects, above, spilled]
    · rw [openDocs_cons]
      refine filed₂.of_count fun c => ?_
      simp only [List.count_append]
      omega
    · simp [content₂, content₁, memory]
    · simp [sizes]
    · exact List.forall_mem_cons.mpr ⟨rfl, empty⟩
    · intro w mem
      obtain rfl := Option.some.inj mem
      rcases status with ⟨-, same, -⟩ | latest
      · exact .inr ⟨v, rfl, same⟩
      · exact .inl latest

theorem head_of_sizes {spilt : List (SpillableVector Obj)}
    (sizes : spilt.map curSize = (v :: vs).map curSize) :
    ∃ w rest, spilt = w :: rest ∧ w.curSize = v.curSize := by
  obtain ⟨w, rest, rfl, same, -⟩ := List.map_eq_cons_iff.mp sizes
  exact ⟨w, rest, rfl, same⟩

/-- A vector that spills has nothing in memory, and neither have its ancestors. -/
def Flushed (maxSize : Nat) : List (SpillableVector Obj) → Prop
  | [] => True
  | v :: ancestors =>
    (v.spilling maxSize → ∀ w ∈ v :: ancestors, w.vec = []) ∧ Flushed maxSize ancestors

/-- A vector with an open document spills, or something inside it does: `inner` says
that something does. -/
def Opened (maxSize : Nat) (inner : Prop) : List (SpillableVector Obj) → Prop
  | [] => True
  | v :: ancestors =>
    (v.cur.isSome → inner ∨ v.spilling maxSize) ∧
      Opened maxSize (inner ∨ v.spilling maxSize) ancestors

theorem Flushed.of_empty (empty : ∀ v ∈ vs, v.vec = []) : Flushed maxSize vs := by
  induction vs with
  | nil => trivial
  | cons v vs ih =>
    exact ⟨fun _ => empty, ih fun w mem => empty w (List.mem_cons_of_mem _ mem)⟩

theorem Opened.mono {inner inner' : Prop} (weaker : inner → inner')
    (opened : Opened maxSize inner vs) : Opened maxSize inner' vs := by
  induction vs generalizing inner inner' with
  | nil => trivial
  | cons v vs ih =>
    exact ⟨fun open' => (opened.1 open').imp_left weaker, ih (Or.imp_left weaker) opened.2⟩

theorem Opened.of_inner {inner : Prop} (h : inner) : Opened maxSize inner vs := by
  induction vs generalizing inner with
  | nil => trivial
  | cons v vs ih => exact ⟨fun _ => .inl h, ih (.inl h)⟩

/-- What the vectors of a tree look like between calls, against what was appended. -/
structure VectorInv (objsize : Obj → Nat) (maxSize : Nat) (s : VectorState Obj)
    (pieces : List (List Obj)) (appended : List Obj) : Prop where
  alive : s.vectors ≠ []
  filed : Filed pieces s.seqNo (s.written ++ openDocs s.vectors)
  order : pieces.flatten ++ memory s.vectors = appended
  flushed : Flushed maxSize s.vectors
  inMemory : ∀ v ∈ s.vectors, v.vec = [] ∨ v.cur = none
  opened : Opened maxSize False s.vectors
  started : pieces ≠ [] → ∃ v ∈ s.vectors, v.spilling maxSize
  fits : ∀ v ∈ s.vectors, ∀ o ∈ v.vec, docHeader + objsize o < maxSize

/-- A call comes to a state in which everything is in order. -/
def Succeeds (objsize : Obj → Nat) (maxSize : Nat) (result : Option (VectorState Obj))
    (appended : List Obj) : Prop :=
  ∃ s pieces, result = some s ∧ VectorInv objsize maxSize s pieces appended

variable {appended : List Obj} {s : VectorState Obj}

/-- Once the innermost vector spills, everything is in documents. -/
theorem VectorInv.of_spilling (vectors : s.vectors = v :: ancestors)
    (spilling : v.spilling maxSize) (empty : ∀ w ∈ s.vectors, w.vec = [])
    (filed : Filed pieces s.seqNo (s.written ++ openDocs s.vectors))
    (content : pieces.flatten = appended) : VectorInv objsize maxSize s pieces appended where
  alive := by simp [vectors]
  filed := filed
  order := by rw [memory_eq_nil empty, List.append_nil, content]
  flushed := Flushed.of_empty empty
  inMemory := fun w mem => .inl (empty w mem)
  opened := by
    rw [vectors]
    exact ⟨fun _ => .inr spilling, Opened.of_inner (.inr spilling)⟩
  started := fun _ => ⟨v, by simp [vectors], spilling⟩
  fits := fun w mem o held => by simp [empty w mem] at held

theorem VectorInv.start :
    VectorInv objsize maxSize (.start : VectorState Obj) [] [] where
  alive := by simp [VectorState.start]
  filed := ⟨rfl, by simp, by simp [VectorState.start, openDocs, new, number]⟩
  order := rfl
  flushed := ⟨fun _ => by simp [new], trivial⟩
  inMemory := by simp [VectorState.start, new]
  opened := ⟨by simp [new], trivial⟩
  started := by simp
  fits := by simp [VectorState.start, new]

theorem VectorInv.begin (room : 0 < maxSize) (inv : VectorInv objsize maxSize s pieces appended) :
    VectorInv objsize maxSize s.begin pieces appended := by
  have quiet : ¬ (new : SpillableVector Obj).spilling maxSize := by
    simpa [spilling, new] using room.ne'
  exact {
    alive := by simp [VectorState.begin]
    filed := by simpa [VectorState.begin, openDocs_cons, new] using inv.filed
    order := by simpa [VectorState.begin, memory, new] using inv.order
    flushed := ⟨fun spilling => absurd spilling quiet, inv.flushed⟩
    inMemory := List.forall_mem_cons.mpr ⟨.inl rfl, inv.inMemory⟩
    opened := ⟨by simp [new], inv.opened.mono .inl⟩
    started := by
      intro some
      obtain ⟨w, mem, spilling⟩ := inv.started some
      exact ⟨w, List.mem_cons_of_mem _ mem, spilling⟩
    fits := List.forall_mem_cons.mpr ⟨by simp [new], inv.fits⟩ }

/-- The innermost vector has an open document only while it spills. -/
theorem VectorInv.cur_eq_none (inv : VectorInv objsize maxSize s pieces appended)
    (vectors : s.vectors = v :: ancestors) (quiet : ¬ v.spilling maxSize) : v.cur = none := by
  have opened := inv.opened
  rw [vectors] at opened
  by_contra some
  rcases opened.1 (Option.isSome_iff_ne_none.mpr some) with none | spilling
  · exact none
  · exact quiet spilling

/-- One object into a stack whose innermost vector spills and that holds nothing in
memory. -/
theorem spillOneObject_inv {o : Obj} (fits : docHeader + objsize o < maxSize)
    (spilling : v.spilling maxSize) (empty : ∀ w ∈ v :: ancestors, w.vec = [])
    (filed : Filed pieces seqNo (written ++ openDocs (v :: ancestors)))
    (inOrder : InOrder objsize maxSize v seqNo o) :
    ∃ v' seqNo' written' pieces',
      spillOneObject objsize maxSize v seqNo written o = (v', seqNo', written') ∧
      VectorInv objsize maxSize ⟨v' :: ancestors, seqNo', written'⟩ pieces'
        (pieces.flatten ++ [o]) := by
  have moved : Filed pieces seqNo (openDocs ancestors ++ written ++ v.cur.toList) := by
    rw [openDocs_cons] at filed
    refine filed.of_count fun c => ?_
    simp only [List.count_append]
    omega
  obtain ⟨cur, seqNo', written', pieces', spilled, -, filed', content⟩ :=
    spillOneObject_filed fits moved inOrder
  refine ⟨{ v with cur := some cur }, seqNo', written', pieces', spilled, ?_⟩
  apply VectorInv.of_spilling (v := { v with cur := some cur }) rfl spilling
  · exact List.forall_mem_cons.mpr (List.forall_mem_cons.mp empty)
  · simp only [openDocs_cons]
    refine filed'.of_count fun c => ?_
    simp only [List.count_append, Option.toList_some]
    omega
  · exact content

/-- The vector with the size of `o` added. -/
def SpillableVector.grow (objsize : Obj → Nat) (v : SpillableVector Obj) (o : Obj) :
    SpillableVector Obj :=
  { v with curSize := v.curSize + objsize o }

theorem spilling_grow {o : Obj} (spilling : v.spilling maxSize) :
    (v.grow objsize o).spilling maxSize :=
  decide_eq_true ((of_decide_eq_true spilling).trans (Nat.le_add_right _ _))

/-- An object appended to a vector that already spills. -/
theorem append_of_spilling {o : Obj} (fits : docHeader + objsize o < maxSize)
    (inv : VectorInv objsize maxSize s pieces appended) (vectors : s.vectors = v :: ancestors)
    (spilling : v.spilling maxSize) (inOrder : InOrder objsize maxSize v s.seqNo o) :
    Succeeds objsize maxSize (s.append objsize maxSize o) (appended ++ [o]) := by
  have flushed := inv.flushed
  have filed := inv.filed
  have order := inv.order
  rw [vectors] at flushed filed order
  have empty := flushed.1 spilling
  rw [memory_eq_nil empty, List.append_nil] at order
  have still : (v.grow objsize o).spilling maxSize := spilling_grow spilling
  have empty' : ∀ w ∈ v.grow objsize o :: ancestors, w.vec = [] :=
    List.forall_mem_cons.mpr (List.forall_mem_cons.mp empty)
  obtain ⟨v', seqNo', written', pieces', spilled, inv'⟩ := spillOneObject_inv fits still empty'
      (by simpa [openDocs_cons, grow] using filed) inOrder
  refine ⟨_, pieces', ?_, order ▸ inv'⟩
  simp only [grow] at still spilled
  simp [append, vectors, spilling, still, spilled]

/-- The object that makes a vector spill: everything in memory goes first. -/
theorem append_of_starting {o : Obj} (fits : docHeader + objsize o < maxSize)
    (inv : VectorInv objsize maxSize s pieces appended) (vectors : s.vectors = v :: ancestors)
    (quiet : ¬ v.spilling maxSize) (reached : (v.grow objsize o).spilling maxSize) :
    Succeeds objsize maxSize (s.append objsize maxSize o) (appended ++ [o]) := by
  have unopened := inv.inMemory
  have allFit := inv.fits
  have filed := inv.filed
  have order := inv.order
  have closed := inv.cur_eq_none vectors quiet
  rw [vectors] at unopened allFit filed order
  have unopened' : ∀ w ∈ v.grow objsize o :: ancestors, w.vec = [] ∨ w.cur = none := by
    simpa [grow] using unopened
  have allFit' : ∀ w ∈ v.grow objsize o :: ancestors, ∀ o ∈ w.vec,
      docHeader + objsize o < maxSize := by
    simpa [grow] using allFit
  have filed' : Filed pieces s.seqNo
      ([] ++ s.written ++ openDocs (v.grow objsize o :: ancestors)) := by
    simpa [openDocs_cons, grow] using filed
  obtain ⟨⟨spilt, seqNo₁, written₁⟩, pieces₁, spilled, filed₁, content₁, sizes, empty, head⟩ :=
    spillAllObjects_filed allFit' filed' (Ready.of_unopened unopened')
  obtain ⟨w, rest, rfl, size⟩ := head_of_sizes sizes
  have spilling : w.spilling maxSize := by
    simpa [spilling, size] using reached
  have inOrder : InOrder objsize maxSize w seqNo₁ o := by
    rcases head w rfl with latest | ⟨v', first, same⟩
    · exact latest.inOrder o
    · obtain rfl := Option.some.inj first
      intro cur open'
      simp [same, grow, closed] at open'
  obtain ⟨w', seqNo', written', pieces', last, inv'⟩ :=
    spillOneObject_inv fits spilling empty (by simpa using filed₁) inOrder
  refine ⟨⟨w' :: rest, seqNo', written'⟩, pieces', ?_, ?_⟩
  · simp only [grow] at reached spilled
    simp [append, vectors, quiet, reached, spilled, spilling, last]
  · have all : pieces₁.flatten = appended := by
      rw [content₁, ← order]
      rfl
    exact all ▸ inv'

/-- An object that stays in memory. -/
theorem append_of_quiet {o : Obj} (fits : docHeader + objsize o < maxSize)
    (inv : VectorInv objsize maxSize s pieces appended) (vectors : s.vectors = v :: ancestors)
    (quiet : ¬ (v.grow objsize o).spilling maxSize) :
    Succeeds objsize maxSize (s.append objsize maxSize o) (appended ++ [o]) := by
  have before : ¬ v.spilling maxSize := fun spilling => quiet (spilling_grow spilling)
  have closed := inv.cur_eq_none vectors before
  obtain ⟨-, filed, order, flushed, inMemory, opened, started, allFit⟩ := inv
  rw [vectors] at filed order flushed inMemory opened started allFit
  refine ⟨⟨{ v.grow objsize o with vec := v.vec ++ [o] } :: ancestors, s.seqNo, s.written⟩, pieces,
    ?_, ?_⟩
  · simp only [grow] at quiet ⊢
    simp [append, vectors, before, quiet]
  · exact {
      alive := List.cons_ne_nil _ _
      filed := by simpa [openDocs_cons, grow] using filed
      order := by simp [memory, ← order]
      flushed := ⟨fun spilling => absurd spilling quiet, flushed.2⟩
      inMemory := List.forall_mem_cons.mpr ⟨.inr closed, (List.forall_mem_cons.mp inMemory).2⟩
      opened := ⟨by simp [grow, closed], opened.2.mono fun spilling =>
        spilling.elim .inl fun spilling => absurd spilling before⟩
      started := by
        intro some
        obtain ⟨w, mem, spilling⟩ := started some
        rcases List.mem_cons.mp mem with rfl | later
        · exact absurd spilling before
        · exact ⟨w, List.mem_cons_of_mem _ later, spilling⟩
      fits := by
        obtain ⟨own, others⟩ := List.forall_mem_cons.mp allFit
        refine List.forall_mem_cons.mpr ⟨List.forall_mem_append.mpr ⟨own, ?_⟩, others⟩
        simpa using fits }

/-- The parent's open document is the parent's own: it spills already, unless the
child does. -/
theorem VectorInv.parent_cur (inv : VectorInv objsize maxSize s pieces appended)
    (vectors : s.vectors = v :: parent :: ancestors) (quiet : ¬ v.spilling maxSize) :
    parent.cur = none ∨ parent.spilling maxSize := by
  have opened := inv.opened
  rw [vectors] at opened
  by_cases none : parent.cur = none
  · exact .inl none
  · rcases opened.2.1 (Option.isSome_iff_ne_none.mpr none) with (impossible | spilling) | spilling
    · exact impossible.elim
    · exact absurd spilling quiet
    · exact .inr spilling

/-- A child that has spilled commits: its open document is written, its parent spills
from now on. -/
theorem transfer_of_spilling (inv : VectorInv objsize maxSize s pieces appended)
    (vectors : s.vectors = v :: parent :: ancestors) (spilling : v.spilling maxSize)
    (finishing : v.cur.isSome) :
    Succeeds objsize maxSize (s.transfer objsize maxSize) appended := by
  have flushed := inv.flushed
  have filed := inv.filed
  have order := inv.order
  rw [vectors] at flushed filed order
  have empty := flushed.1 spilling
  rw [memory_eq_nil empty, List.append_nil] at order
  obtain ⟨cur, open'⟩ := Option.isSome_iff_exists.mp finishing
  have nonempty : cur.items ≠ [] :=
    filed.nonempty _ (mem_number (filed.perm.mem_iff.mp (by simp [openDocs_cons, open']))).2.2
  have empty' : ∀ w ∈
      (⟨parent.vec, parent.curSize + v.curSize, parent.cur⟩ : SpillableVector Obj) :: ancestors,
      w.vec = [] :=
    List.forall_mem_cons.mpr (List.forall_mem_cons.mp (List.forall_mem_cons.mp empty).2)
  have still : (⟨parent.vec, parent.curSize + v.curSize, parent.cur⟩ : SpillableVector Obj).spilling
      maxSize :=
    decide_eq_true ((of_decide_eq_true spilling).trans (Nat.le_add_left _ _))
  refine ⟨⟨⟨parent.vec, parent.curSize + v.curSize, parent.cur⟩ :: ancestors, s.seqNo,
    s.written ++ [cur]⟩, pieces, ?_, ?_⟩
  · simp only [transfer, vectors, finish, spilling, if_true, open', Option.map_some,
      spillCurObj, nonempty, if_false, Option.bind_eq_bind, Option.bind_some, still,
      spillAllObjects_of_empty empty', Option.pure_def]
  · apply VectorInv.of_spilling rfl still empty' _ order
    simp only [openDocs_cons, open', Option.toList_some] at filed ⊢
    simpa using filed

/-- What holds of all objects in memory still does when a child's go to its parent. -/
theorem forall_merged {P : Obj → Prop} (all : ∀ w ∈ v :: parent :: ancestors, ∀ o ∈ w.vec, P o)
    (curSize : Nat) (cur : Option (Chunk Obj)) :
    ∀ w ∈ ⟨parent.vec ++ v.vec, curSize, cur⟩ :: ancestors, ∀ o ∈ w.vec, P o := by
  simp only [List.forall_mem_cons] at all
  obtain ⟨child, own, others⟩ := all
  exact List.forall_mem_cons.mpr ⟨List.forall_mem_append.mpr ⟨own, child⟩, others⟩

/-- A child that has not spilled commits into a parent that spills, now or already. -/
theorem transfer_into_spilling (inv : VectorInv objsize maxSize s pieces appended)
    (vectors : s.vectors = v :: parent :: ancestors) (quiet : ¬ v.spilling maxSize)
    (reached : maxSize ≤ parent.curSize + v.curSize)
    (inOrder : ∀ o ∈ v.vec.head?, InOrder objsize maxSize parent s.seqNo o) :
    Succeeds objsize maxSize (s.transfer objsize maxSize) appended := by
  have closed := inv.cur_eq_none vectors quiet
  have parentCur := inv.parent_cur vectors quiet
  obtain ⟨-, filed, order, flushed, inMemory, opened, started, allFit⟩ := inv
  rw [vectors] at filed order flushed inMemory opened started allFit
  let merged : SpillableVector Obj := ⟨parent.vec ++ v.vec, parent.curSize + v.curSize, parent.cur⟩
  have ready : Ready objsize maxSize s.seqNo (merged :: ancestors) := by
    refine ⟨.inr ?_, Ready.of_unopened fun w mem => inMemory w (by simp [mem])⟩
    rcases parentCur with none | spilling
    · exact .inl none
    · have empty := flushed.2.1 spilling
      refine .inr ⟨fun w mem => empty w (List.mem_cons_of_mem _ mem), fun o first => ?_⟩
      exact inOrder o (by simpa [merged, empty parent List.mem_cons_self] using first)
  have fits : ∀ w ∈ merged :: ancestors, ∀ o ∈ w.vec, docHeader + objsize o < maxSize :=
    forall_merged allFit _ _
  have filed' : Filed pieces s.seqNo ([] ++ s.written ++ openDocs (merged :: ancestors)) := by
    simpa [openDocs_cons, closed, merged] using filed
  obtain ⟨⟨spilt, seqNo₁, written₁⟩, pieces₁, spilled, filed₁, content₁, sizes, empty, -⟩ :=
    spillAllObjects_filed fits filed' ready
  obtain ⟨w, rest, rfl, size⟩ := head_of_sizes sizes
  have spilling : w.spilling maxSize := by
    simpa [spilling, size] using reached
  refine ⟨⟨w :: rest, seqNo₁, written₁⟩, pieces₁, ?_, ?_⟩
  · have still : merged.spilling maxSize := decide_eq_true reached
    simp only [merged] at still spilled
    simp [transfer, vectors, finish, quiet, still, spilled]
  · apply VectorInv.of_spilling rfl spilling empty (by simpa using filed₁)
    rw [content₁, ← order]
    simp [memory, merged]

/-- Parent and child together stay in memory. -/
theorem transfer_of_quiet (inv : VectorInv objsize maxSize s pieces appended)
    (vectors : s.vectors = v :: parent :: ancestors)
    (quiet : parent.curSize + v.curSize < maxSize) :
    Succeeds objsize maxSize (s.transfer objsize maxSize) appended := by
  have childQuiet : ¬ v.spilling maxSize := by
    simp [spilling]
    omega
  have parentQuiet : ¬ parent.spilling maxSize := by
    simp [spilling]
    omega
  have closed := inv.cur_eq_none vectors childQuiet
  have parentClosed : parent.cur = none :=
    (inv.parent_cur vectors childQuiet).resolve_right parentQuiet
  obtain ⟨-, filed, order, flushed, inMemory, opened, started, allFit⟩ := inv
  rw [vectors] at filed order flushed inMemory opened started allFit
  let merged : SpillableVector Obj := ⟨parent.vec ++ v.vec, parent.curSize + v.curSize, parent.cur⟩
  have mergedQuiet : ¬ merged.spilling maxSize := by
    simpa [spilling, merged] using quiet
  refine ⟨⟨merged :: ancestors, s.seqNo, s.written⟩, pieces, ?_, ?_⟩
  · have := mergedQuiet
    simp only [merged] at this
    simp [transfer, vectors, finish, childQuiet, this, merged]
  · exact {
      alive := List.cons_ne_nil _ _
      filed := by simpa [openDocs_cons, closed, merged] using filed
      order := by simpa [memory, merged] using order
      flushed := ⟨fun spilling => absurd spilling mergedQuiet, flushed.2.2⟩
      inMemory := by
        obtain ⟨-, -, others⟩ := by simpa only [List.forall_mem_cons] using inMemory
        exact List.forall_mem_cons.mpr ⟨.inr parentClosed, others⟩
      opened := ⟨by simp [merged, parentClosed], opened.2.2.mono (by simp_all)⟩
      started := by
        intro some
        obtain ⟨w, mem, spilling⟩ := started some
        rcases List.mem_cons.mp mem with rfl | mem
        · exact absurd spilling childQuiet
        · rcases List.mem_cons.mp mem with rfl | later
          · exact absurd spilling parentQuiet
          · exact ⟨w, List.mem_cons_of_mem _ later, spilling⟩
      fits := forall_merged allFit _ _ }

end Stacks

/-! ### Runs -/

/-- A call on the vectors of a tree. -/
inductive VectorCall (Obj : Type) where
  | append (o : Obj)
  | begin
  | transfer
deriving DecidableEq

/-- The objects appended by a run, in order. -/
def appended : List (VectorCall Obj) → List Obj :=
  List.filterMap fun
    | .append o => some o
    | _ => none

section Runs

variable (objsize : Obj → Nat) (maxSize : Nat)

def VectorState.call (s : VectorState Obj) : VectorCall Obj → Option (VectorState Obj)
  | .append o => do (← s.append objsize maxSize o).validated objsize
  | .begin => some s.begin
  | .transfer => do (← s.transfer objsize maxSize).validated objsize

/-- The calls of a list in order, careful or not. -/
def VectorState.runCalls (s : VectorState Obj) : List (VectorCall Obj) → Option (VectorState Obj)
  | [] => some s
  | c :: calls => do (← s.call objsize maxSize c).runCalls calls

/-- A vector that is finished has a builder if it needs one. -/
def Finishable (v : SpillableVector Obj) : Prop := v.spilling maxSize → v.cur.isSome

instance (v : SpillableVector Obj) : Decidable (Finishable maxSize v) :=
  inferInstanceAs (Decidable (_ → _))

/-- A child that is finished has a builder if it needs one, and the first of the
objects it hands over does not go into a document of its parent that later ones have
overtaken. -/
def CarefulTransfer (seqNo : Nat) : List (SpillableVector Obj) → Prop
  | v :: parent :: _ => Finishable maxSize v ∧
      (¬ v.spilling maxSize → ∀ o ∈ v.vec.head?, InOrder objsize maxSize parent seqNo o)
  | _ => False

/-- What the root returns is not too large: its last document, or its objects as an array. -/
def Returnable (v : SpillableVector Obj) : Prop :=
  if v.spilling maxSize then ∀ cur ∈ v.cur, ValidDoc objsize cur.items
  else ValidArray objsize v.vec

/-- The call finds the vectors as it needs them: an appended object does not go into
an open document that later ones have overtaken, and a transfer is careful. And the documents
it finishes are not too large. -/
def Careful (s : VectorState Obj) : VectorCall Obj → Prop
  | .append o => (∀ v ∈ s.vectors.head?, InOrder objsize maxSize v s.seqNo o) ∧
      ∀ s' ∈ s.append objsize maxSize o, s'.Valid objsize
  | .begin => True
  | .transfer => CarefulTransfer objsize maxSize s.seqNo s.vectors ∧
      ∀ s' ∈ s.transfer objsize maxSize, s'.Valid objsize

instance (v : SpillableVector Obj) : Decidable (Returnable objsize maxSize v) :=
  inferInstanceAs (Decidable (if v.spilling maxSize then ∀ cur ∈ v.cur, _ else _))

instance (seqNo : Nat) :
    (vs : List (SpillableVector Obj)) → Decidable (CarefulTransfer objsize maxSize seqNo vs)
  | [] => .isFalse id
  | [_] => .isFalse id
  | _ :: _ :: _ => inferInstanceAs (Decidable (_ ∧ (_ → ∀ o ∈ _, _)))

instance (s : VectorState Obj) : (c : VectorCall Obj) → Decidable (Careful objsize maxSize s c)
  | .append _ => inferInstanceAs (Decidable ((∀ v ∈ _, _) ∧ ∀ s' ∈ _, _))
  | .begin => .isTrue trivial
  | .transfer => inferInstanceAs (Decidable (CarefulTransfer _ _ _ _ ∧ ∀ s' ∈ _, _))

/-- A careful call and its result. -/
def CarefulStep (s : VectorState Obj) (c : VectorCall Obj) (s' : VectorState Obj) : Prop :=
  Careful objsize maxSize s c ∧ s.call objsize maxSize c = some s'

variable {objsize : Obj → Nat} {maxSize : Nat} {s : VectorState Obj} {pieces : List (List Obj)}
  {past : List Obj}

theorem validated_eq_some {after : Option (VectorState Obj)} :
    (do (← after).validated objsize) = some s ↔ after = some s ∧ s.Valid objsize := by
  cases after with
  | none => simp
  | some s' =>
    change (check (s'.Valid objsize)).bind (fun _ => some s') = some s ↔ _
    rw [check_bind_eq_some, and_comm, Option.some.injEq]
    exact and_congr_right fun same => same ▸ Iff.rfl

theorem append_ok {o : Obj} (fits : docHeader + objsize o < maxSize)
    (inv : VectorInv objsize maxSize s pieces past)
    (careful : ∀ v ∈ s.vectors.head?, InOrder objsize maxSize v s.seqNo o) :
    Succeeds objsize maxSize (s.append objsize maxSize o) (past ++ [o]) := by
  obtain ⟨v, ancestors, vectors⟩ := List.exists_cons_of_ne_nil inv.alive
  by_cases spilling : v.spilling maxSize
  · exact append_of_spilling fits inv vectors spilling (careful v (by simp [vectors]))
  · by_cases reached : (v.grow objsize o).spilling maxSize
    · exact append_of_starting fits inv vectors spilling reached
    · exact append_of_quiet fits inv vectors reached

theorem transfer_ok (inv : VectorInv objsize maxSize s pieces past)
    (careful : CarefulTransfer objsize maxSize s.seqNo s.vectors) :
    Succeeds objsize maxSize (s.transfer objsize maxSize) past := by
  rcases vectors : s.vectors with _ | ⟨v, _ | ⟨parent, ancestors⟩⟩
  · simp [CarefulTransfer, vectors] at careful
  · simp [CarefulTransfer, vectors] at careful
  · simp only [CarefulTransfer, vectors] at careful
    obtain ⟨finishable, inOrder⟩ := careful
    by_cases spilling : v.spilling maxSize
    · exact transfer_of_spilling inv vectors spilling (finishable spilling)
    · by_cases reached : maxSize ≤ parent.curSize + v.curSize
      · exact transfer_into_spilling inv vectors spilling reached (inOrder spilling)
      · exact transfer_of_quiet inv vectors (not_le.mp reached)

/-- A careful call succeeds and keeps the invariant. -/
theorem call_ok {c : VectorCall Obj} (room : 0 < maxSize)
    (fits : ∀ o ∈ appended [c], docHeader + objsize o < maxSize)
    (inv : VectorInv objsize maxSize s pieces past) (careful : Careful objsize maxSize s c) :
    Succeeds objsize maxSize (s.call objsize maxSize c) (past ++ appended [c]) := by
  cases c with
  | append o =>
    obtain ⟨s', pieces', done, inv'⟩ := append_ok (fits o (by simp [appended])) inv careful.1
    exact ⟨s', pieces', validated_eq_some.mpr ⟨done, careful.2 s' done⟩,
      by simpa [appended] using inv'⟩
  | begin => exact ⟨s.begin, pieces, rfl, by simpa [appended] using inv.begin room⟩
  | transfer =>
    obtain ⟨s', pieces', done, inv'⟩ := transfer_ok inv careful.1
    exact ⟨s', pieces', validated_eq_some.mpr ⟨done, careful.2 s' done⟩,
      by simpa [appended] using inv'⟩

theorem vectorInv_run {calls : List (VectorCall Obj)} (room : 0 < maxSize)
    (fits : ∀ o ∈ appended calls, docHeader + objsize o < maxSize)
    (run : Run (CarefulStep objsize maxSize) .start calls s) :
    ∃ pieces, VectorInv objsize maxSize s pieces (appended calls) := by
  refine run.history (P := fun calls s =>
    (∀ o ∈ appended calls, docHeader + objsize o < maxSize) →
      ∃ pieces, VectorInv objsize maxSize s pieces (appended calls))
    (fun _ => ⟨[], VectorInv.start⟩) ?_ fits
  rintro past a c b - ih ⟨careful, called⟩ fits
  have split : appended (past ++ [c]) = appended past ++ appended [c] := by simp [appended]
  rw [split] at fits ⊢
  obtain ⟨pieces, inv⟩ := ih fun o mem => fits o (List.mem_append_left _ mem)
  obtain ⟨s', pieces', called', inv'⟩ :=
    call_ok room (fun o mem => fits o (List.mem_append_right _ mem)) inv careful
  obtain rfl := Option.some.inj (called.symm.trans called')
  exact ⟨pieces', inv'⟩

/-- The documents written in a run have all been checked. -/
theorem valid_run {calls : List (VectorCall Obj)}
    (run : Run (CarefulStep objsize maxSize) .start calls s) : s.Valid objsize := by
  refine run.invariant (P := fun s => s.Valid objsize) ?_ nofun
  rintro a (o | - | -) b valid ⟨careful, called⟩
  · exact (validated_eq_some.mp called).2
  · obtain rfl := Option.some.inj called
    exact valid
  · exact (validated_eq_some.mp called).2

/-- What the root's result iterates to. -/
theorem getObjectsOrRef_ok {root : SpillableVector Obj}
    (inv : VectorInv objsize maxSize s pieces past) (valid : s.Valid objsize)
    (alone : s.vectors = [root]) (finishable : Finishable maxSize root)
    (returnable : Returnable objsize maxSize root) :
    ∃ result written, s.getObjectsOrRef objsize maxSize = some (result, written) ∧
      result.iterate written = some past := by
  have order := inv.order
  have filed := inv.filed
  rw [alone] at order filed
  by_cases spilling : root.spilling maxSize
  · obtain ⟨cur, open'⟩ := Option.isSome_iff_exists.mp (finishable spilling)
    have flushed := inv.flushed
    rw [alone] at flushed
    rw [memory_eq_nil (flushed.1 spilling), List.append_nil] at order
    have stored : (s.written ++ [cur]).Perm (number 0 pieces) := by
      simpa [openDocs_cons, open', openDocs] using filed.perm
    have nonempty : cur.items ≠ [] :=
      filed.nonempty _ (mem_number (stored.mem_iff.mp (by simp))).2.2
    refine ⟨.refOID, s.written ++ [cur], ?_, ?_⟩
    · have last : Valid objsize ⟨[root], s.seqNo, s.written ++ [cur]⟩ := by
        rw [Returnable, if_pos spilling] at returnable
        exact List.forall_mem_append.mpr
          ⟨valid, List.forall_mem_singleton.mpr (returnable cur open')⟩
      simp [getObjectsOrRef, alone, finish, spilling, open', spillCurObj, nonempty,
        validated_of last]
    · rw [ObjectsOrRef.iterate, read_of_perm stored, order]
  · have none : pieces = [] := by
      by_contra some
      obtain ⟨v, mem, vSpilling⟩ := inv.started some
      rw [alone, List.mem_singleton] at mem
      exact spilling (mem ▸ vSpilling)
    refine ⟨.a root.vec, s.written, ?_, ?_⟩
    · rw [Returnable, if_neg spilling] at returnable
      have same : Valid objsize ⟨[root], s.seqNo, s.written⟩ := valid
      simp [getObjectsOrRef, alone, finish, spilling, validated_of same, check, returnable]
    · simpa [ObjectsOrRef.iterate, memory, none] using order

end Runs

end TokuMX.Txn
