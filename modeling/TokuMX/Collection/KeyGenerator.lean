import Mathlib.Data.List.Forall2
import Mathlib.Algebra.BigOperators.Group.List.Basic
import TokuMX.BSON.Object
import TokuMX.Lib.Checked

/-!
The keys of a document (`db/keygenerator.cpp`, `BSONObj::getFieldDottedOrArray`).

`getKeys` follows the field names of an index into a document, all of them at once.
A name that leads to an array stops there; all names that stop must have stopped at
one array, and then the rest is done for each of its entries, where a name may go on
in the entry or, if it is a number, in the array itself. A name that ends at the array
takes the entry, unless the array was found in another one. A name that leads nowhere
gives null, and a sparse index has no key for a document where all names do.

* `getKeys_ne_exhausted`: every round for an entry shortens a name, so the rounds
  never run out.

A name is kept split at its dots. An element is the same as another when it lies at the
same place in the document, which is what comparing `rawdata()` finds out.
-/

namespace TokuMX.Collection

open TokuMX.Lib TokuMX.BSON

/-! ### Following a name -/

/-- A field name of an index, split at its dots. -/
abbrev Path := List (List UInt8)

/-- There is nothing left of the name. -/
def Path.done : Path → Bool
  | [] => true
  | [c] => c.isEmpty
  | _ => false

/-- An element of a document. Its place is the positions of the elements on the way to it. -/
structure Located where
  place : List Nat
  name : List UInt8
  value : Value

/-- An object or array of a document. -/
structure Container where
  place : List Nat
  fields : Fields

/-- `BSONObj()`. -/
def Container.empty : Container := ⟨[], .nil⟩

def Container.document (obj : Fields) : Container := ⟨[], obj⟩

/-- The first field of the name, counted from `i`. -/
def lookup (name : List UInt8) : Nat → Fields → Option (Nat × Value)
  | _, .nil => none
  | i, .cons n v rest => if n = name then some (i, v) else lookup name (i + 1) rest

def Container.getField (c : Container) (name : List UInt8) : Option Located :=
  (lookup name 0 c.fields).map fun (i, v) => ⟨c.place ++ [i], name, v⟩

/-- The element found, and what is left of the name. -/
def getFieldDottedOrArray : Path → Container → Option Located × Path
  | [], _ => (none, [])
  | c :: rest, obj =>
    match obj.getField c with
    | none => (none, rest)
    | some sub =>
      if isArray sub.value || Path.done rest then (some sub, rest)
      else
        match sub.value with
        | .object fields => getFieldDottedOrArray rest ⟨sub.place, fields⟩
        | _ => (none, rest)

/-- Why a document has no keys. -/
inductive KeyError where
  | ambiguousFieldNames (field : List UInt8) (array : Fields)
  | parallelArrays (field other : List UInt8)
  | eoo
  | exhausted

/-- The number of the assertion; the last two are not user assertions. -/
def KeyError.code : KeyError → Nat
  | ambiguousFieldNames .. => 15855
  | parallelArrays .. => 10888
  | eoo | exhausted => 0

/-- The element of the object or the array the name leads to, what is left of the name, and
whether the element is an array right inside the array. -/
def extractNextElement (obj arr : Container) (field : Path) :
    Except KeyError (Option Located × Path × Bool) :=
  match obj.getField (field.headD []), arr.getField (field.headD []) with
  | some _, some arrField => .error (.ambiguousFieldNames arrField.name arr.fields)
  | some _, none =>
    let (e, rest) := getFieldDottedOrArray field obj
    .ok (e, rest, false)
  | none, some arrField =>
    let (e, rest) := getFieldDottedOrArray field arr
    .ok (e, rest, isArray arrField.value)
  | none, none => .ok (none, field, false)

/-! ### Generating keys -/

/-- A field of the index on the way: what is left of its name, and its value if that has been
found. -/
structure Slot where
  name : Path
  fixed : Option Value

/-- What one pass over the fields finds. A slot comes with whether it stopped at the array. -/
structure Extracted where
  slots : List (Slot × Bool)
  arrElt : Option Located
  mayExpandArrayUnembedded : Bool
  numNotFound : Nat

/-- One round of the loop of `_getKeys` over the fields. -/
def extractSlot (obj arr : Container) (acc : Extracted) (slot : Slot) :
    Except KeyError Extracted :=
  if slot.name.done then .ok { acc with slots := acc.slots ++ [(slot, false)] }
  else do
    let (e, rest, arrayNestedArray) ← extractNextElement obj arr slot.name
    match e with
    | none =>
      .ok { acc with
        slots := acc.slots ++ [(⟨[], some .null⟩, false)]
        numNotFound := acc.numNotFound + 1 }
    | some e =>
      if isArray e.value then
        match acc.arrElt with
        | some arrElt =>
          if e.place ≠ arrElt.place then .error (.parallelArrays e.name arrElt.name)
          else .ok { acc with
            slots := acc.slots ++ [({ slot with name := rest }, true)]
            mayExpandArrayUnembedded := acc.mayExpandArrayUnembedded && !arrayNestedArray }
        | none => .ok { acc with
            slots := acc.slots ++ [({ slot with name := rest }, true)]
            arrElt := some e
            mayExpandArrayUnembedded := acc.mayExpandArrayUnembedded && !arrayNestedArray }
      else .ok { acc with slots := acc.slots ++ [(⟨rest, some e.value⟩, false)] }

/-- The loop of `_getKeys` over the fields. -/
def extractSlots (obj arr : Container) (numNotFound : Nat) (slots : List Slot) :
    Except KeyError Extracted :=
  slots.foldlM (extractSlot obj arr) ⟨[], none, true, numNotFound⟩

/-- `BSONObjSet::insert`, on a list that ascends. -/
def insertKey (key : List Value) : List (List Value) → List (List Value)
  | [] => [key]
  | k :: keys =>
    if woCompare k key ⟨0⟩ < 0 then k :: insertKey key keys
    else if woCompare key k ⟨0⟩ < 0 then key :: k :: keys
    else k :: keys

/-- The slots for an entry: the names that end at the array take the entry, or the array if
it may not be expanded. -/
def fixEntry (entry arrObj : Value) (mayExpandArrayUnembedded : Bool) (slots : List (Slot × Bool)) :
    List Slot :=
  slots.map fun (slot, stopped) =>
    if stopped && slot.name.done then
      { slot with fixed := some (if mayExpandArrayUnembedded then entry else arrObj) }
    else slot

/-- The object the entry at the place is, or an empty one. -/
def entryObject (place : List Nat) : Value → Container
  | .object fields => ⟨place, fields⟩
  | _ => .empty

/-- The entries of an array to generate keys for, with their places. An empty array is
taken for one of an undefined value. -/
def entriesOf (array : Located) : List (Value × List Nat) :=
  match embeddedObject array.value with
  | .nil => [(.undefined, [])]
  | fields => fields.values.zipIdx.map fun (v, i) => (v, array.place ++ [i])

/-- `_getKeys` and `_getKeysArrEltFixed`. -/
def getKeysLoop (sparse : Bool) :
    Nat → List Slot → Container → Container → Nat → List (List Value) →
      Except KeyError (List (List Value))
  | 0, _, _, _, _, _ => .error .exhausted
  | rounds + 1, slots, obj, arr, numNotFound, keys => do
    let found ← extractSlots obj arr numNotFound slots
    match found.arrElt with
    | none =>
      if sparse && found.numNotFound = slots.length then .ok keys
      else
        match found.slots.mapM fun s => s.1.fixed with
        | none => .error .eoo
        | some key => .ok (insertKey key keys)
    | some arrElt =>
      -- An entry of an empty array may always be expanded.
      let mayExpand := found.mayExpandArrayUnembedded || embeddedObject arrElt.value matches .nil
      (entriesOf arrElt).foldlM (fun keys entry =>
        getKeysLoop sparse rounds (fixEntry entry.1 arrElt.value mayExpand found.slots)
          (entryObject entry.2 entry.1) ⟨arrElt.place, embeddedObject arrElt.value⟩
          found.numNotFound keys) keys

/-- The rounds after which every name has come to its end. -/
def roundsFor (slots : List Slot) : Nat := (slots.map fun s => s.name.length).sum + 1

/-- `KeyGenerator::getKeys`. -/
def getKeys (fieldNames : List Path) (sparse : Bool) (obj : Fields) :
    Except KeyError (List (List Value)) := do
  let slots := fieldNames.map fun name => ⟨name, none⟩
  let keys ← getKeysLoop sparse (roundsFor slots) slots (.document obj) .empty 0 []
  if keys.isEmpty && !sparse then .ok [fieldNames.map fun _ => .null] else .ok keys

/-! ### One pass over the fields -/

variable {obj arr : Container}

/-- Following a name uses up a part of it. -/
theorem length_getFieldDottedOrArray (c : List UInt8) (rest : Path) (obj : Container) :
    (getFieldDottedOrArray (c :: rest) obj).2.length ≤ rest.length := by
  induction rest generalizing c obj with
  | nil =>
    rw [getFieldDottedOrArray]
    cases obj.getField c with
    | none => exact le_rfl
    | some sub => simp [Path.done]
  | cons d rest ih =>
    rw [getFieldDottedOrArray]
    cases obj.getField c with
    | none => exact le_rfl
    | some sub =>
      dsimp only
      split_ifs with stop
      · exact le_rfl
      · cases sub.value with
        | object fields => exact (ih d ⟨sub.place, fields⟩).trans (Nat.le_succ _)
        | _ => exact le_rfl

/-- An element is found in the object or in the array, and only one of them has the field. -/
theorem extractNextElement_eq_some {field rest : Path} {e : Located} {nested : Bool}
    (found : extractNextElement obj arr field = .ok (some e, rest, nested)) :
    (obj.getField (field.headD []) ≠ none ∧ arr.getField (field.headD []) = none ∧
        getFieldDottedOrArray field obj = (some e, rest) ∧ nested = false) ∨
      ∃ arrField, obj.getField (field.headD []) = none ∧
        arr.getField (field.headD []) = some arrField ∧
        getFieldDottedOrArray field arr = (some e, rest) ∧ nested = isArray arrField.value := by
  unfold extractNextElement at found
  cases inObj : obj.getField (field.headD []) <;>
    cases inArr : arr.getField (field.headD []) <;>
      simp only [inObj, inArr, Except.ok.injEq, Prod.mk.injEq, reduceCtorEq, false_and]
        at found
  case none.some arrField =>
    exact .inr ⟨arrField, rfl, rfl, Prod.ext found.1 found.2.1, found.2.2.symm⟩
  case some.none sub =>
    exact .inl ⟨by simp, rfl, Prod.ext found.1 found.2.1, found.2.2.symm⟩

theorem length_extractNextElement {field rest : Path} {e : Located} {nested : Bool}
    (more : field.done = false)
    (found : extractNextElement obj arr field = .ok (some e, rest, nested)) :
    rest.length < field.length := by
  cases field with
  | nil => cases more
  | cons c field =>
    have shorter := fun o => length_getFieldDottedOrArray c field o
    rcases extractNextElement_eq_some found with ⟨-, -, inObj, -⟩ | ⟨_, -, -, inArr, -⟩
    · have bound := shorter obj
      rw [inObj] at bound
      exact Nat.lt_succ_of_le bound
    · have bound := shorter arr
      rw [inArr] at bound
      exact Nat.lt_succ_of_le bound

/-- What becomes of a slot in a pass that stops at `arrElt`. -/
inductive SlotStep (obj arr : Container) (arrElt : Option Located) : Slot → Slot × Bool → Prop where
  | done {slot : Slot} (done : slot.name.done = true) : SlotStep obj arr arrElt slot (slot, false)
  | missing {slot : Slot} {rest : Path} {nested : Bool} (more : slot.name.done = false)
      (found : extractNextElement obj arr slot.name = .ok (none, rest, nested)) :
      SlotStep obj arr arrElt slot (⟨[], some .null⟩, false)
  | stopped {slot : Slot} {e array : Located} {rest : Path} {nested : Bool}
      (more : slot.name.done = false)
      (found : extractNextElement obj arr slot.name = .ok (some e, rest, nested))
      (isArray : isArray e.value = true) (same : arrElt = some array)
      (place : e.place = array.place) :
      SlotStep obj arr arrElt slot ({ slot with name := rest }, true)
  | value {slot : Slot} {e : Located} {rest : Path} {nested : Bool}
      (more : slot.name.done = false)
      (found : extractNextElement obj arr slot.name = .ok (some e, rest, nested))
      (notArray : isArray e.value = false) :
      SlotStep obj arr arrElt slot (⟨rest, some e.value⟩, false)

variable {slot : Slot}

/-- What one round of the loop does. -/
theorem extractSlot_spec {acc acc' : Extracted} (result : extractSlot obj arr acc slot = .ok acc') :
    ∃ out, acc'.slots = acc.slots ++ [out] ∧ SlotStep obj arr acc'.arrElt slot out ∧
      (∀ a, acc.arrElt = some a → acc'.arrElt = some a) ∧
      (acc'.arrElt = acc.arrElt ∨ out.2 = true) := by
  unfold extractSlot at result
  split_ifs at result with done
  · cases result
    exact ⟨_, rfl, .done done, fun _ => id, .inl rfl⟩
  · have more : slot.name.done = false := by simpa using done
    obtain ⟨⟨e, rest, nested⟩, found, result⟩ := except_bind_eq_ok.mp result
    cases e with
    | none =>
      cases result
      exact ⟨_, rfl, .missing more found, fun _ => id, .inl rfl⟩
    | some e =>
      dsimp only at result
      cases array : isArray e.value with
      | false =>
        simp only [array, Bool.false_eq_true, if_false] at result
        cases result
        exact ⟨_, rfl, .value more found array, fun _ => id, .inl rfl⟩
      | true =>
        simp only [array, if_true] at result
        cases first : acc.arrElt with
        | none =>
          simp only [first] at result
          cases result
          exact ⟨_, rfl, .stopped more found array rfl rfl, nofun, .inr rfl⟩
        | some arrElt =>
          simp only [first] at result
          split_ifs at result with place
          cases result
          exact ⟨_, rfl, .stopped more found array rfl (not_not.mp place), fun _ => id, .inr rfl⟩

variable {found : Extracted} {slots : List Slot}

theorem extractSlots_from {acc : Extracted}
    (result : slots.foldlM (extractSlot obj arr) acc = .ok found) :
    ∃ outs, found.slots = acc.slots ++ outs ∧
      List.Forall₂ (SlotStep obj arr found.arrElt) slots outs ∧
      (∀ a, acc.arrElt = some a → found.arrElt = some a) ∧
      (found.arrElt = acc.arrElt ∨ ∃ out ∈ outs, out.2 = true) := by
  induction slots generalizing acc with
  | nil =>
    cases result
    exact ⟨[], by simp, .nil, fun _ => id, .inl rfl⟩
  | cons slot slots ih =>
    rw [List.foldlM_cons, except_bind_eq_ok] at result
    obtain ⟨next, round, rest⟩ := result
    obtain ⟨out, slotsEq, step, kept, source⟩ := extractSlot_spec round
    obtain ⟨outs, outsEq, steps, keptAll, sources⟩ := ih rest
    refine ⟨out :: outs, by simp [outsEq, slotsEq], .cons ?_ steps,
      fun a first => keptAll a (kept a first), ?_⟩
    · -- The array the slot stopped at stays the one of the pass.
      cases step with
      | done done => exact .done done
      | missing more found => exact .missing more found
      | stopped more found array same place =>
        exact .stopped more found array (keptAll _ same) place
      | value more found notArray => exact .value more found notArray
    · rcases sources with same | ⟨o, ho, stopped⟩
      · rcases source with before | stopped
        · exact .inl (same.trans before)
        · exact .inr ⟨out, .head _, stopped⟩
      · exact .inr ⟨o, .tail _ ho, stopped⟩

variable {n : Nat}

/-- What a pass does to the slots. If it stops at an array, some slot did. -/
theorem extractSlots_spec (result : extractSlots obj arr n slots = .ok found) :
    List.Forall₂ (SlotStep obj arr found.arrElt) slots found.slots ∧
      (found.arrElt ≠ none → ∃ out ∈ found.slots, out.2 = true) := by
  obtain ⟨outs, rfl, steps, -, source⟩ := extractSlots_from result
  refine ⟨by simpa using steps, fun stopped => ?_⟩
  simpa using source.resolve_left stopped

/-! ### The rounds suffice -/

/-- The length of what is left of the names. -/
def nameLengths (slots : List Slot) : Nat := (slots.map fun s => s.name.length).sum

theorem nameLengths_fixEntry (entry array : Value) (mayExpand : Bool) (outs : List (Slot × Bool)) :
    nameLengths (fixEntry entry array mayExpand outs) = nameLengths (outs.map Prod.fst) := by
  unfold nameLengths fixEntry
  congr 1
  rw [List.map_map, List.map_map]
  refine List.map_congr_left fun out _ => ?_
  dsimp only [Function.comp]
  split <;> rfl

variable {arrElt : Option Located}

/-- A slot does not get longer, and gets shorter when it stops at the array. -/
theorem SlotStep.length {out : Slot × Bool} (step : SlotStep obj arr arrElt slot out) :
    out.1.name.length ≤ slot.name.length ∧
      (out.2 = true → out.1.name.length < slot.name.length) := by
  cases step with
  | done => exact ⟨le_rfl, nofun⟩
  | missing => exact ⟨Nat.zero_le _, nofun⟩
  | stopped more found =>
    have shorter := length_extractNextElement more found
    exact ⟨shorter.le, fun _ => shorter⟩
  | value more found => exact ⟨(length_extractNextElement more found).le, nofun⟩

variable {outs : List (Slot × Bool)}

theorem nameLengths_steps (steps : List.Forall₂ (SlotStep obj arr arrElt) slots outs) :
    nameLengths (outs.map Prod.fst) ≤ nameLengths slots ∧
      ((∃ out ∈ outs, out.2 = true) → nameLengths (outs.map Prod.fst) < nameLengths slots) := by
  induction steps with
  | nil => simp [nameLengths]
  | @cons slot out slots outs step _ ih =>
    obtain ⟨bound, strict⟩ := step.length
    simp only [nameLengths, List.map_cons, List.sum_cons] at ih ⊢
    refine ⟨by omega, ?_⟩
    rintro ⟨o, mem, stopped⟩
    rcases List.mem_cons.mp mem with rfl | mem
    · have := strict stopped
      omega
    · have := ih.2 ⟨o, mem, stopped⟩
      omega

theorem extractNextElement_ne_exhausted (field : Path) :
    extractNextElement obj arr field ≠ .error .exhausted := by
  unfold extractNextElement
  split <;> exact nofun

theorem extractSlots_ne_exhausted : extractSlots obj arr n slots ≠ .error .exhausted := by
  refine foldlM_ne_error fun slot _ acc => ?_
  unfold extractSlot
  cases next : extractNextElement obj arr slot.name with
  | error e =>
    have other : e ≠ .exhausted := by
      rintro rfl
      exact extractNextElement_ne_exhausted _ next
    simp only [bind, Except.bind]
    split_ifs
    · exact nofun
    · simpa using other
  | ok found =>
    simp only [bind, Except.bind]
    grind

variable {sparse : Bool} {rounds : Nat} {keys : List (List Value)}

theorem getKeysLoop_ne_exhausted (enough : nameLengths slots < rounds) :
    getKeysLoop sparse rounds slots obj arr n keys ≠ .error .exhausted := by
  induction rounds generalizing slots obj arr n keys with
  | zero => exact absurd enough (Nat.not_lt_zero _)
  | succ rounds ih =>
    rw [getKeysLoop, ne_eq, except_bind_eq_error]
    rintro (failed | ⟨found, pass, failed⟩)
    · exact extractSlots_ne_exhausted failed
    · obtain ⟨steps, stopped⟩ := extractSlots_spec pass
      cases array : found.arrElt with
      | none =>
        simp only [array] at failed
        split_ifs at failed
        split at failed <;> cases failed
      | some arrElt =>
        simp only [array] at failed
        have shorter := (nameLengths_steps steps).2 (stopped (by simp [array]))
        refine foldlM_ne_error (fun entry _ keys => ih ?_) failed
        rw [nameLengths_fixEntry]
        omega

/-- The generator gives keys or an error of the source. -/
theorem getKeys_ne_exhausted (fieldNames : List Path) (sparse : Bool) (doc : Fields) :
    getKeys fieldNames sparse doc ≠ .error .exhausted := by
  rw [getKeys, ne_eq, except_bind_eq_error]
  rintro (failed | ⟨keys, -, failed⟩)
  · exact getKeysLoop_ne_exhausted (Nat.lt_succ_self _) failed
  · split_ifs at failed

/-! ### Values that are found once -/

variable {i : Nat} {v : Value}

/-- The field has its value. -/
def Pinned (i : Nat) (v : Value) (slots : List Slot) : Prop :=
  ∃ slot, slots[i]? = some slot ∧ slot.name.done = true ∧ slot.fixed = some v

/-- The field has its value and did not stop at the array. -/
def PinnedOut (i : Nat) (v : Value) (outs : List (Slot × Bool)) : Prop :=
  ∃ slot, outs[i]? = some (slot, false) ∧ slot.name.done = true ∧ slot.fixed = some v

/-- A slot that has come to its end stays as it is. -/
theorem steps_settled (here : slots[i]? = some slot) (done : slot.name.done = true)
    (steps : List.Forall₂ (SlotStep obj arr arrElt) slots outs) :
    outs[i]? = some (slot, false) := by
  obtain ⟨bound, rfl⟩ := List.getElem?_eq_some_iff.mp here
  have bound' : i < outs.length := steps.length_eq ▸ bound
  have step : SlotStep obj arr arrElt slots[i] outs[i] := steps.get bound bound'
  rw [List.getElem?_eq_getElem bound', Option.some_inj]
  generalize outs[i] = out at step ⊢
  cases step with
  | done => rfl
  | missing more => simp [done] at more
  | stopped more => simp [done] at more
  | value more => simp [done] at more

theorem fixEntry_settled (here : outs[i]? = some (slot, false)) (entry array : Value)
    (mayExpand : Bool) : (fixEntry entry array mayExpand outs)[i]? = some slot := by
  simp [fixEntry, here]

theorem Pinned.step (pinned : Pinned i v slots)
    (steps : List.Forall₂ (SlotStep obj arr arrElt) slots outs) : PinnedOut i v outs := by
  obtain ⟨slot, here, done, fixed⟩ := pinned
  exact ⟨slot, steps_settled here done steps, done, fixed⟩

theorem PinnedOut.fixEntry (pinned : PinnedOut i v outs) (entry array : Value) (mayExpand : Bool) :
    Pinned i v (fixEntry entry array mayExpand outs) := by
  obtain ⟨slot, here, done, fixed⟩ := pinned
  exact ⟨slot, fixEntry_settled here .., done, fixed⟩

theorem mem_insertKey {key k : List Value} (mem : k ∈ insertKey key keys) : k = key ∨ k ∈ keys := by
  induction keys with
  | nil => exact .inl (List.mem_singleton.mp mem)
  | cons head keys ih =>
    unfold insertKey at mem
    split_ifs at mem
    · rcases List.mem_cons.mp mem with rfl | mem
      · exact .inr (.head _)
      · exact (ih mem).imp_right (.tail _)
    · exact List.mem_cons.mp mem
    · exact .inr mem

theorem PinnedOut.key {key : List Value} (pinned : PinnedOut i v outs)
    (made : (outs.mapM fun s => s.1.fixed) = some key) : key[i]? = some v := by
  obtain ⟨slot, here, -, fixed⟩ := pinned
  obtain ⟨bound, eq⟩ := List.getElem?_eq_some_iff.mp here
  have all := forall₂_of_mapM made
  have bound' : i < key.length := all.length_eq ▸ bound
  have value : outs[i].1.fixed = some key[i] := all.get bound bound'
  rw [eq, fixed, Option.some_inj] at value
  rw [List.getElem?_eq_getElem bound', value]

variable {keys' : List (List Value)}

/-- What every pass keeps of the slots holds of the slots each new key is made of. -/
theorem keys_made {P : List Slot → Prop} {Q : List (Slot × Bool) → Prop} {R : List Value → Prop}
    (step : ∀ {obj arr arrElt slots outs}, P slots → List.Forall₂
      (SlotStep obj arr arrElt) slots outs → Q outs)
    (fix : ∀ {outs} entry array mayExpand, Q outs → P (fixEntry entry array mayExpand outs))
    (key : ∀ {outs key}, Q outs → (outs.mapM fun s => s.1.fixed) = some key → R key)
    (first : ∀ found, extractSlots obj arr n slots = .ok found → Q found.slots)
    (result : getKeysLoop sparse rounds slots obj arr n keys = .ok keys') :
    ∀ k ∈ keys', k ∈ keys ∨ R k := by
  induction rounds generalizing slots obj arr n keys keys' with
  | zero => cases result
  | succ rounds ih =>
    rw [getKeysLoop, except_bind_eq_ok] at result
    obtain ⟨found, pass, result⟩ := result
    have here := first found pass
    cases array : found.arrElt with
    | none =>
      simp only [array] at result
      split_ifs at result with none
      · cases result
        exact fun k => .inl
      · cases made : found.slots.mapM fun s => s.1.fixed with
        | none => simp [made] at result
        | some new =>
          simp only [made, Except.ok.injEq] at result
          subst result
          intro k mem
          rcases mem_insertKey mem with rfl | mem
          · exact .inr (key here made)
          · exact .inl mem
    | some arrElt =>
      simp only [array] at result
      refine foldlM_invariant (P := fun made => ∀ k ∈ made, k ∈ keys ∨ R k) result
        (fun k => .inl) ?_
      intro entry _ before after kept round k mem
      have new := ih (fun _ next => step (fix _ _ _ here) (extractSlots_spec next).1) round
      exact (new k mem).elim (kept k) .inr

/-- A value that is found is in every key that is made. -/
theorem keys_fixed
    (pinned : ∀ found, extractSlots obj arr n slots = .ok found → PinnedOut i v found.slots)
    (result : getKeysLoop sparse rounds slots obj arr n keys = .ok keys') :
    ∀ k ∈ keys', k ∈ keys ∨ k[i]? = some v :=
  keys_made Pinned.step (fun _ _ _ here => here.fixEntry ..) PinnedOut.key pinned result

/-! ### Top-level names -/

variable {doc : Fields} {name : List UInt8} {j : Nat}

theorem extractNextElement_plain (found : lookup name 0 doc = some (j, v)) :
    extractNextElement (.document doc) .empty [name] = .ok (some ⟨[j], name, v⟩, [], false) := by
  simp [extractNextElement, getFieldDottedOrArray, Container.getField, Container.document,
    Container.empty, lookup, found, Path.done]

variable {fieldNames : List Path}

/-- What the first pass does to a top-level name. -/
theorem extractSlots_topLevel (at_i : fieldNames[i]? = some [name])
    (pass : extractSlots obj arr n (fieldNames.map fun name => ⟨name, none⟩) = .ok found) :
    ∃ out, found.slots[i]? = some out ∧ SlotStep obj arr found.arrElt ⟨[name], none⟩ out := by
  have steps := (extractSlots_spec pass).1
  obtain ⟨bound, eq⟩ := List.getElem?_eq_some_iff.mp at_i
  have bound' : i < found.slots.length := by simpa [← steps.length_eq] using bound
  have step := steps.get (i := i) (by simpa using bound) bound'
  simp only [List.get_eq_getElem, List.getElem_map, eq] at step
  exact ⟨_, List.getElem?_eq_getElem bound', step⟩

/-- The value a top-level name leads to is in every key, unless it is an array. -/
theorem getKeysLoop_pinned (at_i : fieldNames[i]? = some [name]) (named : name ≠ [])
    (found : lookup name 0 doc = some (j, v)) (plain : isArray v = false)
    (result : getKeysLoop sparse rounds (fieldNames.map fun name => ⟨name, none⟩)
      (.document doc) .empty 0 [] = .ok keys) :
    ∀ k ∈ keys, k[i]? = some v := by
  intro k mem
  refine (keys_fixed (fun pass extracted => ?_) result k mem).resolve_left (by simp)
  obtain ⟨out, here, step⟩ := extractSlots_topLevel at_i extracted
  have next := extractNextElement_plain found
  have more : Path.done [name] = false := by simpa [Path.done] using named
  refine ⟨⟨[], some v⟩, here.trans (congrArg some ?_), rfl, rfl⟩
  cases step with
  | done done => simp [more] at done
  | missing _ other => simp [next] at other
  | stopped _ other array =>
    cases next.symm.trans other
    simp [plain] at array
  | value _ other =>
    cases next.symm.trans other
    rfl

theorem insertKey_ne_nil (key : List Value) (keys : List (List Value)) :
    insertKey key keys ≠ [] := by
  cases keys with
  | nil => simp [insertKey]
  | cons k keys =>
    unfold insertKey
    split_ifs <;> simp

theorem entriesOf_ne_nil (array : Located) : entriesOf array ≠ [] := by
  unfold entriesOf
  cases embeddedObject array.value with
  | nil => simp
  | cons name value rest => simp [Fields.values]

/-- An index that is not sparse has a key for every document. -/
theorem getKeysLoop_ne_nil (result : getKeysLoop false rounds slots obj arr n keys = .ok keys') :
    keys' ≠ [] := by
  induction rounds generalizing slots obj arr n keys keys' with
  | zero => cases result
  | succ rounds ih =>
    rw [getKeysLoop, except_bind_eq_ok] at result
    obtain ⟨found, -, result⟩ := result
    cases array : found.arrElt with
    | none =>
      simp only [array, Bool.false_and, Bool.false_eq_true, if_false] at result
      split at result
      · cases result
      · cases result
        exact insertKey_ne_nil _ _
    | some arrElt =>
      simp only [array] at result
      obtain ⟨entry, entries, split⟩ := List.exists_cons_of_ne_nil (entriesOf_ne_nil arrElt)
      rw [split, List.foldlM_cons, except_bind_eq_ok] at result
      obtain ⟨before, first, rest⟩ := result
      exact foldlM_invariant (P := (· ≠ [])) rest (ih first) fun _ _ _ _ _ round => ih round

theorem getKeys_eq_ok (result : getKeys fieldNames sparse doc = .ok keys) :
    getKeysLoop sparse (roundsFor (fieldNames.map fun name => ⟨name, none⟩))
      (fieldNames.map fun name => ⟨name, none⟩) (.document doc) .empty 0 [] = .ok keys := by
  rw [getKeys, except_bind_eq_ok] at result
  obtain ⟨made, loop, result⟩ := result
  cases sparse with
  | true =>
    rw [if_neg (by simp)] at result
    cases result
    exact loop
  | false =>
    have some_key := getKeysLoop_ne_nil loop
    rw [if_neg (by simpa using some_key)] at result
    cases result
    exact loop

/-- A top-level name alone gives the value it leads to, unless that is an array. -/
theorem getKeys_of_plain (named : name ≠ []) (found : lookup name 0 doc = some (j, v))
    (plain : isArray v = false) : getKeys [[name]] false doc = .ok [[v]] := by
  have more : Path.done [name] = false := by simpa [Path.done] using named
  simp [getKeys, roundsFor, getKeysLoop, extractSlots, extractSlot, more,
    extractNextElement_plain found, plain, insertKey, bind, Except.bind, pure, Except.pure]

end TokuMX.Collection
