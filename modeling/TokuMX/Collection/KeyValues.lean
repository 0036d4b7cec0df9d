import TokuMX.Collection.KeyGenerator

/-!
What the keys of a document say about its top-level fields.

A key has a value for each field name of the index. For a top-level name that is the value
of the first field of that name, if it has one that is no array, and null if there is no
such field. For an array it is an entry of the array, or undefined if the array is empty,
and so never the array.
-/

namespace TokuMX.Collection

open TokuMX.Lib TokuMX.BSON

variable {obj arr : Container} {doc : Fields} {fieldNames : List Path} {sparse : Bool}
variable {keys : List (List Value)} {k : List Value} {name : List UInt8} {i j : Nat} {v : Value}

theorem length_of_mapM_fixed {outs : List (Slot × Bool)} {key : List Value}
    (made : (outs.mapM fun s => s.1.fixed) = some key) : key.length = outs.length :=
  (forall₂_of_mapM made).length_eq.symm

theorem length_of_mem_getKeys (result : getKeys fieldNames sparse doc = .ok keys) (mem : k ∈ keys) :
    k.length = fieldNames.length := by
  refine (keys_made (P := fun slots => slots.length = fieldNames.length)
    (Q := fun outs => outs.length = fieldNames.length) (R := fun k => k.length = fieldNames.length)
    (fun same steps => steps.length_eq ▸ same) (fun _ _ _ same => by simpa [fixEntry] using same)
    (fun same made => (length_of_mapM_fixed made).trans same) (fun found pass => ?_)
    (getKeys_eq_ok result) k mem).resolve_left (by simp)
  simpa using (extractSlots_spec pass).1.length_eq.symm

/-! ### Slots that have come to their end -/

/-- What a slot has at its end is in every key that is made. -/
theorem keys_settled {slots : List Slot} {slot : Slot} {rounds n : Nat}
    {keys keys' : List (List Value)} (here : slots[i]? = some slot)
    (done : slot.name.done = true)
    (result : getKeysLoop sparse rounds slots obj arr n keys = .ok keys') :
    ∀ k ∈ keys', k ∈ keys ∨ ∃ v, slot.fixed = some v ∧ k[i]? = some v := by
  refine keys_made (P := fun slots => slots[i]? = some slot)
    (Q := fun outs => outs[i]? = some (slot, false))
    (fun here steps => steps_settled here done steps)
    (fun entry array mayExpand here => fixEntry_settled here entry array mayExpand)
    (fun {outs key} here made => ?_)
    (fun found pass => steps_settled here done (extractSlots_spec pass).1) result
  obtain ⟨bound, eq⟩ := List.getElem?_eq_some_iff.mp here
  have all := forall₂_of_mapM made
  have bound' : i < key.length := all.length_eq ▸ bound
  have value : outs[i].1.fixed = some key[i] := all.get bound bound'
  rw [eq] at value
  exact ⟨key[i], value, List.getElem?_eq_getElem bound'⟩

/-- A name that is empty from the start has no value to put into a key. -/
theorem named_of_mem_getKeys (result : getKeys fieldNames sparse doc = .ok keys) (mem : k ∈ keys)
    (at_i : fieldNames[i]? = some [name]) : name ≠ [] := by
  rintro rfl
  have here : (fieldNames.map fun name => (⟨name, none⟩ : Slot))[i]? = some ⟨[[]], none⟩ := by
    simp [at_i]
  have none := keys_settled here rfl (getKeys_eq_ok result) k mem
  simp at none

/-! ### Arrays -/

/-- The value of an element at the place. -/
def valueAt : List Nat → Value → Option Value
  | [], v => some v
  | i :: place, v => (embeddedObject v).values[i]?.bind (valueAt place)

theorem values_of_lookup {fields : Fields} {n : Nat} (found : lookup name n fields = some (j, v)) :
    n ≤ j ∧ fields.values[j - n]? = some v := by
  fun_induction lookup name n fields with
  | case1 => cases found
  | case2 n value rest =>
    cases found
    simp [Fields.values]
  | case3 n other value rest _ ih =>
    obtain ⟨bound, there⟩ := ih found
    have index : j - n = j - (n + 1) + 1 := by omega
    exact ⟨by omega, by simpa [Fields.values, index] using there⟩

theorem valueAt_append (place : List Nat) (v : Value) :
    valueAt (place ++ [i]) v = (valueAt place v).bind fun u => (embeddedObject u).values[i]? := by
  induction place generalizing v with
  | nil => simp [valueAt]
  | cons n place ih =>
    simp only [List.cons_append, valueAt, Option.bind_assoc]
    exact Option.bind_congr fun u _ => ih u

variable {root u : Value} {c : Container} {e : Located} {path rest : Path}

theorem valueAt_getField (place : valueAt c.place root = some u)
    (here : embeddedObject u = c.fields) (found : c.getField name = some e) :
    valueAt e.place root = some e.value := by
  obtain ⟨⟨j, v⟩, first, rfl⟩ := Option.map_eq_some_iff.mp found
  rw [valueAt_append, place]
  simpa [here] using (values_of_lookup first).2

/-- An element that is found lies at its place. -/
theorem valueAt_getFieldDottedOrArray (place : valueAt c.place root = some u)
    (here : embeddedObject u = c.fields)
    (found : getFieldDottedOrArray path c = (some e, rest)) :
    valueAt e.place root = some e.value := by
  fun_induction getFieldDottedOrArray path c generalizing u with
  | case1 => cases found
  | case2 => cases found
  | case3 _ _ _ sub inside =>
    cases found
    exact valueAt_getField place here inside
  | case4 _ _ _ sub inside _ fields isObject ih =>
    have there := valueAt_getField place here inside
    exact ih (isObject ▸ there) rfl found
  | case5 => cases found

theorem sizeOf_lt_of_mem_values {fields : Fields} (mem : v ∈ fields.values) :
    sizeOf v < sizeOf fields := by
  fun_induction Fields.values fields with
  | case1 => cases mem
  | case2 name value rest ih =>
    rw [Fields.cons.sizeOf_spec]
    rcases List.mem_cons.mp mem with rfl | mem
    · omega
    · have := ih mem
      omega

/-- The entries keys are made for are inside the array. -/
theorem entry_ne_array {array : Located} {entry : Value × List Nat} (isArray : isArray array.value)
    (mem : entry ∈ entriesOf array) : entry.1 ≠ array.value := by
  obtain ⟨place, name, value⟩ := array
  cases value with
  | array fields =>
    intro same
    cases fields with
    | nil =>
      simp only [entriesOf, embeddedObject, List.mem_singleton] at mem
      simp [mem] at same
    | cons n v rest =>
      simp only [entriesOf, embeddedObject, List.mem_map] at mem
      obtain ⟨⟨w, m⟩, mem, rfl⟩ := mem
      have there := List.mem_of_getElem? (List.mem_zipIdx_iff_getElem?.mp mem)
      have smaller := sizeOf_lt_of_mem_values there
      rw [show w = _ from same, Value.array.sizeOf_spec] at smaller
      omega
  | _ => cases isArray

/-! ### The first pass -/

/-- There is no array around the document. -/
theorem extractNextElement_document {nested : Bool} {e : Option Located}
    (found : extractNextElement (.document doc) .empty path = .ok (e, rest, nested)) :
    nested = false ∧ ∀ a, e = some a → valueAt a.place (.object doc) = some a.value := by
  have outside : Container.empty.getField (path.headD []) = none := rfl
  unfold extractNextElement at found
  simp only [outside] at found
  cases first : (Container.document doc).getField (path.headD []) with
  | none =>
    simp only [first] at found
    cases found
    exact ⟨rfl, by simp⟩
  | some sub =>
    simp only [first, Except.ok.injEq, Prod.mk.injEq] at found
    refine ⟨found.2.2.symm, fun a eq => ?_⟩
    have inside : getFieldDottedOrArray path (.document doc) = (some a, rest) :=
      Prod.ext (found.1.trans eq) found.2.1
    exact valueAt_getFieldDottedOrArray (c := .document doc) rfl rfl inside

/-- The first pass stops at an array of the document, whose entries may be taken. -/
theorem extractSlots_array {slots : List Slot} {found : Extracted} {n : Nat}
    (pass : extractSlots (.document doc) .empty n slots = .ok found) :
    found.mayExpandArrayUnembedded = true ∧
      ∀ a, found.arrElt = some a → valueAt a.place (.object doc) = some a.value := by
  refine foldlM_invariant (P := fun acc : Extracted => acc.mayExpandArrayUnembedded = true ∧
    ∀ a, acc.arrElt = some a → valueAt a.place (.object doc) = some a.value) pass
    ⟨rfl, by simp⟩ ?_
  rintro slot - acc acc' ⟨expand, placed⟩ round
  unfold extractSlot at round
  split_ifs at round
  · cases round
    exact ⟨expand, placed⟩
  · obtain ⟨⟨e, rest, nested⟩, found, round⟩ := except_bind_eq_ok.mp round
    obtain ⟨rfl, there⟩ := extractNextElement_document found
    cases e with
    | none =>
      cases round
      exact ⟨expand, placed⟩
    | some e =>
      dsimp only at round
      split_ifs at round
      · cases first : acc.arrElt with
        | none =>
          simp only [first] at round
          cases round
          exact ⟨by simpa using expand, there⟩
        | some a =>
          simp only [first] at round
          split_ifs at round
          cases round
          exact ⟨by simpa using expand, first ▸ placed⟩
      · cases round
        exact ⟨expand, placed⟩

/-! ### Top-level names -/

/-- What a key may have for a top-level name. -/
inductive KeyHas (doc : Fields) (name : List UInt8) : Value → Prop where
  | missing (nowhere : lookup name 0 doc = none) : KeyHas doc name .null
  | plain {j : Nat} {v : Value} (found : lookup name 0 doc = some (j, v))
      (plain : isArray v = false) : KeyHas doc name v
  | entry {j : Nat} {v u : Value} (found : lookup name 0 doc = some (j, v))
      (array : isArray v = true) (inside : u ≠ v) : KeyHas doc name u

theorem extractNextElement_missing (nowhere : lookup name 0 doc = none) :
    extractNextElement (.document doc) .empty [name] = .ok (none, [name], false) := by
  simp [extractNextElement, Container.getField, Container.document, Container.empty, lookup,
    nowhere]

theorem keyHas_of_mem_getKeys (result : getKeys fieldNames sparse doc = .ok keys) (mem : k ∈ keys)
    (at_i : fieldNames[i]? = some [name]) : ∃ u, k[i]? = some u ∧ KeyHas doc name u := by
  have named := named_of_mem_getKeys result mem at_i
  have more : Path.done [name] = false := by simpa [Path.done] using named
  have loop := getKeys_eq_ok result
  cases found : lookup name 0 doc with
  | none =>
    refine ⟨.null, ?_, .missing found⟩
    refine (keys_fixed (fun pass extracted => ?_) loop k mem).resolve_left (by simp)
    obtain ⟨out, here, step⟩ := extractSlots_topLevel at_i extracted
    have next := extractNextElement_missing found
    refine ⟨⟨[], some .null⟩, here.trans (congrArg some ?_), rfl, rfl⟩
    cases step with
    | done done => simp [more] at done
    | missing => rfl
    | stopped _ other => simp [next] at other
    | value _ other => simp [next] at other
  | some there =>
    obtain ⟨j, v⟩ := there
    cases array : isArray v with
    | false => exact ⟨v, getKeysLoop_pinned at_i named found array loop k mem, .plain found array⟩
    | true =>
      rw [roundsFor, getKeysLoop, except_bind_eq_ok] at loop
      obtain ⟨pass, extracted, loop⟩ := loop
      obtain ⟨expand, placed⟩ := extractSlots_array extracted
      obtain ⟨out, here, step⟩ := extractSlots_topLevel at_i extracted
      have next := extractNextElement_plain found
      cases step with
      | done done => simp [more] at done
      | missing _ other => simp [next] at other
      | value _ other notArray =>
        cases next.symm.trans other
        simp [array] at notArray
      | @stopped e arrElt rest nested _ other _ same place =>
        cases next.symm.trans other
        -- Whichever name stopped first, it did so at this array.
        have value : arrElt.value = v := by
          have inside := placed arrElt same
          rw [← place, valueAt] at inside
          have there : doc.values[j]? = some v := (values_of_lookup found).2
          simpa [valueAt, embeddedObject, there] using inside.symm
        simp only [same, expand, Bool.true_or] at loop
        refine (foldlM_invariant (P := fun made => ∀ k ∈ made,
          ∃ u, k[i]? = some u ∧ KeyHas doc name u) loop (by simp) ?_) k mem
        intro entry inEntries before after kept round k mem
        have taken : (fixEntry entry.1 arrElt.value true pass.slots)[i]? =
            some ⟨[], some entry.1⟩ := by simp [fixEntry, here, Path.done]
        rcases keys_settled taken rfl round k mem with old | ⟨u, fixed, new⟩
        · exact kept k old
        · cases fixed
          refine ⟨_, new, .entry found array ?_⟩
          rw [← value]
          exact entry_ne_array (value ▸ array) inEntries

/-! ### What a key tells of the fields of a name -/

theorem mem_pairs_of_lookup {fields : Fields} {n : Nat}
    (found : lookup name n fields = some (j, v)) :
    (name, v) ∈ fields.pairs := by
  fun_induction lookup name n fields with
  | case1 => cases found
  | case2 n value rest =>
    cases found
    exact .head _
  | case3 n other value rest _ ih => exact .tail _ (ih found)

theorem notMem_pairs_of_lookup {fields : Fields} {n : Nat} (nowhere : lookup name n fields = none)
    (v : Value) : (name, v) ∉ fields.pairs := by
  fun_induction lookup name n fields with
  | case1 => simp [Fields.pairs]
  | case2 => cases nowhere
  | case3 n other value rest ne ih =>
    simp only [Fields.pairs, List.mem_cons, Prod.mk.injEq, not_or, not_and]
    exact ⟨fun same => absurd same.symm ne, ih nowhere⟩

/-- The document has fields of the name, all with this value. -/
def OnlyValue (doc : Fields) (name : List UInt8) (v : Value) : Prop :=
  ∀ u, (name, u) ∈ doc.pairs ↔ u = v

/-- The values that keys have for a name are those of the fields of that name exactly if
these are one value, and no array. -/
theorem keyHas_iff_onlyValue {held : Value → Prop} (some_held : ∃ u, held u)
    (holds : ∀ u, held u → KeyHas doc name u) :
    (∀ u, held u ↔ (name, u) ∈ doc.pairs) ↔ ∃ v, OnlyValue doc name v ∧ isArray v = false := by
  constructor
  · intro same
    obtain ⟨u, here⟩ := some_held
    cases holds u here with
    | missing nowhere => exact absurd ((same _).mp here) (notMem_pairs_of_lookup nowhere _)
    | plain found plain =>
      refine ⟨u, fun w => ⟨fun mem => ?_, ?_⟩, plain⟩
      · cases holds w ((same w).mpr mem) with
        | missing nowhere => simp [found] at nowhere
        | plain found' =>
          cases found.symm.trans found'
          rfl
        | entry found' array =>
          cases found.symm.trans found'
          simp [plain] at array
      · rintro rfl
        exact (same _).mp here
    | @entry j v _ found array inside =>
      -- The array itself is in no key.
      have held := (same v).mpr (mem_pairs_of_lookup found)
      cases holds v held with
      | missing nowhere => simp [found] at nowhere
      | plain _ plain => simp [plain] at array
      | entry found' _ inside' =>
        cases found.symm.trans found'
        exact absurd rfl inside'
  · rintro ⟨v, only, plain⟩ u
    have first : ∀ {j w}, lookup name 0 doc = some (j, w) → w = v :=
      fun found => (only _).mp (mem_pairs_of_lookup found)
    have held_eq : ∀ {u}, held u → u = v := by
      intro u here
      cases holds u here with
      | missing nowhere => exact absurd ((only v).mpr rfl) (notMem_pairs_of_lookup nowhere _)
      | plain found => exact first found
      | entry found array =>
        rw [first found, plain] at array
        cases array
    rw [only u]
    refine ⟨held_eq, ?_⟩
    rintro rfl
    obtain ⟨w, here⟩ := some_held
    exact held_eq here ▸ here

end TokuMX.Collection
