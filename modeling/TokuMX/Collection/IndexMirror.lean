import TokuMX.Collection.IndexWrites

/-!
The rows of the indexes and the documents of a collection.

* `MirrorsIndex` is what an index is for: its rows are the keys of the documents with
  their primary keys, and in a unique index no two documents share a key.
* `Write.Tame` says that the comparisons order the keys at hand: the one of the stored
  keys is a total preorder on them and finds those equal that `woCompare` does.
* `indexes_mirror_documents`: every run of tame calls keeps the mirror.
* `shared_keys`: runs that do not. A double is equal to two longs that are not equal to
  each other, so an update may pass from the one to the other without a check; and a
  stored long that reads as a NaN is not equal to itself.
-/

namespace TokuMX.Collection.Indexed

open TokuMX.Lib TokuMX.BSON Exec

/-! ### Mirrors -/

/-- The document generates the key. -/
def HasKey (spec : IndexSpec) (obj : Fields) (k : IndexKey) : Prop :=
  ∃ keys, spec.getKeysFromObject obj = .ok keys ∧ k ∈ keys

/-- The rows are the pairs of keys and primary keys of the documents, up to `woCompare`,
and in a unique index no two documents have a key in common. -/
structure MirrorsIndex (spec : IndexSpec) (docs : List (IndexKey × Fields)) (rows : List Row) :
    Prop where
  sound : ∀ row ∈ rows, ∃ obj, (row.2, obj) ∈ docs ∧
    ∃ k, HasKey spec obj k ∧ compareObjs row.1 k = 0
  complete : ∀ pk obj, (pk, obj) ∈ docs → ∀ k, HasKey spec obj k →
    ∃ row ∈ rows, row.2 = pk ∧ compareObjs row.1 k = 0
  unique : spec.unique = true → ∀ a ∈ docs, ∀ b ∈ docs, ∀ k l,
    HasKey spec a.2 k → HasKey spec b.2 l → compareObjs k l = 0 → a = b

/-! ### Keys that the comparisons order -/

/-- Stored keys are ordered, and equal when their objects are. -/
structure TameKeys (order : BSON.Ordering) (S : Set IndexKey) : Prop where
  stored : ComparesOn (storedCompare order) S
  agree : ∀ a ∈ S, ∀ b ∈ S, (storedCompare order a b = 0 ↔ compareObjs a b = 0)

namespace TameKeys

variable {order : BSON.Ordering} {S T : Set IndexKey} {a b c : IndexKey}

theorem mono (tame : TameKeys order S) (sub : T ⊆ S) : TameKeys order T :=
  ⟨tame.stored.mono sub, fun a ha b hb => tame.agree a (sub ha) b (sub hb)⟩

theorem refl (tame : TameKeys order S) (ha : a ∈ S) : compareObjs a a = 0 :=
  (tame.agree a ha a ha).mp (tame.stored.refl ha)

theorem symm (tame : TameKeys order S) (ha : a ∈ S) (hb : b ∈ S) (same : compareObjs a b = 0) :
    compareObjs b a = 0 :=
  (tame.agree b hb a ha).mp (tame.stored.symm ha hb ((tame.agree a ha b hb).mpr same))

theorem trans (tame : TameKeys order S) (ha : a ∈ S) (hb : b ∈ S) (hc : c ∈ S)
    (left : compareObjs a b = 0) (right : compareObjs b c = 0) : compareObjs a c = 0 :=
  (tame.agree a ha c hc).mp (tame.stored.eq_trans ha hb hc
    ((tame.agree a ha b hb).mpr left) ((tame.agree b hb c hc).mpr right))

end TameKeys

/-- The keys in the rows and those of the documents. -/
def keysAt (spec : IndexSpec) (objs : List Fields) (rows : List Row) : Set IndexKey :=
  {k | (∃ row ∈ rows, row.1 = k) ∨ ∃ obj ∈ objs, HasKey spec obj k}

/-- The primary keys in use and those of the documents. -/
def pksAt (schema : Schema) (docs : List (IndexKey × Fields)) (objs : List Fields) : Set IndexKey :=
  {pk | (∃ d ∈ docs, d.1 = pk) ∨ ∃ obj ∈ objs, schema.getValidatedPKFromObject obj = .ok pk}

/-- The comparisons order the keys of the collection and of the documents `news`. -/
structure Tame (schema : Schema) (s : State) (news : List Fields) : Prop where
  indexes : List.Forall₂ (fun spec rows => TameKeys spec.ordering
    (keysAt spec (s.docs.map Prod.snd ++ news) rows)) schema.secondary s.rows
  pks : TameKeys schema.pkOrdering (pksAt schema s.docs (s.docs.map Prod.snd ++ news))
  pkRows : ComparesOn compareObjs (pksAt schema s.docs (s.docs.map Prod.snd ++ news))

/-- The documents a call brings. -/
def Write.news : Write → List Fields
  | .insert _ oid obj => [addIdField oid obj]
  | .update _ _ oldObj newObj =>
    match inheritIdField oldObj newObj with
    | .ok obj => [obj]
    | .error _ => []
  | .delete .. => []

/-- The documents generate the same keys. -/
def KeysAgree (spec : IndexSpec) (oldObj newObj : Fields) : Prop :=
  (∀ k, HasKey spec oldObj k → ∃ l, HasKey spec newObj l ∧ compareObjs k l = 0) ∧
    ∀ l, HasKey spec newObj l → ∃ k, HasKey spec oldObj k ∧ compareObjs k l = 0

/-- Callers keep uniqueness checks on, name documents that are there, give the
keys-unaffected hint only when it is true, and do not insert an array as `_id`. -/
def Write.Valid (schema : Schema) (s : State) : Write → Prop
  | .insert env _ obj => env.noUniqueChecks = false ∧ ∀ v, idOf obj = some v → isArray v = false
  | .update env pk oldObj newObj => env.noUniqueChecks = false ∧ (pk, oldObj) ∈ s.docs ∧
      (env.keysUnaffected = true → ∀ obj, inheritIdField oldObj newObj = .ok obj →
        ∀ spec ∈ schema.secondary, KeysAgree spec oldObj obj)
  | .delete _ pk obj => (pk, obj) ∈ s.docs

/-- The `_id` index a collection has. -/
def IsIdIndex (spec : IndexSpec) : Prop :=
  spec.fieldNames = [[idName]] ∧ spec.unique = true ∧ spec.sparse = false

/-- A primary key other than `_id` ends in `_id`, and there is a unique index on it. -/
def Schema.WellFormed (schema : Schema) : Prop :=
  schema.idPrimaryKey = false →
    schema.pkFields.getLast? = some [idName] ∧ ∃ spec ∈ schema.secondary, IsIdIndex spec

/-! ### Dictionaries -/

variable {l : IndexKey} {P : Set IndexKey}

section Dictionary

variable {order : BSON.Ordering} {pk key : IndexKey} {keys : List IndexKey} {rows : List Row}
  {row : Row}

theorem compareRows_eq_zero {a b : Row} : compareRows order a b = 0 ↔
    storedCompare order a.1 b.1 = 0 ∧ compareObjs a.2 b.2 = 0 := comparePairs_eq_zero

theorem mem_putRow {a : Row} : a ∈ putRow order row rows ↔
    a = row ∨ a ∈ rows ∧ compareRows order a row ≠ 0 := by
  simp [putRow, or_comm]

theorem mem_delKeys : row ∈ delKeys order pk keys rows ↔
    row ∈ rows ∧ ∀ k ∈ keys, compareRows order row (k, pk) ≠ 0 := by
  induction keys generalizing rows with
  | nil => simp [delKeys]
  | cons k keys ih =>
    have step : delKeys order pk (k :: keys) rows =
      delKeys order pk keys (delRow order (k, pk) rows) := rfl
    rw [step, ih]
    simp [delRow, and_assoc]

/-- A row of the result was there or is new. -/
theorem mem_putKeys (mem : row ∈ putKeys order pk keys rows) :
    row ∈ rows ∨ ∃ k ∈ keys, row = (k, pk) := by
  induction keys generalizing rows with
  | nil => exact .inl mem
  | cons k keys ih =>
    rcases ih mem with before | ⟨l, hl, eq⟩
    · rcases mem_putRow.mp before with rfl | ⟨old, -⟩
      · exact .inr ⟨k, .head _, rfl⟩
      · exact .inl old
    · exact .inr ⟨l, .tail _ hl, eq⟩

/-- A row that no new one is equal to stays. -/
theorem putKeys_kept (mem : row ∈ rows) (other : ∀ k ∈ keys, compareRows order row (k, pk) ≠ 0) :
    row ∈ putKeys order pk keys rows := by
  induction keys generalizing rows with
  | nil => exact mem
  | cons k keys ih =>
    exact ih (mem_putRow.mpr (.inr ⟨mem, other k (.head _)⟩)) fun l hl => other l (.tail _ hl)

/-- Every key gets its row. -/
theorem putKeys_has {S : Set IndexKey} (tame : TameKeys order S) (sub : ∀ k ∈ keys, k ∈ S)
    (mem : key ∈ keys) :
    ∃ k ∈ keys, (k, pk) ∈ putKeys order pk keys rows ∧ compareObjs k key = 0 := by
  induction keys using List.reverseRecOn with
  | nil => cases mem
  | append_singleton keys last ih =>
    have inside : ∀ k ∈ keys, k ∈ S := fun k hk => sub k (List.mem_append_left _ hk)
    have hlast : last ∈ S := sub last (by simp)
    have step : putKeys order pk (keys ++ [last]) rows =
        putRow order (last, pk) (putKeys order pk keys rows) := by
      simp [putKeys]
    simp only [step, mem_putRow]
    rcases List.mem_append.mp mem with mem | mem
    · obtain ⟨k, hk, put, same⟩ := ih inside mem
      -- The row stays unless the last key takes its place, which is then equal to it.
      by_cases replaced : compareRows order (k, pk) (last, pk) = 0
      · have eq := (tame.agree k (inside k hk) last hlast).mp (compareRows_eq_zero.mp replaced).1
        exact ⟨last, by simp, .inl rfl, tame.trans hlast (inside k hk) (inside key mem)
          (tame.symm (inside k hk) hlast eq) same⟩
      · exact ⟨k, List.mem_append_left _ hk, .inr ⟨put, replaced⟩, same⟩
    · obtain rfl := List.mem_singleton.mp mem
      exact ⟨key, by simp, .inl rfl, tame.refl hlast⟩

/-- Keys are equal when their fields are. -/
theorem compareObjs_eq_zero {r : IndexKey} :
    compareObjs l r = 0 ↔ List.Forall₂ (fun a b => a.woCompare b = 0) l r := by
  rw [compareObjs, BSON.woCompare, woCompareLoop_ascending, compareLists_eq_zero]

theorem compareObjs_minKey {pk : IndexKey} (some_field : pk ≠ []) :
    0 ≤ compareObjs pk [.minKey] := by
  obtain ⟨v, rest, rfl⟩ := List.exists_cons_of_ne_nil some_field
  rw [compareObjs, BSON.woCompare, woCompareLoop_ascending, compareLists]
  split_ifs
  · exact woCompare_minKey v
  · cases rest <;> simp [compareLists]

/-- A check that passes has found no row with the key. -/
theorem not_mem_of_uniqueCheck {S : Set IndexKey} (stored : ComparesOn (storedCompare order) S)
    (pks : ComparesOn compareObjs P) (inside : ∀ row ∈ rows, row.1 ∈ S ∧ row.2 ∈ P ∧ row.2 ≠ [])
    (hkey : key ∈ S) (passed : uniqueCheck order key rows = true) :
    ∀ row ∈ rows, storedCompare order row.1 key ≠ 0 := by
  intro row mem same
  let candidates := rows.filter (0 ≤ compareRows order · (key, [.minKey]))
  have candidate : row ∈ candidates := by
    refine List.mem_filter.mpr ⟨mem, decide_eq_true ?_⟩
    rw [compareRows, comparePairs_of_first same]
    exact compareObjs_minKey (inside row mem).2.2
  have law : ComparesOn (compareRows order) {a | a ∈ candidates} := by
    refine (stored.lex pks).mono fun a ha => ?_
    have := inside a (List.mem_filter.mp ha).1
    exact ⟨this.1, this.2.1⟩
  cases found : least (compareRows order) candidates with
  | none => simp [least_eq_none.mp found] at candidate
  | some first =>
    obtain ⟨hfirst, before⟩ := least_spec law found
    obtain ⟨hrow, notBefore⟩ := List.mem_filter.mp hfirst
    -- The first row is between the start and `row`, so it has the key too.
    have low : 0 ≤ storedCompare order first.1 key :=
      first_nonneg_of_comparePairs (of_decide_eq_true notBefore)
    have high : storedCompare order first.1 row.1 ≤ 0 := by
      have := comparePairs_nonpos.mp (before row candidate)
      omega
    have le := stored.trans first.1 (inside first hrow).1 row.1 (inside row mem).1 key hkey high
      same.le
    have hit : setRange order (key, [.minKey]) rows = some first := found
    simp only [uniqueCheck, hit, decide_eq_true_eq] at passed
    omega

end Dictionary

/-! ### One index -/

variable {order : BSON.Ordering} {k : IndexKey} {d : IndexKey × Fields}

section Index

variable {spec : IndexSpec} {docs docs' : List (IndexKey × Fields)} {rows rows' : List Row}
  {pk : IndexKey} {obj oldObj newObj : Fields} {keys oldKeys newKeys : List IndexKey}

/-- A document takes the place of the one with its primary key, if there is one. -/
def Replaces (docs docs' : List (IndexKey × Fields)) (pk : IndexKey) (obj : Fields) : Prop :=
  ∀ d, d ∈ docs' ↔ d = (pk, obj) ∨ d ∈ docs ∧ compareObjs d.1 pk ≠ 0

/-- No two documents have one primary key. -/
def Distinct (docs : List (IndexKey × Fields)) : Prop :=
  ∀ a ∈ docs, ∀ b ∈ docs, compareObjs a.1 b.1 = 0 → a = b

def Differ (k l : IndexKey) : Prop := compareObjs k l ≠ 0 ∧ compareObjs l k ≠ 0

/-- In a unique index no other document has one of the keys. -/
def Unshared (spec : IndexSpec) (docs : List (IndexKey × Fields)) (pk : IndexKey) (obj : Fields) :
    Prop :=
  spec.unique = true → ∀ d ∈ docs, compareObjs d.1 pk ≠ 0 → ∀ k l,
    HasKey spec obj k → HasKey spec d.2 l → Differ k l

theorem MirrorsIndex.put (mirrors : MirrorsIndex spec docs rows)
    (stored : Replaces docs docs' pk obj)
    (source : ∀ row ∈ rows', row ∈ rows ∧ compareObjs row.2 pk ≠ 0 ∨
      row.2 = pk ∧ ∃ k, HasKey spec obj k ∧ compareObjs row.1 k = 0)
    (new : ∀ k, HasKey spec obj k → ∃ row ∈ rows', row.2 = pk ∧ compareObjs row.1 k = 0)
    (kept : ∀ row ∈ rows, compareObjs row.2 pk ≠ 0 → row ∈ rows')
    (apart : Unshared spec docs pk obj) : MirrorsIndex spec docs' rows' where
  sound row mem := by
    rcases source row mem with ⟨old, other⟩ | ⟨same, k, hk, eq⟩
    · obtain ⟨d, hd, k, hk, eq⟩ := mirrors.sound row old
      exact ⟨d, (stored _).mpr (.inr ⟨hd, other⟩), k, hk, eq⟩
    · exact ⟨obj, (stored _).mpr (.inl (by rw [same])), k, hk, eq⟩
  complete pk' obj' mem k hk := by
    rcases (stored _).mp mem with same | ⟨old, other⟩
    · cases same
      exact new k hk
    · obtain ⟨row, hrow, rfl, eq⟩ := mirrors.complete pk' obj' old k hk
      exact ⟨row, kept row hrow other, rfl, eq⟩
  unique isUnique a ha b hb k l hk hl eq := by
    rcases (stored a).mp ha with rfl | ⟨olda, othera⟩ <;>
      rcases (stored b).mp hb with rfl | ⟨oldb, otherb⟩
    · rfl
    · exact absurd eq (apart isUnique b oldb otherb k l hk hl).1
    · exact absurd eq (apart isUnique a olda othera l k hl hk).2
    · exact mirrors.unique isUnique a olda b oldb k l hk hl eq

theorem MirrorsIndex.remove (mirrors : MirrorsIndex spec docs rows)
    (stored : ∀ d, d ∈ docs' ↔ d ∈ docs ∧ compareObjs d.1 pk ≠ 0)
    (source : ∀ row ∈ rows', row ∈ rows ∧ compareObjs row.2 pk ≠ 0)
    (kept : ∀ row ∈ rows, compareObjs row.2 pk ≠ 0 → row ∈ rows') :
    MirrorsIndex spec docs' rows' where
  sound row mem := by
    obtain ⟨old, other⟩ := source row mem
    obtain ⟨d, hd, k, hk, eq⟩ := mirrors.sound row old
    exact ⟨d, (stored _).mpr ⟨hd, other⟩, k, hk, eq⟩
  complete pk' obj' mem k hk := by
    obtain ⟨old, other⟩ := (stored _).mp mem
    obtain ⟨row, hrow, rfl, eq⟩ := mirrors.complete pk' obj' old k hk
    exact ⟨row, kept row hrow other, rfl, eq⟩
  unique isUnique a ha b hb := mirrors.unique isUnique a ((stored a).mp ha).1 b ((stored b).mp hb).1

theorem compareRows_of_pk {row : Row} (other : compareObjs row.2 pk ≠ 0) (k : IndexKey) :
    compareRows order row (k, pk) ≠ 0 := fun same =>
  other (compareRows_eq_zero.mp same).2

/-- A row of the updated document has one of its keys. -/
theorem MirrorsIndex.row_of_pk (mirrors : MirrorsIndex spec docs rows) (distinct : Distinct docs)
    (old : (pk, oldObj) ∈ docs) {row : Row} (hrow : row ∈ rows) (same : compareObjs row.2 pk = 0) :
    row.2 = pk ∧ ∃ k, HasKey spec oldObj k ∧ compareObjs row.1 k = 0 := by
  obtain ⟨d, hd, k, hk, eq⟩ := mirrors.sound row hrow
  cases distinct _ hd _ old same
  exact ⟨rfl, k, hk, eq⟩

section Tame

variable {news : List Fields} (tame : TameKeys spec.ordering (keysAt spec news rows))

include tame

/-- A key that passes the check is in no row, up to `woCompare`. -/
theorem not_hasRow_of_uniqueCheck (pks : ComparesOn compareObjs P)
    (inP : ∀ row ∈ rows, row.2 ∈ P ∧ row.2 ≠ []) (mem : obj ∈ news) (hk : HasKey spec obj k)
    (passed : uniqueCheck spec.ordering k rows = true) : ∀ row ∈ rows, compareObjs row.1 k ≠ 0 := by
  have hkey : k ∈ keysAt spec news rows := .inr ⟨obj, mem, hk⟩
  intro row hrow same
  have hrow' : row.1 ∈ keysAt spec news rows := .inl ⟨row, hrow, rfl⟩
  exact not_mem_of_uniqueCheck tame.stored pks
    (fun row hrow => ⟨.inl ⟨row, hrow, rfl⟩, (inP row hrow)⟩) hkey passed row hrow
    ((tame.agree _ hrow' _ hkey).mpr same)

/-- If no row has a key of the new document, no other document does. -/
theorem apart_of_not_hasRow (mirrors : MirrorsIndex spec docs rows) (sub : ∀ d ∈ docs, d.2 ∈ news)
    (mem : obj ∈ news) (hd : d ∈ docs) (hk : HasKey spec obj k) (hl : HasKey spec d.2 l)
    (none : ∀ row ∈ rows, compareObjs row.1 k ≠ 0) : Differ k l := by
  have hkey : k ∈ keysAt spec news rows := .inr ⟨obj, mem, hk⟩
  have hlkey : l ∈ keysAt spec news rows := .inr ⟨d.2, sub d hd, hl⟩
  obtain ⟨row, hrow, -, same⟩ := mirrors.complete d.1 d.2 hd l hl
  have hrow' : row.1 ∈ keysAt spec news rows := .inl ⟨row, hrow, rfl⟩
  have other : compareObjs l k ≠ 0 := fun eq =>
    none row hrow (tame.trans hrow' hlkey hkey same eq)
  exact ⟨fun eq => other (tame.symm hkey hlkey eq), other⟩

/-- If the old document has the key, no other document does. -/
theorem apart_of_old (mirrors : MirrorsIndex spec docs rows) (isUnique : spec.unique = true)
    (sub : ∀ d ∈ docs, d.2 ∈ news) (mem : newObj ∈ news) (old : (pk, oldObj) ∈ docs)
    (hd : d ∈ docs) (other : d ≠ (pk, oldObj)) {o : IndexKey} (hk : HasKey spec newObj k)
    (hl : HasKey spec d.2 l) (ho : HasKey spec oldObj o) (same : compareObjs o k = 0) :
    Differ k l := by
  have hkey : k ∈ keysAt spec news rows := .inr ⟨newObj, mem, hk⟩
  have hlkey : l ∈ keysAt spec news rows := .inr ⟨d.2, sub d hd, hl⟩
  have hokey : o ∈ keysAt spec news rows := .inr ⟨oldObj, sub _ old, ho⟩
  have differ : compareObjs k l ≠ 0 := fun eq =>
    other (mirrors.unique isUnique _ old d hd o l ho hl (tame.trans hokey hkey hlkey same eq)).symm
  exact ⟨differ, fun eq => differ (tame.symm hlkey hkey eq)⟩

/-- The keys put are the keys of the document. -/
theorem putKeys_new (mem : obj ∈ news) (generated : spec.getKeysFromObject obj = .ok keys)
    (base : List Row) (k : IndexKey) (hk : HasKey spec obj k) :
    ∃ row ∈ putKeys spec.ordering pk keys base, row.2 = pk ∧ compareObjs row.1 k = 0 := by
  obtain ⟨made, again, hk⟩ := hk
  cases generated.symm.trans again
  obtain ⟨l, -, put, same⟩ := putKeys_has tame (fun l hl => .inr ⟨obj, mem, keys, generated, hl⟩) hk
  exact ⟨(l, pk), put, rfl, same⟩

section

variable (mirrors : MirrorsIndex spec docs rows)
include mirrors

theorem MirrorsIndex.insert (mem : obj ∈ news) (generated : spec.getKeysFromObject obj = .ok keys)
    (stored : Replaces docs docs' pk obj) (fresh : ∀ d ∈ docs, compareObjs d.1 pk ≠ 0)
    (apart : Unshared spec docs pk obj) :
    MirrorsIndex spec docs' (putKeys spec.ordering pk keys rows) := by
  refine mirrors.put stored (fun row hrow => ?_) (putKeys_new tame mem generated rows)
    (fun row hrow other => putKeys_kept hrow fun k _ => compareRows_of_pk other k) apart
  rcases mem_putKeys hrow with old | ⟨k, hk, rfl⟩
  · obtain ⟨d, hd, -⟩ := mirrors.sound row old
    exact .inl ⟨old, fresh _ hd⟩
  · have hkey : HasKey spec obj k := ⟨keys, generated, hk⟩
    exact .inr ⟨rfl, k, hkey, tame.refl (.inr ⟨obj, mem, hkey⟩)⟩

variable (sub : ∀ d ∈ docs, d.2 ∈ news) (distinct : Distinct docs) (old : (pk, oldObj) ∈ docs)
include sub distinct old

theorem MirrorsIndex.update (mem : newObj ∈ news)
    (generatedOld : spec.getKeysFromObject oldObj = .ok oldKeys)
    (generatedNew : spec.getKeysFromObject newObj = .ok newKeys)
    (stored : Replaces docs docs' pk newObj) (apart : Unshared spec docs pk newObj) :
    MirrorsIndex spec docs' (updateKeys spec.ordering pk oldKeys newKeys rows) := by
  have newKey : ∀ k ∈ newKeys, HasKey spec newObj k := fun k hk => ⟨newKeys, generatedNew, hk⟩
  refine mirrors.put stored (fun row hrow => ?_) (putKeys_new tame mem generatedNew _) ?_ apart
  · rcases mem_putKeys hrow with before | ⟨k, hk, rfl⟩
    · obtain ⟨hrow, stays⟩ := mem_delKeys.mp before
      by_cases same : compareObjs row.2 pk = 0
      · obtain ⟨eq, k, hk, rowKey⟩ := mirrors.row_of_pk distinct old hrow same
        have hrow' : row.1 ∈ keysAt spec news rows := .inl ⟨row, hrow, rfl⟩
        have hk' : k ∈ keysAt spec news rows := .inr ⟨oldObj, sub _ old, hk⟩
        -- The row is still there, so its key is equal to one of the new keys.
        have survives : ∃ l ∈ newKeys, storedCompare spec.ordering k l = 0 := by
          by_contra none
          push Not at none
          obtain ⟨made, again, hk⟩ := hk
          cases generatedOld.symm.trans again
          refine stays k ?_ (compareRows_eq_zero.mpr ⟨(tame.agree _ hrow' _ hk').mpr rowKey, same⟩)
          exact List.mem_filter.mpr
            ⟨hk, List.all_eq_true.mpr fun l hl => decide_eq_true (none l hl)⟩
        obtain ⟨l, hl, equal⟩ := survives
        have hl' : l ∈ keysAt spec news rows := .inr ⟨newObj, mem, newKey l hl⟩
        exact .inr ⟨eq, l, newKey l hl, tame.trans hrow' hk' hl' rowKey
          ((tame.agree _ hk' _ hl').mp equal)⟩
      · exact .inl ⟨hrow, same⟩
    · exact .inr ⟨rfl, k, newKey k hk, tame.refl (.inr ⟨newObj, mem, newKey k hk⟩)⟩
  · intro row hrow other
    refine putKeys_kept ?_ fun k _ => compareRows_of_pk other k
    exact mem_delKeys.mpr ⟨hrow, fun k _ => compareRows_of_pk other k⟩

/-- The rows stay when the keys do. -/
theorem MirrorsIndex.unaffected (mem : newObj ∈ news) (agree : KeysAgree spec oldObj newObj)
    (stored : Replaces docs docs' pk newObj) (apart : Unshared spec docs pk newObj) :
    MirrorsIndex spec docs' rows := by
  have oldKey : ∀ k, HasKey spec oldObj k → k ∈ keysAt spec news rows := fun k hk =>
    .inr ⟨oldObj, sub _ old, hk⟩
  have newKey : ∀ k, HasKey spec newObj k → k ∈ keysAt spec news rows := fun k hk =>
    .inr ⟨newObj, mem, hk⟩
  refine mirrors.put stored (fun row hrow => ?_) (fun l hl => ?_) (fun row hrow _ => hrow) apart
  · by_cases same : compareObjs row.2 pk = 0
    · obtain ⟨eq, k, hk, rowKey⟩ := mirrors.row_of_pk distinct old hrow same
      obtain ⟨l, hl, equal⟩ := agree.1 k hk
      exact .inr ⟨eq, l, hl, tame.trans (.inl ⟨row, hrow, rfl⟩) (oldKey k hk) (newKey l hl) rowKey
        equal⟩
    · exact .inl ⟨hrow, same⟩
  · obtain ⟨k, hk, equal⟩ := agree.2 l hl
    obtain ⟨row, hrow, eq, rowKey⟩ := mirrors.complete pk oldObj old k hk
    exact ⟨row, hrow, eq, tame.trans (.inl ⟨row, hrow, rfl⟩) (oldKey k hk) (newKey l hl) rowKey
      equal⟩

theorem MirrorsIndex.delete (generated : spec.getKeysFromObject oldObj = .ok keys)
    (stored : ∀ d, d ∈ docs' ↔ d ∈ docs ∧ compareObjs d.1 pk ≠ 0) :
    MirrorsIndex spec docs' (delKeys spec.ordering pk keys rows) := by
  refine mirrors.remove stored (fun row hrow => ?_)
    (fun row hrow other => mem_delKeys.mpr ⟨hrow, fun k _ => compareRows_of_pk other k⟩)
  obtain ⟨hrow, stays⟩ := mem_delKeys.mp hrow
  refine ⟨hrow, fun same => ?_⟩
  obtain ⟨-, k, hk, rowKey⟩ := mirrors.row_of_pk distinct old hrow same
  have equal := (tame.agree _ (.inl ⟨row, hrow, rfl⟩) k (.inr ⟨oldObj, sub _ old, hk⟩)).mpr rowKey
  obtain ⟨made, again, hk⟩ := hk
  cases generated.symm.trans again
  exact stays k hk (compareRows_eq_zero.mpr ⟨equal, same⟩)

end

end Tame

end Index

/-! ### The loops -/

variable {spec : IndexSpec} {keys : List IndexKey} {i : Nat} {rows : List Row} {u : Unit}

section Rounds

variable {env : WriteEnv} {s s' : State} {pk : IndexKey} {obj oldObj newObj : Fields}

/-- The dictionaries are the same. -/
def SameStores (s s' : State) : Prop := s'.docs = s.docs ∧ s'.rows = s.rows

theorem SameStores.trans {s t r : State} (left : SameStores s t) (right : SameStores t r) :
    SameStores s r := ⟨right.1.trans left.1, right.2.trans left.2⟩

theorem generateKeys_returned (result : generateKeys spec obj s = (.returned keys, s')) :
    spec.getKeysFromObject obj = .ok keys ∧ s = s' := by
  unfold generateKeys at result
  cases made : spec.getKeysFromObject obj with
  | error e =>
    rw [made] at result
    cases result
  | ok made' =>
    rw [made] at result
    cases result
    exact ⟨rfl, rfl⟩

theorem uniqueChecks_returned (result : uniqueChecks env i order rows keys s = (.returned u, s')) :
    (∀ k ∈ keys, uniqueCheck order k rows = true) ∧ s = s' := by
  induction keys generalizing s with
  | nil =>
    cases result
    exact ⟨by simp, rfl⟩
  | cons key keys ih =>
    obtain ⟨_, t, check, rest⟩ := bind_eq_returned.mp result
    obtain ⟨passed, rfl⟩ := throwIf_eq_returned.mp check
    obtain ⟨others, rfl⟩ := ih rest
    simp only [Bool.or_eq_false_iff, Bool.not_eq_false'] at passed
    exact ⟨List.forall_mem_cons.mpr ⟨passed.1, others⟩, rfl⟩

theorem setIndexIsMultikey_returned (result : setIndexIsMultikey env i s = (.returned u, s')) :
    SameStores s s' := by
  obtain ⟨_, _, read, rest⟩ := bind_eq_returned.mp result
  cases read
  rw [Exec.ite_apply] at rest
  split_ifs at rest
  · cases rest
    exact ⟨rfl, rfl⟩
  · obtain ⟨_, _, first, rest⟩ := bind_eq_returned.mp rest
    obtain ⟨-, rfl⟩ := throwIf_eq_returned.mp first
    obtain ⟨_, _, second, rest⟩ := bind_eq_returned.mp rest
    obtain ⟨-, rfl⟩ := throwIf_eq_returned.mp second
    cases rest
    exact ⟨rfl, rfl⟩

/-- Noting a multikey index leaves the dictionaries alone. -/
theorem noteMultikey_returned {c : Bool}
    (result : when c (setIndexIsMultikey env i) s = (.returned u, s')) : SameStores s s' := by
  rcases when_eq_returned.mp result with ⟨-, body⟩ | ⟨-, rfl⟩
  · exact setIndexIsMultikey_returned body
  · exact ⟨rfl, rfl⟩

/-- What a round of an insert has done when it returns. -/
def Inserted (pk : IndexKey) (obj : Fields) (p : IndexSpec × List Row) (rows : List Row) : Prop :=
  ∃ keys, p.1.getKeysFromObject obj = .ok keys ∧
    (p.1.unique = true → ∀ k ∈ keys, uniqueCheck p.1.ordering k p.2 = true) ∧
    rows = putKeys p.1.ordering pk keys p.2

variable {pairs : List (IndexSpec × List Row)}

theorem insertRounds_returned {rows : List (List Row)} (checks : env.noUniqueChecks = false)
    (result : insertRounds env pk obj i pairs s = (.returned rows, s')) :
    List.Forall₂ (Inserted pk obj) pairs rows ∧ SameStores s s' := by
  induction pairs generalizing i s rows with
  | nil =>
    cases result
    exact ⟨.nil, rfl, rfl⟩
  | cons p pairs ih =>
    obtain ⟨spec, old⟩ := p
    obtain ⟨keys, s₁, gen, result⟩ := bind_eq_returned.mp result
    obtain ⟨generated, rfl⟩ := generateKeys_returned gen
    obtain ⟨_, s₂, check, result⟩ := bind_eq_returned.mp result
    obtain ⟨_, s₃, note, result⟩ := bind_eq_returned.mp result
    obtain ⟨others, s₄, more, result⟩ := bind_eq_returned.mp result
    cases result
    have checked : (spec.unique = true → ∀ k ∈ keys, uniqueCheck spec.ordering k old = true) ∧
        s = s₂ := by
      rcases when_eq_returned.mp check with ⟨-, body⟩ | ⟨off, same⟩
      · obtain ⟨passed, same⟩ := uniqueChecks_returned body
        exact ⟨fun _ => passed, same⟩
      · simp only [checks, Bool.not_false, Bool.and_true] at off
        exact ⟨fun on => absurd on (by simp [off]), same⟩
    obtain ⟨passed, rfl⟩ := checked
    obtain ⟨rest, same⟩ := ih more
    exact ⟨.cons ⟨keys, generated, passed, rfl⟩ rest, (noteMultikey_returned note).trans same⟩

/-- What a round of a delete has done when it returns. -/
def Deleted (pk : IndexKey) (obj : Fields) (p : IndexSpec × List Row) (rows : List Row) : Prop :=
  ∃ keys, p.1.getKeysFromObject obj = .ok keys ∧ rows = delKeys p.1.ordering pk keys p.2

theorem deleteRounds_returned {rows : List (List Row)}
    (result : deleteRounds pk obj i pairs s = (.returned rows, s')) :
    List.Forall₂ (Deleted pk obj) pairs rows ∧ SameStores s s' := by
  induction pairs generalizing i s rows with
  | nil =>
    cases result
    exact ⟨.nil, rfl, rfl⟩
  | cons p pairs ih =>
    obtain ⟨spec, old⟩ := p
    obtain ⟨keys, s₁, gen, result⟩ := bind_eq_returned.mp result
    obtain ⟨generated, rfl⟩ := generateKeys_returned gen
    obtain ⟨_, _, read, result⟩ := bind_eq_returned.mp result
    cases read
    obtain ⟨_, _, verified, result⟩ := bind_eq_returned.mp result
    obtain ⟨-, rfl⟩ := throwIf_eq_returned.mp verified
    obtain ⟨others, s₄, more, result⟩ := bind_eq_returned.mp result
    cases result
    obtain ⟨rest, same⟩ := ih more
    exact ⟨.cons ⟨keys, generated, rfl⟩ rest, same⟩

/-- What a round of an update has done when it returns. -/
def Updated (unaffected : Bool) (pk : IndexKey) (oldObj newObj : Fields)
    (p : IndexSpec × List Row) (rows : List Row) : Prop :=
  unaffected = true ∧ rows = p.2 ∨
    ∃ oldKeys newKeys, p.1.getKeysFromObject oldObj = .ok oldKeys ∧
      p.1.getKeysFromObject newObj = .ok newKeys ∧
      (p.1.unique = true → unaffected = false → ∀ k ∈ newKeys,
        orderedSetContains oldKeys k = true ∨ uniqueCheck p.1.ordering k p.2 = true) ∧
      rows = updateKeys p.1.ordering pk oldKeys newKeys p.2

theorem updateRounds_returned {rows : List (List Row)} (checks : env.noUniqueChecks = false)
    (result : updateRounds env pk oldObj newObj i pairs s = (.returned rows, s')) :
    List.Forall₂ (Updated env.keysUnaffected pk oldObj newObj) pairs rows ∧ SameStores s s' := by
  induction pairs generalizing i s rows with
  | nil =>
    cases result
    exact ⟨.nil, rfl, rfl⟩
  | cons p pairs ih =>
    obtain ⟨spec, old⟩ := p
    rw [updateRounds, Exec.ite_apply] at result
    split_ifs at result with skipped
    · obtain ⟨others, s₁, more, result⟩ := bind_eq_returned.mp result
      cases result
      obtain ⟨rest, same⟩ := ih more
      exact ⟨.cons (.inl ⟨(Bool.and_eq_true_iff.mp skipped).1, rfl⟩) rest, same⟩
    · obtain ⟨oldKeys, _, gen, result⟩ := bind_eq_returned.mp result
      obtain ⟨generatedOld, rfl⟩ := generateKeys_returned gen
      obtain ⟨newKeys, _, gen, result⟩ := bind_eq_returned.mp result
      obtain ⟨generatedNew, rfl⟩ := generateKeys_returned gen
      obtain ⟨_, s₂, check, result⟩ := bind_eq_returned.mp result
      obtain ⟨_, s₃, note, result⟩ := bind_eq_returned.mp result
      obtain ⟨others, s₄, more, result⟩ := bind_eq_returned.mp result
      cases result
      have checked : (spec.unique = true → env.keysUnaffected = false → ∀ k ∈ newKeys,
          orderedSetContains oldKeys k = true ∨ uniqueCheck spec.ordering k old = true) ∧
          s = s₂ := by
        rcases when_eq_returned.mp check with ⟨-, body⟩ | ⟨off, same⟩
        · obtain ⟨passed, same⟩ := uniqueChecks_returned body
          refine ⟨fun _ _ k hk => ?_, same⟩
          cases contained : orderedSetContains oldKeys k with
          | true => exact .inl rfl
          | false => exact .inr (passed k (List.mem_filter.mpr ⟨hk, by simp [contained]⟩))
        · refine ⟨fun on affected => ?_, same⟩
          simp [checks, on, affected] at off
      obtain ⟨passed, rfl⟩ := checked
      obtain ⟨rest, same⟩ := ih more
      exact ⟨.cons (.inr ⟨oldKeys, newKeys, generatedOld, generatedNew, passed, rfl⟩) rest,
        (noteMultikey_returned note).trans same⟩

end Rounds

/-! ### Primary keys -/

section PrimaryKeys

variable {schema : Schema} {obj : Fields} {pk pk' : IndexKey} {v v' : Value}

/-- Where `_id` stands in the primary key. -/
def Schema.idPlace (schema : Schema) : Nat :=
  if schema.idPrimaryKey then 0 else schema.pkFields.length - 1

theorem lookup_of_idOf (hid : idOf obj = some v) : ∃ j, lookup idName 0 obj = some (j, v) := by
  obtain ⟨⟨j, w⟩, found, rfl⟩ := Option.map_eq_some_iff.mp hid
  exact ⟨j, found⟩

theorem idName_ne_nil : idName ≠ [] := by decide

/-- The primary key of a document has its `_id`. -/
theorem pk_id (well : schema.WellFormed) (hid : idOf obj = some v) (plain : isArray v = false)
    (own : schema.getValidatedPKFromObject obj = .ok pk) : pk[schema.idPlace]? = some v := by
  unfold Schema.getValidatedPKFromObject at own
  unfold Schema.idPlace
  cases primary : schema.idPrimaryKey with
  | true =>
    simp only [primary, if_true, hid, Except.ok.injEq] at own
    subst own
    rfl
  | false =>
    obtain ⟨last, -⟩ := well primary
    obtain ⟨j, found⟩ := lookup_of_idOf hid
    rw [List.getLast?_eq_getElem?] at last
    simp only [primary, Bool.false_eq_true, if_false] at own ⊢
    cases made : getKeys schema.pkFields false obj with
    | error e => simp [made] at own
    | ok keys =>
      have pinned := getKeysLoop_pinned last idName_ne_nil found plain (getKeys_eq_ok made)
      rw [made] at own
      rcases keys with _ | ⟨k, _ | ⟨l, rest⟩⟩
      · cases own
      · dsimp only at own
        split_ifs at own
        cases own
        exact pinned pk (.head _)
      · cases own

theorem woCompare_of_same (same : compareObjs pk pk' = 0) (here : pk[i]? = some v)
    (there : pk'[i]? = some v') : v.woCompare v' = 0 := by
  have all := compareObjs_eq_zero.mp same
  obtain ⟨bound, rfl⟩ := List.getElem?_eq_some_iff.mp here
  obtain ⟨bound', rfl⟩ := List.getElem?_eq_some_iff.mp there
  exact all.get bound bound'

theorem compareObjs_singleton : compareObjs [v] [v'] = 0 ↔ v.woCompare v' = 0 := by
  simp [compareObjs_eq_zero]

/-- The document has an `_id` and is stored under its primary key. -/
def Filed (schema : Schema) (pk : IndexKey) (obj : Fields) : Prop :=
  ∃ v own, idOf obj = some v ∧ isArray v = false ∧
    schema.getValidatedPKFromObject obj = .ok own ∧ compareObjs own pk = 0

theorem Filed.ne_nil (well : schema.WellFormed) (filed : Filed schema pk obj) : pk ≠ [] := by
  obtain ⟨v, own, hid, plain, found, same⟩ := filed
  rintro rfl
  have here := pk_id well hid plain found
  have length := (compareObjs_eq_zero.mp same).length_eq
  rw [List.length_nil, List.length_eq_zero_iff] at length
  simp [length] at here

/-- The documents have different primary keys and are stored under their own. -/
structure FiledDocs (schema : Schema) (docs : List (IndexKey × Fields)) : Prop where
  distinct : Distinct docs
  filed : ∀ d ∈ docs, Filed schema d.1 d.2

variable {docs docs' : List (IndexKey × Fields)}

theorem FiledDocs.mono (stored : FiledDocs schema docs) (sub : docs' ⊆ docs) :
    FiledDocs schema docs' where
  distinct a ha b hb := stored.distinct a (sub ha) b (sub hb)
  filed d hd := stored.filed d (sub hd)

theorem FiledDocs.put (tame : TameKeys order P) (inP : ∀ d ∈ docs, d.1 ∈ P) (hpk : pk ∈ P)
    (stored : FiledDocs schema docs) (filed : Filed schema pk obj)
    (mem : Replaces docs docs' pk obj) : FiledDocs schema docs' where
  distinct a ha b hb same := by
    rcases (mem a).mp ha with rfl | ⟨olda, othera⟩ <;>
      rcases (mem b).mp hb with rfl | ⟨oldb, otherb⟩
    · rfl
    · exact absurd (tame.symm hpk (inP b oldb) same) otherb
    · exact absurd same othera
    · exact stored.distinct a olda b oldb same
  filed d hd := by
    rcases (mem d).mp hd with rfl | ⟨old, -⟩
    · exact filed
    · exact stored.filed d old

theorem mem_withoutDoc (tame : TameKeys schema.pkOrdering P) (inP : ∀ d ∈ docs, d.1 ∈ P)
    (hpk : pk ∈ P) (d : IndexKey × Fields) :
    d ∈ withoutDoc schema pk docs ↔ d ∈ docs ∧ compareObjs d.1 pk ≠ 0 := by
  rw [withoutDoc, List.mem_filter]
  refine and_congr_right fun hd => ?_
  rw [decide_eq_true_iff, ne_eq, ne_eq, tame.agree d.1 (inP d hd) pk hpk]

theorem replaces_withoutDoc (tame : TameKeys schema.pkOrdering P) (inP : ∀ d ∈ docs, d.1 ∈ P)
    (hpk : pk ∈ P) (obj : Fields) :
    Replaces docs (withoutDoc schema pk docs ++ [(pk, obj)]) pk obj := fun d => by
  rw [List.mem_append, mem_withoutDoc tame inP hpk, List.mem_singleton, or_comm]

end PrimaryKeys

/-! ### The collection -/

/-- Every index mirrors the documents, which are stored under their own primary keys. -/
structure Mirrors (schema : Schema) (s : State) : Prop where
  indexes : List.Forall₂ (fun spec rows => MirrorsIndex spec s.docs rows) schema.secondary s.rows
  docs : FiledDocs schema s.docs

variable {v : Value}

section Calls

variable {env : WriteEnv} {schema : Schema} {s s' : State} {pk : IndexKey}
  {obj oldObj newObj : Fields} {u : Unit}

variable {news : List Fields}

theorem mem_news_of_doc (d : IndexKey × Fields) (hd : d ∈ s.docs) :
    d.2 ∈ s.docs.map Prod.snd ++ news :=
  List.mem_append_left _ (List.mem_map_of_mem hd)

theorem pksAt_doc {objs : List Fields} (d : IndexKey × Fields) (hd : d ∈ s.docs) :
    d.1 ∈ pksAt schema s.docs objs := .inl ⟨d, hd, rfl⟩

/-- An index, what it mirrors, and what a call did to it. -/
theorem Mirrors.combine {R : IndexSpec × List Row → List Row → Prop} {rows' : List (List Row)}
    (mirrors : Mirrors schema s) (tame : Tame schema s news)
    (rounds : List.Forall₂ R (schema.secondary.zip s.rows) rows') :
    List.Forall₂ (fun spec rows' => ∃ rows, (MirrorsIndex spec s.docs rows ∧
      TameKeys spec.ordering (keysAt spec (s.docs.map Prod.snd ++ news) rows)) ∧
      R (spec, rows) rows') schema.secondary rows' :=
  forall₂_zip (mirrors.indexes.mp (fun _ _ mirror tame => ⟨mirror, tame⟩) tame.indexes) rounds

section

variable (well : schema.WellFormed) (mirrors : Mirrors schema s)
include well mirrors

/-- The rows name documents, so their primary keys are in use and not empty. -/
theorem Mirrors.row_pk (mirror : MirrorsIndex spec s.docs rows) :
    ∀ row ∈ rows, row.2 ∈ pksAt schema s.docs news ∧ row.2 ≠ [] := by
  intro row hrow
  obtain ⟨d, hd, -⟩ := mirror.sound row hrow
  exact ⟨pksAt_doc _ hd, (mirrors.docs.filed _ hd).ne_nil well⟩

/-- The new document shares no key with others in a unique index that was checked. -/
theorem Mirrors.apart_of_inserted (tame : Tame schema s [obj]) {rows' : List Row}
    (mirror : MirrorsIndex spec s.docs rows)
    (keysTame : TameKeys spec.ordering (keysAt spec (s.docs.map Prod.snd ++ [obj]) rows))
    (inserted : Inserted pk obj (spec, rows) rows') (isUnique : spec.unique = true)
    (hd : d ∈ s.docs) (hk : HasKey spec obj k) (hl : HasKey spec d.2 l) : Differ k l := by
  obtain ⟨keys, generated, checked, -⟩ := inserted
  refine apart_of_not_hasRow keysTame mirror mem_news_of_doc (by simp) hd hk hl ?_
  refine not_hasRow_of_uniqueCheck keysTame tame.pkRows (mirrors.row_pk well mirror) (by simp) hk ?_
  obtain ⟨made, again, mem⟩ := hk
  cases generated.symm.trans again
  exact checked isUnique k mem

/-- The primary key of a new document is new: because it was looked for, or because the
unique index on `_id` was. -/
theorem Mirrors.fresh (tame : Tame schema s [obj]) (hid : idOf obj = some v)
    (plain : isArray v = false)
    (own : schema.getValidatedPKFromObject obj = .ok pk) {rows' : List (List Row)}
    (rounds : List.Forall₂ (Inserted pk obj) (schema.secondary.zip s.rows) rows')
    (checked : hasDoc schema pk s.docs = false ∨ schema.idPrimaryKey = false) :
    ∀ d ∈ s.docs, compareObjs d.1 pk ≠ 0 := by
  intro d hd same
  have hpk : pk ∈ pksAt schema s.docs (s.docs.map Prod.snd ++ [obj]) := .inr ⟨obj, by simp, own⟩
  rcases checked with absent | other
  · have there := (tame.pks.agree d.1 (pksAt_doc _ hd) pk hpk).mpr same
    have none := List.any_eq_false.mp absent d hd
    simp [there] at none
  · obtain ⟨-, spec, hspec, fields, isUnique, notSparse⟩ := well other
    obtain ⟨rows', rows, ⟨mirror, keysTame⟩, inserted⟩ :=
      forall₂_left (mirrors.combine tame rounds) hspec
    obtain ⟨v', own', hid', plain', found', same'⟩ := mirrors.docs.filed d hd
    have idKey : ∀ {o : Fields} {w : Value}, idOf o = some w → isArray w = false →
        HasKey spec o [w] := by
      intro o w hw plain
      obtain ⟨j, found⟩ := lookup_of_idOf hw
      refine ⟨[[w]], ?_, .head _⟩
      rw [IndexSpec.getKeysFromObject, fields, notSparse]
      exact getKeys_of_plain idName_ne_nil found plain
    have hown' : own' ∈ pksAt schema s.docs (s.docs.map Prod.snd ++ [obj]) :=
      .inr ⟨d.2, mem_news_of_doc _ hd, found'⟩
    have equal := tame.pks.trans hown' (pksAt_doc _ hd) hpk same' same
    have ids := woCompare_of_same equal (pk_id well hid' plain' found') (pk_id well hid plain own)
    exact (mirrors.apart_of_inserted well tame mirror keysTame inserted isUnique hd
      (idKey hid plain) (idKey hid' plain')).2 (compareObjs_singleton.mpr ids)

theorem Mirrors.insert {checkPK : Bool} (tame : Tame schema s [obj])
    (checks : env.noUniqueChecks = false) (hid : idOf obj = some v) (plain : isArray v = false)
    (own : schema.getValidatedPKFromObject obj = .ok pk)
    (checkPKs : checkPK = true ∨ schema.idPrimaryKey = false)
    (result : insertIntoIndexes env schema checkPK pk obj s = (.returned u, s')) :
    Mirrors schema s' := by
  obtain ⟨_, _, read, result⟩ := bind_eq_returned.mp result
  cases read
  obtain ⟨rows', t, loop, result⟩ := bind_eq_returned.mp result
  obtain ⟨_, _, put, result⟩ := bind_eq_returned.mp result
  obtain ⟨succeeds, rfl⟩ := throwIf_eq_returned.mp put
  obtain ⟨rounds, docsEq, -⟩ := insertRounds_returned checks loop
  cases result
  have hpk : pk ∈ pksAt schema s.docs (s.docs.map Prod.snd ++ [obj]) := .inr ⟨obj, by simp, own⟩
  have fresh := mirrors.fresh well tame hid plain own rounds (by
    refine checkPKs.imp_left fun on => ?_
    subst on
    exact (Bool.or_eq_false_iff.mp succeeds).2)
  have mem := replaces_withoutDoc tame.pks pksAt_doc hpk obj
  refine ⟨?_, ?_⟩ <;> simp only [docsEq]
  · refine (mirrors.combine tame rounds).imp ?_
    rintro spec rows' ⟨rows, ⟨mirror, keysTame⟩, inserted⟩
    have apart : Unshared spec s.docs pk obj := fun isUnique d hd _ k l =>
      mirrors.apart_of_inserted well tame mirror keysTame inserted isUnique hd
    obtain ⟨keys, generated, checked, rfl⟩ := inserted
    exact mirror.insert keysTame (by simp) generated mem fresh apart
  · exact mirrors.docs.put tame.pks pksAt_doc hpk
      ⟨v, pk, hid, plain, own, tame.pks.refl hpk⟩ mem

end

/-- A delete keeps the mirror, and leaves fewer rows and documents behind. -/
theorem Mirrors.delete (mirrors : Mirrors schema s) (tame : Tame schema s news)
    (old : (pk, obj) ∈ s.docs)
    (result : deleteFromIndexes env schema pk obj s = (.returned u, s')) :
    Mirrors schema s' ∧ Tame schema s' news := by
  obtain ⟨_, _, read, result⟩ := bind_eq_returned.mp result
  cases read
  obtain ⟨rows', t, loop, result⟩ := bind_eq_returned.mp result
  obtain ⟨_, _, put, result⟩ := bind_eq_returned.mp result
  obtain ⟨-, rfl⟩ := throwIf_eq_returned.mp put
  obtain ⟨rounds, docsEq, -⟩ := deleteRounds_returned loop
  cases result
  have mem := mem_withoutDoc tame.pks pksAt_doc (pksAt_doc _ old)
  have fewer : withoutDoc schema pk s.docs ⊆ s.docs := fun d hd => ((mem d).mp hd).1
  have objs : ∀ o ∈ (withoutDoc schema pk s.docs).map Prod.snd ++ news,
      o ∈ s.docs.map Prod.snd ++ news := by
    intro o ho
    rcases List.mem_append.mp ho with stored | new
    · obtain ⟨d, hd, rfl⟩ := List.mem_map.mp stored
      exact mem_news_of_doc _ (fewer hd)
    · exact List.mem_append_right _ new
  have pks : pksAt schema (withoutDoc schema pk s.docs)
      ((withoutDoc schema pk s.docs).map Prod.snd ++ news) ⊆
        pksAt schema s.docs (s.docs.map Prod.snd ++ news) := by
    rintro k (⟨d, hd, rfl⟩ | ⟨o, ho, found⟩)
    · exact pksAt_doc _ (fewer hd)
    · exact .inr ⟨o, objs o ho, found⟩
  refine ⟨⟨?_, ?_⟩, ⟨?_, ?_, ?_⟩⟩ <;> simp only [docsEq]
  · refine (mirrors.combine tame rounds).imp ?_
    rintro spec rows' ⟨rows, ⟨mirror, keysTame⟩, keys, generated, rfl⟩
    exact mirror.delete keysTame mem_news_of_doc mirrors.docs.distinct old generated mem
  · exact mirrors.docs.mono fewer
  · refine (mirrors.combine tame rounds).imp ?_
    rintro spec rows' ⟨rows, ⟨-, keysTame⟩, keys, -, rfl⟩
    refine keysTame.mono ?_
    rintro k (⟨row, hrow, rfl⟩ | ⟨o, ho, hk⟩)
    · exact .inl ⟨row, (mem_delKeys.mp hrow).1, rfl⟩
    · exact .inr ⟨o, objs o ho, hk⟩
  · exact tame.pks.mono pks
  · exact tame.pkRows.mono pks

theorem exists_of_orderedSetContains (contained : orderedSetContains keys k = true) :
    ∃ o ∈ keys, compareObjs o k = 0 := by
  induction keys with
  | nil => cases contained
  | cons key keys ih =>
    rw [orderedSetContains] at contained
    split_ifs at contained
    · exact ⟨key, .head _, of_decide_eq_true contained⟩
    · obtain ⟨o, ho, same⟩ := ih contained
      exact ⟨o, .tail _ ho, same⟩

/-- After the round of an update, the new keys are in no other document. -/
theorem Mirrors.apart_of_updated {unaffected : Bool} (well : schema.WellFormed)
    (mirrors : Mirrors schema s) (tame : Tame schema s [newObj]) (old : (pk, oldObj) ∈ s.docs)
    {rows' : List Row} (mirror : MirrorsIndex spec s.docs rows)
    (keysTame : TameKeys spec.ordering (keysAt spec (s.docs.map Prod.snd ++ [newObj]) rows))
    (agree : unaffected = true → KeysAgree spec oldObj newObj)
    (updated : Updated unaffected pk oldObj newObj (spec, rows) rows')
    (isUnique : spec.unique = true) (hd : d ∈ s.docs) (other : compareObjs d.1 pk ≠ 0)
    (hk : HasKey spec newObj k) (hl : HasKey spec d.2 l) : Differ k l := by
  have differ : d ≠ (pk, oldObj) := by
    rintro rfl
    exact other (tame.pks.refl (pksAt_doc _ old))
  have of_old : ∀ o, HasKey spec oldObj o → compareObjs o k = 0 → Differ k l := fun o ho same =>
    apart_of_old keysTame mirror isUnique mem_news_of_doc (by simp) old hd differ
      hk hl ho same
  cases hint : unaffected with
  | true =>
    obtain ⟨o, ho, same⟩ := (agree hint).2 k hk
    exact of_old o ho same
  | false =>
    rcases updated with ⟨on, -⟩ | ⟨oldKeys, newKeys, generatedOld, generatedNew, checked, -⟩
    · simp [hint] at on
    · obtain ⟨made, again, mem⟩ := id hk
      cases generatedNew.symm.trans again
      rcases checked isUnique hint k mem with contained | passed
      · obtain ⟨o, ho, same⟩ := exists_of_orderedSetContains contained
        exact of_old o ⟨oldKeys, generatedOld, ho⟩ same
      · exact apart_of_not_hasRow keysTame mirror mem_news_of_doc (by simp) hd hk
          hl (not_hasRow_of_uniqueCheck keysTame tame.pkRows (mirrors.row_pk well mirror)
            (by simp) hk passed)

theorem Mirrors.update (well : schema.WellFormed) (mirrors : Mirrors schema s)
    (tame : Tame schema s [newObj]) (checks : env.noUniqueChecks = false)
    (old : (pk, oldObj) ∈ s.docs) (filed : Filed schema pk newObj)
    (agree : env.keysUnaffected = true → ∀ spec ∈ schema.secondary, KeysAgree spec oldObj newObj)
    (result : updateInIndexes env schema pk oldObj newObj s = (.returned u, s')) :
    Mirrors schema s' := by
  obtain ⟨_, _, read, result⟩ := bind_eq_returned.mp result
  cases read
  obtain ⟨rows', t, loop, result⟩ := bind_eq_returned.mp result
  obtain ⟨_, _, put, result⟩ := bind_eq_returned.mp result
  obtain ⟨-, rfl⟩ := throwIf_eq_returned.mp put
  obtain ⟨rounds, docsEq, -⟩ := updateRounds_returned checks loop
  cases result
  have hpk : pk ∈ pksAt schema s.docs (s.docs.map Prod.snd ++ [newObj]) := pksAt_doc _ old
  have mem := replaces_withoutDoc tame.pks pksAt_doc hpk newObj
  refine ⟨?_, ?_⟩ <;> simp only [docsEq]
  · have members := (List.forall₂_and_left _ _).mpr ⟨fun _ mem => mem, mirrors.combine tame rounds⟩
    refine members.imp ?_
    rintro spec rows' ⟨hspec, rows, ⟨mirror, keysTame⟩, updated⟩
    have agrees : env.keysUnaffected = true → KeysAgree spec oldObj newObj := fun on =>
      agree on spec hspec
    have apart : Unshared spec s.docs pk newObj := fun isUnique d hd other k l =>
      mirrors.apart_of_updated well tame old mirror keysTame agrees updated isUnique hd other
    rcases updated with ⟨on, rfl⟩ | ⟨oldKeys, newKeys, generatedOld, generatedNew, -, rfl⟩
    · exact mirror.unaffected keysTame mem_news_of_doc mirrors.docs.distinct old (by simp)
        (agrees on) mem apart
    · exact mirror.update keysTame mem_news_of_doc mirrors.docs.distinct old (by simp) generatedOld
        generatedNew mem apart
  · exact mirrors.docs.put tame.pks pksAt_doc hpk filed mem

end Calls

/-! ### Calls from outside -/

section Writes

variable {schema : Schema} {s s' : State} {w : Write} {obj oldObj newObj : Fields} {v e : Value}

theorem Mirrors.of_same (mirrors : Mirrors schema s) (docs : s'.docs = s.docs)
    (rows : s'.rows = s.rows) : Mirrors schema s' :=
  ⟨by rw [docs, rows]; exact mirrors.indexes, by rw [docs]; exact mirrors.docs⟩

theorem ofExcept_returned {α : Type} {x : Except WriteError α} {a : α}
    (result : ofExcept x s = (.returned a, s')) : x = .ok a ∧ s = s' := by
  cases x with
  | ok b =>
    cases result
    exact ⟨rfl, rfl⟩
  | error e => cases result

theorem isArray_of_woCompare (same : e.woCompare v = 0) (plain : isArray v = false) :
    isArray e = false := by
  cases e with
  | array fields =>
    exfalso
    cases v <;> simp_all [Value.woCompare, Value.canonicalType, Value.isNumber, Value.number,
      isArray]
  | _ => rfl

theorem idOf_cons (v : Value) (obj : Fields) : idOf (.cons idName v obj) = some v := by
  simp [idOf, lookup]

theorem idOf_addIdField (oid : OID) (plain : ∀ v, idOf obj = some v → isArray v = false) :
    ∃ v, idOf (addIdField oid obj) = some v ∧ isArray v = false := by
  unfold addIdField
  cases hid : idOf obj with
  | none => exact ⟨.oid oid, idOf_cons _ _, rfl⟩
  | some v => exact ⟨v, hid, plain v hid⟩

/-- The new document has the old `_id`, or one that is equal to it. -/
theorem idOf_inheritIdField (inherited : inheritIdField oldObj newObj = .ok obj)
    (hid : idOf oldObj = some v) :
    ∃ e, idOf obj = some e ∧ (e = v ∨ e.woCompare v = 0) := by
  unfold inheritIdField at inherited
  rw [hid] at inherited
  cases new : idOf newObj with
  | none =>
    rw [new] at inherited
    cases inherited
    exact ⟨v, idOf_cons _ _, .inl rfl⟩
  | some e =>
    simp only [new] at inherited
    split_ifs at inherited with same
    cases inherited
    exact ⟨e, new, .inr same⟩

theorem Mirrors.insertObject {env : WriteEnv} {oid : OID} (well : schema.WellFormed)
    (mirrors : Mirrors schema s) (valid : (Write.insert env oid obj).Valid schema s)
    (tame : Tame schema s [addIdField oid obj])
    (result : Indexed.insertObject env schema oid obj s = (.returned u, s')) :
    Mirrors schema s' := by
  obtain ⟨checks, plain⟩ := valid
  obtain ⟨v, hid, plain⟩ := idOf_addIdField oid plain
  obtain ⟨pk, t, key, result⟩ := bind_eq_returned.mp result
  obtain ⟨own, rfl⟩ := ofExcept_returned key
  refine mirrors.insert well tame checks hid plain own ?_ result
  cases schema.idPrimaryKey with
  | true => exact .inl (by simp [checks])
  | false => exact .inr rfl

theorem Mirrors.updateObject {env : WriteEnv} {pk : IndexKey} (well : schema.WellFormed)
    (mirrors : Mirrors schema s) (valid : (Write.update env pk oldObj newObj).Valid schema s)
    (tame : ∀ obj, inheritIdField oldObj newObj = .ok obj → Tame schema s [obj])
    (result : Indexed.updateObject env schema pk oldObj newObj s = (.returned u, s')) :
    Mirrors schema s' := by
  obtain ⟨checks, old, agree⟩ := valid
  obtain ⟨obj, t, inherit, result⟩ := bind_eq_returned.mp result
  obtain ⟨inherited, rfl⟩ := ofExcept_returned inherit
  have tame := tame obj inherited
  have agree := fun on => agree on obj inherited
  obtain ⟨v, own, hid, plain, found, same⟩ := mirrors.docs.filed _ old
  obtain ⟨e, hide, source⟩ := idOf_inheritIdField inherited hid
  have plain' : isArray e = false := by
    rcases source with rfl | equal
    · exact plain
    · exact isArray_of_woCompare equal plain
  rw [Exec.ite_apply] at result
  cases primary : schema.idPrimaryKey with
  | true =>
    have pkOf : ∀ {o : Fields} {x : Value}, idOf o = some x →
        schema.getValidatedPKFromObject o = .ok [x] := fun hx => by
      simp [Schema.getValidatedPKFromObject, primary, hx]
    cases found.symm.trans (pkOf hid)
    have hv : [v] ∈ pksAt schema s.docs (s.docs.map Prod.snd ++ [obj]) :=
      .inr ⟨oldObj, mem_news_of_doc _ old, found⟩
    have he : [e] ∈ pksAt schema s.docs (s.docs.map Prod.snd ++ [obj]) :=
      .inr ⟨obj, by simp, pkOf hide⟩
    have ids : compareObjs [e] [v] = 0 := by
      rcases source with rfl | equal
      · exact tame.pks.refl he
      · exact compareObjs_singleton.mpr equal
    rw [if_pos primary] at result
    exact mirrors.update well tame checks old
      ⟨e, [e], hide, plain', pkOf hide, tame.pks.trans he hv (pksAt_doc _ old) ids same⟩ agree
      result
  | false =>
    rw [if_neg (by simp [primary])] at result
    obtain ⟨newPK, t, key, result⟩ := bind_eq_returned.mp result
    obtain ⟨newOwn, rfl⟩ := ofExcept_returned key
    rw [Exec.ite_apply] at result
    split_ifs at result with changed
    · obtain ⟨_, t, deleted, result⟩ := bind_eq_returned.mp result
      obtain ⟨mirrors', tame'⟩ := mirrors.delete tame old deleted
      exact mirrors'.insert well tame' checks hide plain' newOwn (.inr primary) result
    · exact mirrors.update well tame checks old
        ⟨e, newPK, hide, plain', newOwn, not_not.mp changed⟩ agree result

/-- A call keeps the mirror. -/
theorem Mirrors.apply (well : schema.WellFormed) (mirrors : Mirrors schema s)
    (valid : w.Valid schema s) (tame : Tame schema s w.news) :
    Mirrors schema (s.apply schema w) := by
  unfold State.apply
  rcases run : w.run schema s with ⟨_ | _ | _, s'⟩
  · cases w with
    | insert env oid obj => exact mirrors.insertObject well valid tame run
    | update env pk oldObj newObj =>
      refine mirrors.updateObject well valid (fun obj inherited => ?_) run
      simpa only [Write.news, inherited] using tame
    | delete env pk obj => exact (mirrors.delete tame valid run).1
  · exact mirrors.of_same rfl rfl
  · exact mirrors.of_same rfl rfl

theorem mirrors_initial (schema : Schema) : Mirrors schema (.initial schema) where
  indexes := by
    rw [State.initial]
    refine List.forall₂_map_right_iff.mpr ?_
    refine List.forall₂_same.mpr fun spec _ => ⟨?_, ?_, ?_⟩ <;> simp
  docs := ⟨by simp [State.initial, Distinct], by simp [State.initial]⟩

/-- One valid call with keys that are ordered. -/
def Step (schema : Schema) (s : State) (w : Write) (t : State) : Prop :=
  w.Valid schema s ∧ Tame schema s w.news ∧ t = s.apply schema w

/-- After every run of such calls, the indexes mirror the documents. -/
theorem indexes_mirror_documents {writes : List Write} (well : schema.WellFormed)
    (run : Run (Step schema) (.initial schema) writes s) :
    List.Forall₂ (fun spec rows => MirrorsIndex spec s.docs rows) schema.secondary s.rows := by
  refine (run.invariant (P := Mirrors schema) ?_ (mirrors_initial schema)).indexes
  rintro s w _ mirrors ⟨valid, tame, rfl⟩
  exact mirrors.apply well valid tame

end Writes

/-! ### Two collections -/

/-- A call that nothing hinders. -/
def unhindered : WriteEnv where
  hasMultTxns := false
  isWriteLocked := true
  noUniqueChecks := false
  keysUnaffected := false
  checkFails _ := false
  storageFails := false

/-- An ascending unique index. -/
def uniqueOn (fieldNames : List Path) : IndexSpec := ⟨fieldNames, ⟨0⟩, true, false, false⟩

/-- A collection by `_id` with one unique index. -/
def withUnique (fieldNames : List Path) : Schema :=
  ⟨[uniqueOn fieldNames], true, [[idName]], ⟨0⟩⟩

/-- The document `{_id: id, a: a, b: b}`. -/
def docOf (id : BitVec 32) (a b : Value) : Fields :=
  .cons idName (.numberInt id) (.cons [97] a (.cons [98] b .nil))

def someOID : OID := ⟨List.replicate 12 0, by simp⟩

theorem idOf_docOf {id : BitVec 32} {a b : Value} (found : idOf (docOf id a b) = some v) :
    v = .numberInt id := (Option.some_inj.mp found).symm

theorem hasKey_docOf {id : BitVec 32} {a b : Value} (plain : isArray a = false)
    (has : HasKey (uniqueOn [[[97]]]) (docOf id a b) k) : k = [a] := by
  obtain ⟨keys, made, mem⟩ := has
  have only : getKeys [[[97]]] false (docOf id a b) = .ok [[a]] :=
    getKeys_of_plain (by decide) (j := 1) rfl plain
  cases only.symm.trans made
  exact List.mem_singleton.mp mem

/-- Finitely many keys, compared one by one. -/
theorem tameKeys_of_list {L : List IndexKey}
    (flip : ∀ a ∈ L, ∀ b ∈ L, (storedCompare ⟨0⟩ a b < 0 ↔ 0 < storedCompare ⟨0⟩ b a))
    (trans : ∀ a ∈ L, ∀ b ∈ L, ∀ c ∈ L,
      storedCompare ⟨0⟩ a b ≤ 0 → storedCompare ⟨0⟩ b c ≤ 0 → storedCompare ⟨0⟩ a c ≤ 0)
    (agree : ∀ a ∈ L, ∀ b ∈ L, (storedCompare ⟨0⟩ a b = 0 ↔ compareObjs a b = 0)) :
    TameKeys ⟨0⟩ {k | k ∈ L} :=
  ⟨⟨flip, trans⟩, agree⟩

/-- Writing documents with `a` of one of the values `L` to a collection whose rows and documents
are of that kind. -/
theorem tame_docOf {s : State} {obj : Fields} {L : List IndexKey} (only : s.rows = [rows])
    (tame : TameKeys ⟨0⟩ {k | k ∈ L}) (inRows : ∀ row ∈ rows, row.1 ∈ L)
    (ofDocs : ∀ o ∈ s.docs.map Prod.snd ++ [obj], ∃ a b, isArray a = false ∧ [a] ∈ L ∧ o =
      docOf 1 a b)
    (pks : ∀ d ∈ s.docs, d.1 = [.numberInt 1]) : Tame (withUnique [[[97]]]) s [obj] := by
  have onePK : pksAt (withUnique [[[97]]]) s.docs (s.docs.map Prod.snd ++ [obj]) ⊆
      {k | k ∈ [[.numberInt 1]]} := by
    rintro pk (⟨d, hd, rfl⟩ | ⟨o, ho, found⟩)
    · simpa using pks d hd
    · obtain ⟨a, b, -, -, rfl⟩ := ofDocs o ho
      cases found
      exact .head _
  have onePKTame : TameKeys ⟨0⟩ {k | k ∈ [[Value.numberInt 1]]} :=
    tameKeys_of_list (by decide) (by decide) (by decide)
  refine ⟨?_, onePKTame.mono onePK, ?_⟩
  · rw [only]
    refine .cons (tame.mono ?_) .nil
    rintro k (⟨row, hrow, rfl⟩ | ⟨o, ho, has⟩)
    · exact inRows row hrow
    · obtain ⟨a, b, plain, mem, rfl⟩ := ofDocs o ho
      cases hasKey_docOf plain has
      exact mem
  · have one : ComparesOn compareObjs {k | k ∈ [[Value.numberInt 1]]} := by
      refine ⟨?_, ?_⟩ <;> simp only [Set.mem_ofPred_eq, List.mem_singleton, forall_eq] <;> decide
    exact one.mono onePK

/-- The key of a document changes from 5 to 7. -/
theorem indexes_mirror_documents_update :
    List.Forall₂
      (fun spec rows => MirrorsIndex spec [([.numberInt 1], docOf 1 (.numberInt 7) .null)] rows)
      [uniqueOn [[[97]]]] [[([.numberInt 7], [.numberInt 1])]] := by
  let old := docOf 1 (.numberInt 5) .null
  let new := docOf 1 (.numberInt 7) .null
  let between : State := ⟨[([.numberInt 1], old)], [[([.numberInt 5], [.numberInt 1])]], 0⟩
  let after : State := ⟨[([.numberInt 1], new)], [[([.numberInt 7], [.numberInt 1])]], 0⟩
  have values : TameKeys ⟨0⟩ {k | k ∈ [[Value.numberInt 5], [.numberInt 7]]} :=
    tameKeys_of_list (by decide) (by decide) (by decide)
  have well : (withUnique [[[97]]]).WellFormed := by simp [Schema.WellFormed, withUnique]
  have inserted : Step (withUnique [[[97]]]) (.initial (withUnique [[[97]]]))
      (.insert unhindered someOID old) between := by
    refine ⟨⟨rfl, fun v hv => idOf_docOf hv ▸ rfl⟩, ?_, rfl⟩
    refine tame_docOf rfl values (by simp) (fun o ho => ?_) (by simp [State.initial])
    cases List.mem_singleton.mp ho
    exact ⟨.numberInt 5, .null, rfl, .head _, rfl⟩
  have updated : Step (withUnique [[[97]]]) between
      (.update unhindered [.numberInt 1] old new) after := by
    refine ⟨⟨rfl, .head _, nofun⟩, ?_, rfl⟩
    refine tame_docOf rfl values (by simp) (fun o ho => ?_) (by simp [between])
    rcases List.mem_cons.mp ho with rfl | ho
    · exact ⟨.numberInt 5, .null, rfl, .head _, rfl⟩
    · cases List.mem_singleton.mp ho
      exact ⟨.numberInt 7, .null, rfl, .tail _ (.head _), rfl⟩
  exact indexes_mirror_documents well (.cons inserted (.cons updated (.nil after)))

/-- The calls of the source, whatever their keys are. -/
def Called (schema : Schema) (s : State) (w : Write) (t : State) : Prop :=
  w.Valid schema s ∧ t = s.apply schema w

/-- An update from the long 2^53 to the double 2^53, which is equal to the long 2^53 + 1 of
another document; and two documents with a long that reads as a NaN in front of another field. -/
theorem shared_keys :
    (∃ writes s, Run (Called (withUnique [[[97]]])) (.initial (withUnique [[[97]]])) writes s ∧
      ∃ rows ∈ s.rows, ¬ MirrorsIndex (uniqueOn [[[97]]]) s.docs rows) ∧
    ∃ writes s, Run (Called (withUnique [[[97]], [[98]]]))
        (.initial (withUnique [[[97]], [[98]]])) writes s ∧
      ∃ rows ∈ s.rows, ¬ MirrorsIndex (uniqueOn [[[97]], [[98]]]) s.docs rows := by
  constructor
  · let old := docOf 1 (.numberLong 0x20000000000000) .null
    let new := docOf 1 (.numberDouble 0x4340000000000000) .null
    let other := docOf 2 (.numberLong 0x20000000000001) .null
    let after : State :=
      ⟨[([.numberInt 2], other), ([.numberInt 1], new)],
        [[([.numberLong 0x20000000000001], [.numberInt 2]),
          ([.numberDouble 0x4340000000000000], [.numberInt 1])]], 0⟩
    refine ⟨[.insert unhindered someOID old, .insert unhindered someOID other,
      .update unhindered [.numberInt 1] old new], after,
      .cons ⟨⟨rfl, fun v hv => idOf_docOf hv ▸ rfl⟩, rfl⟩
        (.cons ⟨⟨rfl, fun v hv => idOf_docOf hv ▸ rfl⟩, rfl⟩
          (.cons ⟨⟨rfl, .head _, nofun⟩, rfl⟩ (.nil _))), _, .head _, fun mirrors => ?_⟩
    have same := mirrors.unique rfl ([.numberInt 2], other) (.head _) ([.numberInt 1], new)
      (.tail _ (.head _)) _ _ ⟨_, rfl, .head _⟩ ⟨_, rfl, .head _⟩ (by decide +kernel)
    cases same
  · let one := docOf 1 (.numberLong 0x7ff8000000000000) .null
    let two := docOf 2 (.numberLong 0x7ff8000000000000) .null
    refine ⟨[.insert unhindered someOID one, .insert unhindered someOID two],
      ⟨[([.numberInt 1], one), ([.numberInt 2], two)],
        [[([.numberLong 0x7ff8000000000000, .null], [.numberInt 1]),
          ([.numberLong 0x7ff8000000000000, .null], [.numberInt 2])]], 0⟩,
      .cons ⟨⟨rfl, fun v hv => idOf_docOf hv ▸ rfl⟩, rfl⟩
        (.cons ⟨⟨rfl, fun v hv => idOf_docOf hv ▸ rfl⟩, rfl⟩ (.nil _)), _, .head _,
      fun mirrors => ?_⟩
    have same := mirrors.unique rfl ([.numberInt 1], one) (.head _) ([.numberInt 2], two)
      (.tail _ (.head _)) _ _ ⟨_, rfl, .head _⟩ ⟨_, rfl, .head _⟩ (by decide +kernel)
    cases same

end TokuMX.Collection.Indexed
