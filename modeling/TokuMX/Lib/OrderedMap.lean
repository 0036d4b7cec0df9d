import Mathlib.Algebra.BigOperators.Group.List.Basic
import Mathlib.Algebra.GroupWithZero.Nat
import Mathlib.Algebra.Order.BigOperators.Group.List
import Mathlib.Algebra.Order.Ring.Int
import Mathlib.Data.List.Nodup
import Mathlib.Data.List.Sort
import Mathlib.Order.Bounds.Basic
import Mathlib.Order.Lattice
import Mathlib.Tactic.Abel

/-!
Maps iterated in key order.

The entries stand in strictly increasing key order, which the structure carries
as a field, so a map holds at most one entry for a key. An iterator of such a map
is a place between two entries: `lower_bound k` stands in front of the first key
not below `k` and `upper_bound k` in front of the first key above `k`. Because
the entries are sorted, what lies in front of either place is a filter of them.

* `set` is assignment through the index operator, `insert` leaves an existing
  entry alone; `mem_set`, `mem_insert` and `insert_of_present` say what each does
  to the entries;
* `stepBack` is the idiom "one step back, unless at the beginning".
-/

namespace TokuMX.Lib

universe u v

/-- Key-value entries in strictly increasing key order. -/
structure OrderedMap (K : Type u) (V : Type v) [LT K] where
  entries : List (K × V)
  sorted : entries.Pairwise fun a b => a.1 < b.1

namespace OrderedMap

variable {K : Type u} {V : Type v} [LinearOrder K]

def empty : OrderedMap K V := ⟨[], .nil⟩

def size (m : OrderedMap K V) : Nat := m.entries.length

def find? (m : OrderedMap K V) (k : K) : Option V :=
  (m.entries.find? (·.1 = k)).map Prod.snd

/-- The entries in front of `lower_bound k`. -/
def below (m : OrderedMap K V) (k : K) : List (K × V) := m.entries.filter (·.1 < k)

/-- The entries in front of `upper_bound k`. -/
def upTo (m : OrderedMap K V) (k : K) : List (K × V) := m.entries.filter (·.1 ≤ k)

/-- The entries from `upper_bound k` on. -/
def above (m : OrderedMap K V) (k : K) : List (K × V) := m.entries.filter (k < ·.1)

/-- The entries from `lower_bound k` on. -/
def fromKey (m : OrderedMap K V) (k : K) : List (K × V) := m.entries.filter (k ≤ ·.1)

/-- The entry an iterator with `front` before it points at after a step back. An
iterator at the beginning stays there. -/
def stepBack (m : OrderedMap K V) (front : List (K × V)) : Option (K × V) :=
  front.getLast?.or m.entries.head?

/-- Assignment: the entry for `k` is replaced or made. -/
def set (m : OrderedMap K V) (k : K) (v : V) : OrderedMap K V where
  entries := m.below k ++ (k, v) :: m.above k
  sorted := by
    refine List.pairwise_append.mpr ⟨m.sorted.filter _, ?_, ?_⟩
    · refine List.pairwise_cons.mpr ⟨?_, m.sorted.filter _⟩
      intro e he
      simpa using (List.mem_filter.mp he).2
    · intro a ha b hb
      have left : a.1 < k := by simpa using (List.mem_filter.mp ha).2
      rcases List.mem_cons.mp hb with rfl | hb
      · exact left
      · exact left.trans (by simpa using (List.mem_filter.mp hb).2)

/-- Insertion, which leaves an entry that is already there alone. -/
def insert (m : OrderedMap K V) (k : K) (v : V) : OrderedMap K V :=
  if (m.find? k).isSome then m else m.set k v

def erase (m : OrderedMap K V) (k : K) : OrderedMap K V where
  entries := m.entries.filter (·.1 ≠ k)
  sorted := m.sorted.filter _

/-- Erasure of every entry whose key satisfies `p`. -/
def eraseIf (m : OrderedMap K V) (p : K → Bool) : OrderedMap K V where
  entries := m.entries.filter (!p ·.1)
  sorted := m.sorted.filter _

variable {m : OrderedMap K V} {k : K} {v w : V} {e : K × V}

@[simp] theorem entries_empty : (empty : OrderedMap K V).entries = [] := rfl

@[simp] theorem mem_below : e ∈ m.below k ↔ e ∈ m.entries ∧ e.1 < k := by
  simp [below]

@[simp] theorem mem_upTo : e ∈ m.upTo k ↔ e ∈ m.entries ∧ e.1 ≤ k := by
  simp [upTo]

@[simp] theorem mem_above : e ∈ m.above k ↔ e ∈ m.entries ∧ k < e.1 := by
  simp [above]

@[simp] theorem mem_fromKey : e ∈ m.fromKey k ↔ e ∈ m.entries ∧ k ≤ e.1 := by
  simp [fromKey]

@[simp] theorem mem_erase : e ∈ (m.erase k).entries ↔ e ∈ m.entries ∧ e.1 ≠ k := by
  simp [erase]

@[simp] theorem mem_eraseIf {p : K → Bool} :
    e ∈ (m.eraseIf p).entries ↔ e ∈ m.entries ∧ p e.1 = false := by
  simp [eraseIf]

@[simp] theorem mem_set :
    e ∈ (m.set k v).entries ↔ e = (k, v) ∨ e ∈ m.entries ∧ e.1 ≠ k := by
  simp only [set, List.mem_append, List.mem_cons, mem_below, mem_above]
  grind

/-- A key has one entry. -/
theorem mem_unique {a b : K × V} (ha : a ∈ m.entries) (hb : b ∈ m.entries)
    (same : a.1 = b.1) : a = b := by
  have keys : (m.entries.map Prod.fst).Nodup := List.pairwise_map.mpr (m.sorted.imp ne_of_lt)
  exact List.inj_on_of_nodup_map keys ha hb same

theorem find?_eq_some : m.find? k = some v ↔ (k, v) ∈ m.entries := by
  constructor
  · intro found
    simp only [find?, Option.map_eq_some_iff] at found
    obtain ⟨e, hit, rfl⟩ := found
    have key : e.1 = k := by simpa using List.find?_some hit
    exact key ▸ List.mem_of_find?_eq_some hit
  · intro mem
    cases hit : m.entries.find? (·.1 = k) with
    | none =>
      have missing := List.find?_eq_none.mp hit (k, v) mem
      simp at missing
    | some e =>
      have key : e.1 = k := by simpa using List.find?_some hit
      have same := mem_unique (List.mem_of_find?_eq_some hit) mem key
      simp [find?, hit, same]

theorem insert_of_present (present : (k, w) ∈ m.entries) : m.insert k v = m := by
  simp [insert, find?_eq_some.mpr present]

/-- An insertion that no existing entry contradicts adds the entry. -/
theorem mem_insert (agree : ∀ w, (k, w) ∈ m.entries → w = v) :
    e ∈ (m.insert k v).entries ↔ e = (k, v) ∨ e ∈ m.entries := by
  cases found : m.find? k with
  | none =>
    have absent : ∀ e ∈ m.entries, e.1 ≠ k := by
      rintro e mem rfl
      simp [find?_eq_some.mpr mem] at found
    have new : m.insert k v = m.set k v := by simp [insert, found]
    rw [new, mem_set]
    exact or_congr_right ⟨fun old => old.1, fun old => ⟨old, absent e old⟩⟩
  | some w =>
    have mem := find?_eq_some.mp found
    obtain rfl := agree w mem
    rw [insert_of_present mem]
    constructor
    · exact .inr
    · rintro (rfl | old)
      · exact mem
      · exact old

/-- In a list sorted by `R` every other element is `R`-before the last one. -/
theorem rel_getLast {α : Type*} {R : α → α → Prop} {l : List α} {last : α}
    (sorted : l.Pairwise R) (atEnd : l.getLast? = some last) :
    last ∈ l ∧ ∀ a ∈ l, a = last ∨ R a last := by
  obtain ⟨front, rfl⟩ := List.getLast?_eq_some_iff.mp atEnd
  refine ⟨by simp, fun a ha => ?_⟩
  rcases List.mem_append.mp ha with ha | ha
  · exact .inr ((List.pairwise_append.mp sorted).2.2 a ha last (by simp))
  · exact .inl (by simpa using ha)

/-- The entries above the key of an entry are those that follow it. -/
theorem above_of_entries {front rest : List (K × V)}
    (entries : m.entries = front ++ e :: rest) : m.above e.1 = rest := by
  have sorted := entries ▸ m.sorted
  obtain ⟨-, tail, across⟩ := List.pairwise_append.mp sorted
  have before : front.filter (fun a => decide (e.1 < a.1)) = [] := by
    rw [List.filter_eq_nil_iff]
    intro a ha
    simpa using (across a ha e (by simp)).le
  have after : rest.filter (fun a => decide (e.1 < a.1)) = rest := by
    rw [List.filter_eq_self]
    intro a ha
    simpa using (List.pairwise_cons.mp tail).1 a ha
  simp [above, entries, before, after]

theorem erase_of_entries {front rest : List (K × V)} (entries : m.entries = front ++ e :: rest) :
    (m.erase e.1).entries = front ++ rest := by
  have sorted := entries ▸ m.sorted
  obtain ⟨-, tail, across⟩ := List.pairwise_append.mp sorted
  have before : front.filter (fun a => decide (a.1 ≠ e.1)) = front := by
    rw [List.filter_eq_self]
    intro a ha
    simpa using (across a ha e List.mem_cons_self).ne
  have after : rest.filter (fun a => decide (a.1 ≠ e.1)) = rest := by
    rw [List.filter_eq_self]
    intro a ha
    simpa using ((List.pairwise_cons.mp tail).1 a ha).ne'
  show m.entries.filter _ = _
  rw [entries, List.filter_append, List.filter_cons_of_neg (by simp), before, after]

/-- An entry above all others goes to the end. -/
theorem set_of_last (last : ∀ a ∈ m.entries, a.1 < k) :
    (m.set k v).entries = m.entries ++ [(k, v)] := by
  have front : m.below k = m.entries := by
    rw [below, List.filter_eq_self]
    intro a ha
    simpa using last a ha
  have behind : m.above k = [] := by
    rw [above, List.filter_eq_nil_iff]
    intro a ha
    simpa using (last a ha).le
  show m.below k ++ (k, v) :: m.above k = _
  rw [front, behind]

/-- The entries above the key of the first entry from `k` on are those that follow it. -/
theorem above_of_fromKey {rest : List (K × V)} (entries : m.fromKey k = e :: rest) :
    m.above e.1 = rest := by
  have start : k ≤ e.1 := (mem_fromKey.mp (entries ▸ List.mem_cons_self)).2
  have within : m.above e.1 = (m.fromKey k).filter (e.1 < ·.1) := by
    rw [fromKey, List.filter_filter]
    refine List.filter_congr fun a _ => ?_
    by_cases later : e.1 < a.1
    · simp [later, start.trans later.le]
    · simp [later]
  have sorted : (e :: rest).Pairwise fun a b => a.1 < b.1 := entries ▸ m.sorted.filter _
  have after : rest.filter (fun a => decide (e.1 < a.1)) = rest := by
    rw [List.filter_eq_self]
    intro a ha
    simpa using (List.pairwise_cons.mp sorted).1 a ha
  rw [within, entries, List.filter_cons_of_neg (by simp), after]

/-- The first key from `k` on is the least that is not below it. -/
theorem head?_fromKey {j : K} : (m.fromKey k).head?.map Prod.fst = some j ↔
    IsLeast {i | (∃ v, (i, v) ∈ m.entries) ∧ k ≤ i} j := by
  cases entries : m.fromKey k with
  | nil =>
    refine iff_of_false nofun fun least => ?_
    obtain ⟨⟨v, mem⟩, le⟩ := least.1
    simpa [entries] using (mem_fromKey (e := (j, v))).mpr ⟨mem, le⟩
  | cons e rest =>
    have sorted : (e :: rest).Pairwise fun a b => a.1 < b.1 := entries ▸ m.sorted.filter _
    have least : IsLeast {i | (∃ v, (i, v) ∈ m.entries) ∧ k ≤ i} e.1 := by
      have found := mem_fromKey.mp (entries ▸ List.mem_cons_self : e ∈ m.fromKey k)
      refine ⟨⟨⟨e.2, found.1⟩, found.2⟩, ?_⟩
      rintro i ⟨⟨v, mem⟩, le⟩
      have later : (i, v) ∈ e :: rest := entries ▸ mem_fromKey.mpr ⟨mem, le⟩
      rcases List.mem_cons.mp later with rfl | later
      · exact le_rfl
      · exact ((List.pairwise_cons.mp sorted).1 _ later).le
    rw [List.head?_cons, Option.map_some, Option.some.injEq]
    exact ⟨fun same => same ▸ least, least.unique⟩

/-- One entry further, with natural numbers as keys. -/
theorem fromKey_succ {m : OrderedMap Nat V} {k : Nat} {e : Nat × V} {rest : List (Nat × V)}
    (entries : m.fromKey k = e :: rest) : m.fromKey (e.1 + 1) = rest :=
  above_of_fromKey entries

/-! ### Assigning or erasing -/

/-- Assignment of a value, or erasure. -/
def put (m : OrderedMap K V) (k : K) : Option V → OrderedMap K V
  | some v => m.set k v
  | none => m.erase k

/-- The sum of `f` over the values. -/
def total {M : Type*} [AddCommGroup M] (f : V → M) (m : OrderedMap K V) : M :=
  (m.entries.map fun e => f e.2).sum

@[simp] theorem find?_empty (k : K) : (empty : OrderedMap K V).find? k = none := rfl

theorem eq_empty (none : m.entries = []) : m = empty := by
  cases m
  cases none
  rfl

theorem find?_eq_none : m.find? k = none ↔ ∀ v, (k, v) ∉ m.entries := by
  simp only [Option.eq_none_iff_forall_ne_some, ne_eq, find?_eq_some]

theorem find?_put (m : OrderedMap K V) (k : K) (v : Option V) (j : K) :
    (m.put k v).find? j = if j = k then v else m.find? j := by
  apply Option.ext
  intro w
  cases v with
  | none =>
    rw [put, find?_eq_some, mem_erase]
    split_ifs with same
    · simp [same]
    · rw [find?_eq_some]
      exact and_iff_left same
  | some v =>
    rw [put, find?_eq_some, mem_set]
    split_ifs with same
    · simp [same, eq_comm]
    · rw [find?_eq_some]
      simp [same]

@[simp] theorem find?_put_self (m : OrderedMap K V) (k : K) (v : Option V) :
    (m.put k v).find? k = v := by
  rw [find?_put, if_pos rfl]

/-- Two maps with the same entries are the same. -/
theorem ext_mem {m m' : OrderedMap K V} (same : ∀ e, e ∈ m.entries ↔ e ∈ m'.entries) : m = m' := by
  have irrefl : Std.Irrefl fun a b : K × V => a.1 < b.1 := ⟨fun a => lt_irrefl a.1⟩
  have antisymm : Std.Antisymm fun a b : K × V => a.1 < b.1 := ⟨fun _ _ lt gt => absurd gt lt.asymm⟩
  have entries : m.entries = m'.entries := m.sorted.eq_of_mem_iff m'.sorted same
  cases m
  cases m'
  congr

theorem erase_put (m : OrderedMap K V) (k : K) (v : Option V) :
    (m.put k v).erase k = m.erase k := by
  apply ext_mem
  intro e
  cases v with
  | none => simp [put]
  | some v =>
    simp only [put, mem_erase, mem_set]
    constructor
    · rintro ⟨rfl | old, other⟩
      · exact absurd rfl other
      · exact old
    · exact fun old => ⟨.inr old, old.2⟩

theorem nodup_entries (m : OrderedMap K V) : m.entries.Nodup :=
  m.sorted.imp fun lt same => absurd (same ▸ lt) (lt_irrefl _)

theorem entries_perm (m : OrderedMap K V) (k : K) :
    m.entries.Perm ((m.find? k).toList.map (fun v => (k, v)) ++ (m.erase k).entries) := by
  cases found : m.find? k with
  | none =>
    have absent := find?_eq_none.mp found
    refine (List.perm_ext_iff_of_nodup m.nodup_entries (m.erase k).nodup_entries).mpr ?_
    rintro ⟨j, v⟩
    rw [mem_erase]
    refine ⟨fun mem => ⟨mem, ?_⟩, fun mem => mem.1⟩
    rintro rfl
    exact absent v mem
  | some v =>
    have present := find?_eq_some.mp found
    have new : (k, v) ∉ (m.erase k).entries := by simp
    refine (List.perm_ext_iff_of_nodup m.nodup_entries
      (List.nodup_cons.mpr ⟨new, (m.erase k).nodup_entries⟩)).mpr fun e => ?_
    rw [List.mem_cons, mem_erase]
    constructor
    · intro mem
      by_cases same : e.1 = k
      · exact .inl (mem_unique mem present same)
      · exact .inr ⟨mem, same⟩
    · rintro (rfl | old)
      · exact present
      · exact old.1

section Total

variable {M : Type*} [AddCommGroup M] (f : V → M)

@[simp] theorem total_empty : (empty : OrderedMap K V).total f = 0 := rfl

theorem total_eq_erase (m : OrderedMap K V) (k : K) :
    m.total f = (m.find? k).elim 0 f + (m.erase k).total f := by
  have sum := (m.entries_perm k |>.map fun e => f e.2).sum_eq
  rw [total, sum, List.map_append, List.sum_append, total]
  cases m.find? k <;> simp

theorem total_put (m : OrderedMap K V) (k : K) (v : Option V) :
    (m.put k v).total f = m.total f - (m.find? k).elim 0 f + v.elim 0 f := by
  rw [total_eq_erase f (m.put k v) k, total_eq_erase f m k, erase_put, find?_put_self]
  abel

end Total

/-- One value's share in a sum of natural numbers. -/
theorem le_total {f : V → ℕ} (found : m.find? k = some v) :
    (f v : ℤ) ≤ m.total fun v => (f v : ℤ) := by
  have rest : 0 ≤ (m.erase k).total fun v => (f v : ℤ) := by
    refine List.sum_nonneg fun x mem => ?_
    obtain ⟨e, -, rfl⟩ := List.mem_map.mp mem
    exact Int.natCast_nonneg _
  rw [total_eq_erase _ m k, found]
  exact le_add_of_nonneg_right rest

end OrderedMap

end TokuMX.Lib
