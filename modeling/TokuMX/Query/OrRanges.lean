import TokuMX.Lib.Runs
import TokuMX.Query.FieldRangeSet

/-!
Range elimination for `$or` (`OrRangeGenerator` in `db/queryutil.cpp`).

The clauses of an `$or` are scanned one after the other. After a scan the ranges of the scanned
clause are taken away from the clauses that remain, and clauses that become empty are dropped.
What is taken away is the clause as the query has it, cut down to the fields of the index that
was used; what was scanned is the clause as earlier scans have left it, cut down to the same
fields. A field that is not in the index is dropped from both, so a document outside the clause
may be taken away that was not scanned: `document_lost` has one.

A clause has two sets of ranges, for indexes with one key a document and for multikey indexes.
Both are made from the clause, and both are shrunk; the multikey one says whether a clause is
empty for every index.

* `Accounted.step`: a pop keeps every document of the query scanned or in a clause that remains,
  if what it takes away was scanned or belongs to the clause (`Scan.Sound`).
* `loses_nothing`: the same for whole runs, and the bounds of the difference.
-/

namespace TokuMX.Query

open TokuMX.Lib FieldRangeSet

variable {V : Type} [ElementValues V]

structure FieldRangeSetPair (V : Type) where
  singleKey : FieldRangeSet V
  multiKey : FieldRangeSet V

namespace FieldRangeSetPair

/-- `frsForIndex`; `isMultikey` is `none` if there is no index. -/
def frsForIndex (c : FieldRangeSetPair V) : (isMultikey : Option Bool) → FieldRangeSet V
  | some false => c.singleKey
  | _ => c.multiKey

def matchPossible (c : FieldRangeSetPair V) : Bool := c.multiKey.matchPossible

def matchPossibleForIndex (c : FieldRangeSetPair V) (isMultikey : Option Bool)
    (keyPattern : List String) : Bool :=
  c.matchPossible &&
    (isMultikey.isNone || (c.frsForIndex isMultikey).matchPossibleForIndex keyPattern)

/-- `operator-=`. -/
def subtract (c : FieldRangeSetPair V) (scanned : FieldRangeSet V) : FieldRangeSetPair V :=
  ⟨c.singleKey.subtract scanned, c.multiKey.subtract scanned⟩

/-- The document lies in both sets. -/
def Contains (c : FieldRangeSetPair V) (doc : String → V) : Prop :=
  c.singleKey.Contains doc ∧ c.multiKey.Contains doc

/-- The ranges of one clause: the ones for multikey indexes leave out no document. -/
structure Formed (c : FieldRangeSetPair V) : Prop where
  singleKey : c.singleKey.WellFormed
  multiKey : c.multiKey.WellFormed
  wider : ∀ doc, c.singleKey.Contains doc → c.multiKey.Contains doc

end FieldRangeSetPair

/-- The clauses that remain, each as it is now and as the query has it. -/
structure OrRangeGenerator (V : Type) where
  orSets : List (FieldRangeSetPair V × FieldRangeSetPair V)

/-- The calls that pop a clause. -/
inductive Pop where
  | popOrClause (isMultikey : Option Bool) (keyPattern : List String)
  | popOrClauseSingleKey
deriving DecidableEq

def Pop.isMultikey : Pop → Option Bool
  | popOrClause isMultikey _ => isMultikey
  | popOrClauseSingleKey => some false

def Pop.keyPattern : Pop → List String
  | popOrClause _ keyPattern => keyPattern
  | popOrClauseSingleKey => []

/-- The scan of a clause, by the set of ranges for the index that was used. -/
structure Scan (V : Type) where
  pop : Pop
  current : FieldRangeSet V
  original : FieldRangeSet V

namespace OrRangeGenerator

def start (clauses : List (FieldRangeSetPair V)) : OrRangeGenerator V :=
  ⟨clauses.map fun c => (c, c)⟩

/-- What is taken away from the clauses that remain. -/
def toDiff (original : FieldRangeSet V) (keyPattern : List String) : FieldRangeSet V :=
  if !keyPattern.isEmpty && original.matchPossibleForIndex keyPattern then
    original.subset keyPattern
  else original

/-- The loop body of `_popOrClause`; `none` if the clause is dropped. `popOrClauseSingleKey` gives
no collection and does not ask for an index. -/
def shrink (taken : FieldRangeSet V) (pop : Pop)
    (clause : FieldRangeSetPair V × FieldRangeSetPair V) :
    Option (FieldRangeSetPair V × FieldRangeSetPair V) :=
  let left := clause.1.subtract taken
  let impossible := match pop with
    | .popOrClause isMultikey keyPattern => !left.matchPossibleForIndex isMultikey keyPattern
    | .popOrClauseSingleKey => false
  if !left.matchPossible || impossible then none else some (left, clause.2)

/-- `popOrClause` and `popOrClauseSingleKey`; `none` if there is no clause to pop. -/
def popFront (g : OrRangeGenerator V) (pop : Pop) : Option (Scan V × OrRangeGenerator V) :=
  match g.orSets with
  | [] => none
  | (current, original) :: rest =>
    let scan : Scan V :=
      ⟨pop, current.frsForIndex pop.isMultikey, original.frsForIndex pop.isMultikey⟩
    some (scan, ⟨rest.filterMap (shrink (toDiff scan.original pop.keyPattern) pop)⟩)

def Step (g : OrRangeGenerator V) (scan : Scan V) (g' : OrRangeGenerator V) : Prop :=
  g.popFront scan.pop = some (scan, g')

def popAll (g : OrRangeGenerator V) : List Pop → Option (List (Scan V) × OrRangeGenerator V)
  | [] => some ([], g)
  | pop :: rest => do
    let (scan, next) ← g.popFront pop
    let (scans, last) ← next.popAll rest
    some (scan :: scans, last)

end OrRangeGenerator

namespace Scan

/-- The document lies in the ranges that are scanned. -/
def Covers (scan : Scan V) (doc : String → V) : Prop :=
  if scan.pop.keyPattern = [] then scan.current.Contains doc
  else ∀ field ∈ scan.pop.keyPattern, (scan.current.range field).Contains (doc field)

instance (scan : Scan V) (doc : String → V) : Decidable (scan.Covers doc) :=
  inferInstanceAs (Decidable (ite ..))

/-- A document in the original clause's ranges on the fields of the index, where these do not
look universal, is in the current clause's ranges on them or in the original clause. -/
def Sound (scan : Scan V) : Prop :=
  ∀ doc : String → V,
    (∀ field ∈ scan.pop.keyPattern,
      (scan.original.range field).universal ∨ (scan.original.range field).Contains (doc field)) →
    (∀ field ∈ scan.pop.keyPattern, (scan.current.range field).Contains (doc field)) ∨
      scan.original.Contains doc

/-- The index has every field of the clause, and no range of the clause looks universal. -/
def Indexed (scan : Scan V) : Bool :=
  scan.original.ranges.entries.all fun e => e.1 ∈ scan.pop.keyPattern ∧ ¬ e.2.universal

theorem Indexed.sound {scan : Scan V} (indexed : scan.Indexed) : scan.Sound := by
  intro doc taken
  refine .inr fun e mem => ?_
  have field := List.all_eq_true.mp indexed e mem
  simp only [decide_eq_true_eq] at field
  rw [← range_of_mem mem]
  refine (taken e.1 field.1).resolve_left ?_
  rw [range_of_mem mem]
  exact field.2

end Scan

namespace OrRangeGenerator

variable {R : Type} [LinearOrder R] {rank : V → R}
  {g g' : OrRangeGenerator V} {scan : Scan V} {scans : List (Scan V)} {doc : String → V}

theorem run_of_popAll {pops : List Pop} (popped : g.popAll pops = some (scans, g')) :
    Run Step g scans g' := by
  induction pops generalizing g scans with
  | nil =>
    cases popped
    exact .nil _
  | cons pop rest ih =>
    simp only [popAll, Option.bind_eq_bind, Option.bind_eq_some_iff] at popped
    obtain ⟨⟨scan, next⟩, front, ⟨later, last⟩, pops, same⟩ := popped
    cases same
    have label : scan.pop = pop := by
      rw [popFront] at front
      split at front
      · cases front
      · cases front
        rfl
    refine .cons ?_ (ih pops)
    rw [Step, label]
    exact front

/-- What holds after some scans. -/
structure Accounted (clauses : List (FieldRangeSetPair V)) (scans : List (Scan V))
    (g : OrRangeGenerator V) : Prop where
  current : ∀ c ∈ g.orSets, c.1.singleKey.WellFormed ∧ c.1.multiKey.WellFormed
  original : ∀ c ∈ g.orSets, c.2.Formed
  /-- what a set of a clause has lost was scanned -/
  lost : ∀ c ∈ g.orSets, ∀ isMultikey doc, (c.2.frsForIndex isMultikey).Contains doc →
    (c.1.frsForIndex isMultikey).Contains doc ∨ ∃ scan ∈ scans, scan.Covers doc
  /-- every document of the query was scanned or will be -/
  kept : ∀ doc, (∃ c ∈ clauses, c.singleKey.Contains doc) →
    (∃ scan ∈ scans, scan.Covers doc) ∨ ∃ c ∈ g.orSets, c.1.Contains doc

variable {clauses : List (FieldRangeSetPair V)}

theorem accounted_start (formed : ∀ c ∈ clauses, c.Formed) :
    Accounted clauses [] (start clauses) where
  current := by
    intro c mem
    obtain ⟨c, at_c, rfl⟩ := List.mem_map.mp mem
    exact ⟨(formed c at_c).singleKey, (formed c at_c).multiKey⟩
  original := by
    intro c mem
    obtain ⟨c, at_c, rfl⟩ := List.mem_map.mp mem
    exact formed c at_c
  lost := by
    intro c mem isMultikey doc inside
    obtain ⟨c, -, rfl⟩ := List.mem_map.mp mem
    exact .inl inside
  kept := by
    rintro doc ⟨c, mem, inside⟩
    exact .inr ⟨(c, c), List.mem_map_of_mem mem, inside, (formed c mem).wider doc inside⟩

omit [ElementValues V] in
theorem frsForIndex_cases {P : FieldRangeSet V → Prop} {c : FieldRangeSetPair V}
    (single : P c.singleKey) (multi : P c.multiKey) (isMultikey : Option Bool) :
    P (c.frsForIndex isMultikey) := by
  rcases isMultikey with _ | _ | _
  · exact multi
  · exact single
  · exact multi

section Ranked

variable (ranked : Ranked rank)
include ranked

theorem covers_of_contains (inside : scan.current.Contains doc) : scan.Covers doc := by
  rw [Scan.Covers]
  split_ifs with none
  · exact inside
  · exact fun field _ => (contains_iff_range ranked).mp inside field

theorem toDiff_wellFormed {original : FieldRangeSet V} (h : original.WellFormed)
    (keyPattern : List String) : (toDiff original keyPattern).WellFormed := by
  rw [toDiff]
  split_ifs
  · intro e mem
    have found := OrderedMap.find?_eq_some.mpr mem
    rw [find?_subset] at found
    split_ifs at found with kept
    rw [← Option.some.inj found]
    exact range_wellFormed ranked h e.1
  · exact h

/-- A set that has a document looks possible. -/
theorem possible_of_contains {s : FieldRangeSet V} (inside : s.Contains doc) :
    s.matchPossible ∧ ∀ keyPattern, s.matchPossibleForIndex keyPattern := by
  have nonempty : ∀ {r : FieldRange V} {v : V}, r.Contains v → r.empty = false := by
    rintro r v ⟨i, mem, -⟩
    exact List.isEmpty_eq_false_iff.mpr (List.ne_nil_of_mem mem)
  have possible : s.matchPossible :=
    List.all_eq_true.mpr fun e mem => by simp [nonempty (inside e mem)]
  have possibleFields : ∀ fields, s.possibleFields fields := by
    intro fields
    induction fields with
    | nil => rfl
    | cons field rest ih =>
      have here := nonempty ((contains_iff_range ranked).mp inside field)
      simp [possibleFields, here, ih]
  refine ⟨possible, fun keyPattern => ?_⟩
  rw [matchPossibleForIndex]
  split_ifs
  · exact possible
  · exact possibleFields keyPattern

/-- A clause that has a document is not dropped. -/
theorem shrink_of_contains {taken : FieldRangeSet V} {pop : Pop}
    {clause : FieldRangeSetPair V × FieldRangeSetPair V}
    (inside : (clause.1.subtract taken).Contains doc) :
    shrink taken pop clause = some (clause.1.subtract taken, clause.2) := by
  have possible := (possible_of_contains ranked inside.2).1
  have index : ∀ isMultikey keyPattern,
      (clause.1.subtract taken).matchPossibleForIndex isMultikey keyPattern := by
    intro isMultikey keyPattern
    have chosen : ((clause.1.subtract taken).frsForIndex isMultikey).Contains doc :=
      frsForIndex_cases (P := (·.Contains doc)) inside.1 inside.2 isMultikey
    simp [FieldRangeSetPair.matchPossibleForIndex, FieldRangeSetPair.matchPossible, possible,
      (possible_of_contains ranked chosen).2]
  cases pop <;> simp [shrink, FieldRangeSetPair.matchPossible, possible, index]

/-- What a scan takes away was scanned, by this scan or an earlier one. -/
theorem Accounted.covered_of_toDiff (h : Accounted clauses scans g)
    {current original : FieldRangeSetPair V} (front : (current, original) ∈ g.orSets)
    (popped : scan = ⟨scan.pop, current.frsForIndex scan.pop.isMultikey,
      original.frsForIndex scan.pop.isMultikey⟩) (sound : scan.Sound)
    (taken : (toDiff scan.original scan.pop.keyPattern).Contains doc) :
    ∃ s ∈ scans ++ [scan], s.Covers doc := by
  have last : scan ∈ scans ++ [scan] := List.mem_append_right _ (List.mem_singleton.mpr rfl)
  have of_original : scan.original.Contains doc → ∃ s ∈ scans ++ [scan], s.Covers doc := by
    intro inside
    rw [popped] at inside
    rcases h.lost _ front _ doc inside with now | ⟨s, mem, covers⟩
    · refine ⟨_, last, covers_of_contains ranked ?_⟩
      rw [popped]
      exact now
    · exact ⟨s, List.mem_append_left _ mem, covers⟩
  rw [toDiff] at taken
  split_ifs at taken with pattern
  · rcases sound doc ((contains_subset _ _).mp taken) with scanned | inside
    · refine ⟨_, last, ?_⟩
      have named : scan.pop.keyPattern ≠ [] := by
        intro none
        simp [none] at pattern
      rw [Scan.Covers, if_neg named]
      exact scanned
    · exact of_original inside
  · exact of_original taken

theorem Accounted.step (h : Accounted clauses scans g) (step : Step g scan g')
    (sound : scan.Sound) : Accounted clauses (scans ++ [scan]) g' := by
  obtain ⟨orSets⟩ := g
  cases orSets with
  | nil => cases step
  | cons front rest =>
    obtain ⟨current, original⟩ := front
    have front_mem : (current, original) ∈ (current, original) :: rest := List.mem_cons_self
    obtain ⟨popped, rfl⟩ := Prod.mk.inj (Option.some.inj step)
    have formed := h.original _ front_mem
    have originalFormed : scan.original.WellFormed := by
      rw [← popped]
      exact frsForIndex_cases (P := WellFormed) formed.singleKey formed.multiKey _
    rw [popped]
    have takenFormed := toDiff_wellFormed ranked originalFormed scan.pop.keyPattern
    -- A set keeps a document or the document was scanned.
    have keeps : ∀ {s : FieldRangeSet V}, s.WellFormed → ∀ doc, s.Contains doc →
        (s.subtract (toDiff scan.original scan.pop.keyPattern)).Contains doc ∨
          ∃ s ∈ scans ++ [scan], s.Covers doc := by
      intro s left doc inside
      by_cases taken : (toDiff scan.original scan.pop.keyPattern).Contains doc
      · exact .inr (h.covered_of_toDiff ranked front_mem popped.symm sound taken)
      · exact .inl (contains_subtract_of ranked left takenFormed inside taken)
    have earlier : ∀ {doc : String → V}, (∃ s ∈ scans, s.Covers doc) →
        ∃ s ∈ scans ++ [scan], s.Covers doc :=
      fun ⟨s, mem, covers⟩ => ⟨s, List.mem_append_left _ mem, covers⟩
    -- What remains of a clause.
    have remains : ∀ c' ∈ rest.filterMap
        (shrink (toDiff scan.original scan.pop.keyPattern) scan.pop),
        ∃ c ∈ rest, c' = (c.1.subtract (toDiff scan.original scan.pop.keyPattern), c.2) := by
      intro c' mem
      obtain ⟨c, at_c, shrunk⟩ := List.mem_filterMap.mp mem
      simp only [shrink] at shrunk
      split_ifs at shrunk
      exact ⟨c, at_c, (Option.some.inj shrunk).symm⟩
    constructor
    case current =>
      intro c' mem
      obtain ⟨c, at_c, rfl⟩ := remains c' mem
      have old := h.current c (List.mem_cons_of_mem _ at_c)
      exact ⟨FieldRangeSet.subtract_wellFormed ranked old.1 takenFormed,
        FieldRangeSet.subtract_wellFormed ranked old.2 takenFormed⟩
    case original =>
      intro c' mem
      obtain ⟨c, at_c, rfl⟩ := remains c' mem
      exact h.original c (List.mem_cons_of_mem _ at_c)
    case lost =>
      intro c' mem isMultikey doc inside
      obtain ⟨c, at_c, rfl⟩ := remains c' mem
      have old := h.current c (List.mem_cons_of_mem _ at_c)
      rcases h.lost c (List.mem_cons_of_mem _ at_c) isMultikey doc inside with now | scanned
      · rcases isMultikey with _ | _ | _
        · exact keeps old.2 doc now
        · exact keeps old.1 doc now
        · exact keeps old.2 doc now
      · exact .inr (earlier scanned)
    case kept =>
      intro doc asked
      rcases h.kept doc asked with scanned | ⟨c, mem, inside⟩
      · exact .inl (earlier scanned)
      rcases List.mem_cons.mp mem with rfl | at_c
      · refine .inl ⟨scan, List.mem_append_right _ (List.mem_singleton.mpr rfl),
          covers_of_contains ranked ?_⟩
        rw [← popped]
        exact frsForIndex_cases (P := (·.Contains doc)) inside.1 inside.2 _
      · have old := h.current c (List.mem_cons_of_mem _ at_c)
        rcases keeps old.1 doc inside.1 with single | scanned
        · rcases keeps old.2 doc inside.2 with multi | scanned
          · exact .inr ⟨_, List.mem_filterMap.mpr
              ⟨c, at_c, shrink_of_contains ranked ⟨single, multi⟩⟩, single, multi⟩
          · exact .inl scanned
        · exact .inl scanned

theorem Accounted.run (formed : ∀ c ∈ clauses, c.Formed)
    (run : Run Step (start clauses) scans g) (sound : ∀ scan ∈ scans, scan.Sound) :
    Accounted clauses scans g := by
  have history := run.history
    (P := fun scans g => (∀ scan ∈ scans, scan.Sound) → Accounted clauses scans g)
    (fun _ => accounted_start formed)
    (fun past a scan b _ before step sound =>
      (before fun s mem => sound s (List.mem_append_left _ mem)).step ranked step
        (sound scan (List.mem_append_right _ (List.mem_singleton.mpr rfl))))
  exact history sound

end Ranked

/-- For every list of clauses and every run of pops, with any key patterns, whose scans are sound:
every document of a clause lies in the ranges scanned or in a clause that remains, and once the
clauses are exhausted it was scanned. The difference of two sets always lies between the exact
difference and the first set. -/
theorem loses_nothing {p : BSON.Value → Prop} [Fact (p ElementValues.minKey)]
    [Fact (p ElementValues.maxKey)] (ordered : ComparesOn BSON.Value.woCompare {v | p v})
    {clauses : List (FieldRangeSetPair { v // p v })} (formed : ∀ c ∈ clauses, c.Formed)
    {scans : List (Scan { v // p v })} {g : OrRangeGenerator { v // p v }}
    (run : Run Step (start clauses) scans g) (sound : ∀ scan ∈ scans, scan.Sound) :
    (∀ doc, (∃ c ∈ clauses, c.singleKey.Contains doc) →
      (∃ scan ∈ scans, scan.Covers doc) ∨ ∃ c ∈ g.orSets, c.1.singleKey.Contains doc) ∧
    ∀ A B : FieldRangeSet { v // p v }, A.WellFormed → B.WellFormed → ∀ doc,
      (A.Contains doc ∧ ¬ B.Contains doc → (A.subtract B).Contains doc) ∧
        ((A.subtract B).Contains doc → A.Contains doc) := by
  obtain ⟨R, order, rank, ranked⟩ := exists_ranked ordered
  refine ⟨fun doc asked => ?_, fun A B left right doc => ⟨?_, ?_⟩⟩
  · exact ((Accounted.run ranked formed run sound).kept doc asked).imp_right
      fun ⟨c, mem, inside⟩ => ⟨c, mem, inside.1⟩
  · exact fun inside => FieldRangeSet.contains_subtract_of ranked left right inside.1 inside.2
  · exact FieldRangeSet.contains_of_subtract ranked left right

/-! ### Short runs -/

/-- A clause with the given ranges, for indexes of both kinds. -/
def clause (single multi : List (String × FieldRange V)) : FieldRangeSetPair V where
  singleKey := ⟨single.foldl (fun ranges e => ranges.set e.1 e.2) .empty, true⟩
  multiKey := ⟨multi.foldl (fun ranges e => ranges.set e.1 e.2) .empty, false⟩

/-- Two clauses on one field, scanned through its index. The second is shrunk in between, but only
on that field. -/
theorem loses_nothing_one_field :
    ∃ (clauses : List (FieldRangeSetPair RegularValue)) (scans : List (Scan RegularValue))
      (g : OrRangeGenerator RegularValue),
      clauses.length = 2 ∧ Run Step (start clauses) scans g ∧ g.orSets = [] ∧
      (∀ doc, (∃ c ∈ clauses, c.singleKey.Contains doc) → ∃ scan ∈ scans, scan.Covers doc) := by
  let between (m n : BitVec 32) : List (String × FieldRange RegularValue) :=
    [("f", .ofIntervals [.closed (regularInt m) (regularInt n)])]
  let clauses := [clause (between 0 10) (between 0 10), clause (between 5 20) (between 5 20)]
  let pop : Pop := .popOrClause (some false) ["f"]
  have ran : ((start clauses).popAll [pop, pop]).any (fun r =>
      r.2.orSets.isEmpty && r.1.all Scan.Indexed) := by decide +kernel
  cases popped : (start clauses).popAll [pop, pop] with
  | none =>
    rw [popped] at ran
    cases ran
  | some r =>
    obtain ⟨scans, g⟩ := r
    rw [popped, Option.any_some, Bool.and_eq_true] at ran
    have run := run_of_popAll popped
    have sound : ∀ scan ∈ scans, scan.Sound :=
      fun scan mem => Scan.Indexed.sound (List.all_eq_true.mp ran.2 scan mem)
    have wellFormed : ∀ c ∈ clauses, c.singleKey.WellFormed := by decide +kernel
    have formed : ∀ c ∈ clauses, c.Formed := by
      intro c mem
      have same : c.multiKey.ranges = c.singleKey.ranges := by
        simp only [clauses, List.mem_cons, List.not_mem_nil, or_false] at mem
        rcases mem with rfl | rfl <;> rfl
      have alike : ∀ doc, c.singleKey.Contains doc → c.multiKey.Contains doc := fun doc => by
        simp only [FieldRangeSet.Contains, same, imp_self]
      have multi := wellFormed c mem
      rw [FieldRangeSet.WellFormed, ← same] at multi
      exact ⟨wellFormed c mem, multi, alike⟩
    have none := List.isEmpty_iff.mp ran.1
    refine ⟨clauses, scans, g, rfl, run, none, fun doc asked => ?_⟩
    have kept := (loses_nothing BSON.regular_ordered formed run sound).1 doc asked
    rw [none] at kept
    simpa using kept

/-- What can be seen of a run: how many clauses it leaves and whether a scan covered the
document. -/
def outcome (clauses : List (FieldRangeSetPair V)) (pops : List Pop) (doc : String → V) :
    Option (Nat × Bool) :=
  ((start clauses).popAll pops).map fun r =>
    (r.2.orSets.length, r.1.any fun scan => scan.Covers doc)

theorem run_of_outcome {pops : List Pop} {left : Nat} {covered : Bool}
    (ran : outcome clauses pops doc = some (left, covered)) :
    ∃ scans g, Run Step (start clauses) scans g ∧ g.orSets.length = left ∧
      ((∃ scan ∈ scans, scan.Covers doc) ↔ covered) := by
  obtain ⟨⟨scans, g⟩, popped, same⟩ := Option.map_eq_some_iff.mp ran
  cases same
  exact ⟨scans, g, run_of_popAll popped, rfl, by simp⟩

/-- The second clause is shrunk to `f` above 10 by the scan of the first, then scanned through an
index of `f` alone. With it the third clause is dropped, although the document with `f` 3 and `g`
7 has been in no scan. -/
theorem document_lost :
    ∃ (clauses : List (FieldRangeSetPair BSON.Value)) (doc : String → BSON.Value)
      (scans : List (Scan BSON.Value)) (g : OrRangeGenerator BSON.Value),
      (∀ c ∈ clauses, c.singleKey.WellFormed ∧ c.multiKey.WellFormed) ∧
      Run Step (start clauses) scans g ∧ g.orSets = [] ∧
      (∃ c ∈ clauses, c.singleKey.Contains doc) ∧ ¬ ∃ scan ∈ scans, scan.Covers doc := by
  let closed (l u : BSON.Value) : FieldRange BSON.Value := .ofIntervals [.closed l u]
  let f (n : BitVec 32) := ("f", closed (.numberInt 0) (.numberInt n))
  let fromZero := ("f", closed (.numberInt 0) (.numberDouble 0x7fefffffffffffff))
  let g := ("g", closed (.numberInt 5) (.numberInt 5))
  let clauses := [clause [f 10, g] [fromZero, g], clause [f 20, g] [fromZero, g],
    clause [f 20] [fromZero]]
  let doc : String → BSON.Value := fun field => .numberInt (if field = "g" then 7 else 3)
  have ran : outcome clauses [.popOrClause (some false) ["f", "g"],
      .popOrClause (some false) ["f"]] doc = some (0, false) := by decide +kernel
  obtain ⟨scans, g, run, none, covered⟩ := run_of_outcome ran
  refine ⟨clauses, doc, scans, g, ?_, run, List.length_eq_zero_iff.mp none, ?_, ?_⟩
  · decide +kernel
  · decide +kernel
  · rw [covered]
    decide

end OrRangeGenerator

end TokuMX.Query
