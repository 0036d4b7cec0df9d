import Mathlib.Data.Nat.Notation
import Mathlib.Algebra.GroupWithZero.Nat
import TokuMX.Lib.Checked
import TokuMX.Lib.Ranges
import TokuMX.Lib.Runs

/-!
The chunk metadata of a shard (`s/d_chunk_manager.cpp`, `s/chunk_version.h`).

A `ShardChunkManager` holds the chunks of one collection that live on this shard
as a map from lower to upper bounds, the same chunks coalesced into ranges, the
shard's version and the collection's. A manager never changes: `cloneMinus`,
`clonePlus` and `cloneSplit` make a new one with a chunk taken away, added or
split.

* `Exact` is what a manager is for: its map is a given set of disjoint chunks,
  `belongsToMe` and repeated `getNextChunk` agree with that set, and its version
  is not ahead of the collection's.
* `cloneSplit_chunks_iff`: the loop of `cloneSplit` cuts the chunk as its keys
  say exactly when at most one key lies strictly inside it. Every round assigns
  the upper bound of the chunk at `min`, not of the one the previous round made.
* `cloneSplit_exact_iff` adds the versions: the shard's is counted up for every
  key, the collection's is compared with the version before the counting.
* `clones_exact`: every run of calls whose splits are of that kind, and do not
  count the version past the collection's, keeps a manager exact.

Keys are the bounds under `BSONObj::woCompare`, taken as totally ordered by it, equal
ones as one: where a double meets longs from 2^53 on it is no order, and a map keyed by
it may drop a bound. An empty object, which `getNextChunk` takes for "from the start",
is `none`. The key pattern and the
epoch of a version take part in none of this and are left out.
-/

namespace TokuMX.Sharding

open TokuMX.Lib OrderedMap

/-! ### Versions -/

/-- `ChunkVersion` without its epoch: two `int`s that are compared as one 64-bit number. -/
structure ChunkVersion where
  major : BitVec 32
  minor : BitVec 32
  deriving DecidableEq, Repr

namespace ChunkVersion

/-- The union's `_combined`, with `_minor` in the low half. -/
def toLong (v : ChunkVersion) : Nat := v.major.toNat * 2 ^ 32 + v.minor.toNat

theorem toLong_injective : Function.Injective toLong := by
  rintro ⟨major, minor⟩ ⟨major', minor'⟩ same
  have low := minor.isLt
  have low' := minor'.isLt
  simp only [toLong] at same
  have minors : minor.toNat = minor'.toNat := by omega
  have majors : major.toNat = major'.toNat := by omega
  rw [BitVec.eq_of_toNat_eq minors, BitVec.eq_of_toNat_eq majors]

instance : LinearOrder ChunkVersion := LinearOrder.lift' toLong toLong_injective

def zero : ChunkVersion := ⟨0, 0⟩

def isSet (v : ChunkVersion) : Bool := 0 < v.toLong

def incMinor (v : ChunkVersion) : ChunkVersion := { v with minor := v.minor + 1 }

theorem zero_le (v : ChunkVersion) : zero ≤ v := Nat.zero_le v.toLong

end ChunkVersion

/-- The errors the clone calls raise, with what their messages print. -/
inductive CloneError (K : Type) where
  | chunkNotFound (min max : K)
  | rangesDiffer (min max existing : K)
  | versionOnLastChunk (version : ChunkVersion)
  | minusNotGreater (version current : ChunkVersion)
  | versionZero
  | rangesOverlap (min max : K) (existing : K × K)
  | splitNotGreater (version current : ChunkVersion)
  | cannotSplit (min max split : K)

/-- The number of the user assertion. -/
def CloneError.code {K : Type} : CloneError K → Nat
  | chunkNotFound .. => 13586
  | rangesDiffer .. => 13587
  | versionOnLastChunk .. => 13590
  | minusNotGreater .. => 13585
  | versionZero => 13591
  | rangesOverlap .. => 13588
  | splitNotGreater .. => 14039
  | cannotSplit .. => 14040

variable {K : Type} [LinearOrder K]

def contains (min max point : K) : Bool := decide (min ≤ point) && decide (point < max)

@[simp] theorem contains_iff {min max point : K} :
    contains min max point = true ↔ InRange (min, max) point := by
  simp [contains, InRange]

def overlap (l1 h1 l2 h2 : K) : Bool := !(decide (h1 ≤ l2) || decide (h2 ≤ l1))

@[simp] theorem overlap_eq_false {l1 h1 l2 h2 : K} :
    overlap l1 h1 l2 h2 = false ↔ h1 ≤ l2 ∨ h2 ≤ l1 := by
  simp [overlap, or_iff_not_imp_left]

/-! ### The manager -/

structure ShardChunkManager (K : Type) [LinearOrder K] where
  chunksMap : OrderedMap K K
  rangesMap : OrderedMap K K
  version : ChunkVersion
  collVersion : ChunkVersion

/-- One round of `_fillRanges`: `range` is the range being coalesced, `none` before
the first chunk. -/
def fillRangesStep (acc : OrderedMap K K × Option (K × K)) (chunk : K × K) :
    OrderedMap K K × Option (K × K) :=
  match acc.2 with
  | none => (acc.1, some chunk)
  | some range =>
    if range.2 = chunk.1 then (acc.1, some (range.1, chunk.2))
    else (acc.1.insert range.1 range.2, some chunk)

/-- The ranges `_fillRanges` puts into the empty map of a new manager. -/
def fillRanges (chunks : OrderedMap K K) : OrderedMap K K :=
  match chunks.entries.foldl fillRangesStep (.empty, none) with
  | (ranges, some range) => ranges.insert range.1 range.2
  | (ranges, none) => ranges

namespace ShardChunkManager

variable (m : ShardChunkManager K)

/-- `_belongsToMe`. The `none` case is the check of its callers that there is a range
at all. -/
def belongsToMe (point : K) : Bool :=
  match m.rangesMap.stepBack (m.rangesMap.upTo point) with
  | some range => contains range.1 range.2 point
  | none => false

/-- The chunk after the one that starts at `lookupKey`, or the first one, and
whether it is known to be the last. -/
def getNextChunk (lookupKey : Option K) : Bool × Option (K × K) :=
  if m.chunksMap.entries = [] then (true, none)
  else
    match lookupKey with
    | none => (m.chunksMap.size == 1, m.chunksMap.entries.head?)
    | some key =>
      match (m.chunksMap.above key).head? with
      | some chunk => (false, some chunk)
      | none => (true, none)

/-- At most `rounds` calls of `getNextChunk`, each with the lower bound the one
before found, until one says it is the last or finds nothing. -/
def chunksFrom : Nat → Option K → List (K × K)
  | 0, _ => []
  | rounds + 1, lookupKey =>
    match m.getNextChunk lookupKey with
    | (_, none) => []
    | (true, some chunk) => [chunk]
    | (false, some chunk) => chunk :: chunksFrom rounds (some chunk.1)

def assertChunkExists (min max : K) : Except (CloneError K) Unit :=
  match m.chunksMap.find? min with
  | none => .error (.chunkNotFound min max)
  | some existing => ensure (existing = max) (.rangesDiffer min max existing)

/-- The later of the version given and the collection's. -/
def laterVersion (version : ChunkVersion) : ChunkVersion :=
  if m.collVersion < version then version else m.collVersion

def cloneMinus (min max : K) (version : ChunkVersion) :
    Except (CloneError K) (ShardChunkManager K) := do
  m.assertChunkExists min max
  if m.chunksMap.size = 1 then
    ensure (version.isSet = false) (.versionOnLastChunk version)
    pure ⟨.empty, .empty, .zero, m.collVersion⟩
  else
    ensure (m.version < version) (.minusNotGreater version m.version)
    let chunks := m.chunksMap.erase min
    pure ⟨chunks, fillRanges chunks, version, m.laterVersion version⟩

def clonePlus (min max : K) (version : ChunkVersion) :
    Except (CloneError K) (ShardChunkManager K) := do
  ensure (version.isSet = true) .versionZero
  match m.chunksMap.stepBack (m.chunksMap.below max) with
  | some chunk =>
    ensure (overlap min max chunk.1 chunk.2 = false) (.rangesOverlap min max chunk)
  | none => pure ()
  let chunks := m.chunksMap.insert min max
  pure ⟨chunks, fillRanges chunks, version, m.laterVersion version⟩

/-- One round of the loop of `cloneSplit`. The source keeps the previous split key
in `startKey` and never reads it: the entry assigned is the one at `min`. -/
def splitStep (min max : K) (acc : OrderedMap K K × ChunkVersion) (split : K) :
    OrderedMap K K × ChunkVersion :=
  ((acc.1.set min split).insert split max, acc.2.incMinor)

def cloneSplit (min max : K) (splitKeys : List K) (version : ChunkVersion) :
    Except (CloneError K) (ShardChunkManager K) := do
  ensure (m.version < version) (.splitNotGreater version m.version)
  m.assertChunkExists min max
  splitKeys.forM fun split => ensure (contains min max split = true) (.cannotSplit min max split)
  let split := splitKeys.foldl (splitStep min max) (m.chunksMap, version)
  pure ⟨split.1, fillRanges split.1, split.2, m.laterVersion version⟩

/-! ### What the calls do -/

variable {m n : ShardChunkManager K} {min max : K} {splitKeys : List K}
  {version : ChunkVersion}

@[simp] theorem assertChunkExists_eq_ok {u : Unit} :
    m.assertChunkExists min max = .ok u ↔ (min, max) ∈ m.chunksMap.entries := by
  rw [← find?_eq_some, assertChunkExists]
  cases m.chunksMap.find? min with
  | none => simp
  | some existing => simp

theorem cloneMinus_eq_ok :
    m.cloneMinus min max version = .ok n ↔ (min, max) ∈ m.chunksMap.entries ∧
        (m.chunksMap.size = 1 ∧ version.isSet = false ∧ ⟨.empty, .empty, .zero, m.collVersion⟩ = n ∨
          m.chunksMap.size ≠ 1 ∧ m.version < version ∧
            ⟨m.chunksMap.erase min, fillRanges (m.chunksMap.erase min), version,
              m.laterVersion version⟩ = n) := by
  rw [cloneMinus, except_bind_eq_ok]
  by_cases single : m.chunksMap.size = 1
  · simp [single, pure, Except.pure]
  · simp [single, pure, Except.pure]

theorem clonePlus_eq_ok :
    m.clonePlus min max version = .ok n ↔ version.isSet = true ∧
        (∀ c, m.chunksMap.stepBack (m.chunksMap.below max) = some c → max ≤ c.1 ∨ c.2 ≤ min) ∧
        ⟨m.chunksMap.insert min max, fillRanges (m.chunksMap.insert min max), version,
          m.laterVersion version⟩ = n := by
  rw [clonePlus, ensure_bind_eq_ok]
  refine and_congr_right fun _ => ?_
  cases m.chunksMap.stepBack (m.chunksMap.below max) with
  | none => simp [pure, Except.pure]
  | some chunk => simp [pure, Except.pure]

theorem cloneSplit_eq_ok :
    m.cloneSplit min max splitKeys version = .ok n ↔
      m.version < version ∧ (min, max) ∈ m.chunksMap.entries ∧
        (∀ k ∈ splitKeys, InRange (min, max) k) ∧
        ∃ split, splitKeys.foldl (splitStep min max) (m.chunksMap, version) = split ∧
          ⟨split.1, fillRanges split.1, split.2, m.laterVersion version⟩ = n := by
  simp [cloneSplit, except_bind_eq_ok, pure, Except.pure]

theorem le_laterVersion : version ≤ m.laterVersion version := by
  unfold laterVersion
  split_ifs with later
  · exact le_rfl
  · exact not_lt.mp later

end ShardChunkManager

/-! ### Coalescing -/

/-- What holds after the rounds for the chunks `done`: the ranges closed so far and
the open one, which lies behind them and ends where the last chunk does, cover
together what the chunks cover. -/
structure Coalesced (done : List (K × K)) (acc : OrderedMap K K × Option (K × K)) : Prop where
  fresh : acc.2 = none → acc.1.entries = [] ∧ done = []
  closed : Tiling {r | r ∈ acc.1.entries}
  proper : ∀ r ∈ acc.2, r.1 < r.2
  behind : ∀ r ∈ acc.2, ∀ e ∈ acc.1.entries, e.2 ≤ r.1
  ends : ∀ r ∈ acc.2, ∃ c ∈ done, c.2 = r.2
  covers : ∀ p, Covered {c | c ∈ done} p ↔
    Covered {r | r ∈ acc.1.entries} p ∨ ∃ r ∈ acc.2, InRange r p

variable {done : List (K × K)} {ranges : OrderedMap K K} {range chunk : K × K}

section

variable (state : Coalesced done (ranges, some range))
include state

/-- Closing the open range. -/
theorem Coalesced.mem_insert {e : K × K} :
    e ∈ (ranges.insert range.1 range.2).entries ↔ e = range ∨ e ∈ ranges.entries :=
  state.closed.mem_insert (state.proper range rfl) fun c hc => .inr (state.behind range rfl c hc)

theorem Coalesced.insert : Tiling {r | r ∈ (ranges.insert range.1 range.2).entries} := by
  have clear : ∀ c ∈ {r | r ∈ ranges.entries}, range.2 ≤ c.1 ∨ c.2 ≤ range.1 :=
    fun c hc => .inr (state.behind range rfl c hc)
  refine (state.closed.insert (state.proper range rfl) clear).mono ?_
  intro e he
  exact state.mem_insert.mp he

theorem Coalesced.covers_insert (p : K) :
    Covered {c | c ∈ done} p ↔ Covered {r | r ∈ (ranges.insert range.1 range.2).entries} p := by
  rw [state.covers]
  constructor
  · rintro (⟨r, hr, inside⟩ | ⟨r, hr, inside⟩)
    · exact ⟨r, state.mem_insert.mpr (.inr hr), inside⟩
    · obtain rfl : range = r := Option.some.inj hr
      exact ⟨range, state.mem_insert.mpr (.inl rfl), inside⟩
  · rintro ⟨r, hr, inside⟩
    rcases state.mem_insert.mp hr with rfl | hr
    · exact .inr ⟨r, rfl, inside⟩
    · exact .inl ⟨r, hr, inside⟩

end

theorem covered_snoc {p : K} :
    Covered {c | c ∈ done ++ [chunk]} p ↔ Covered {c | c ∈ done} p ∨ InRange chunk p := by
  constructor
  · rintro ⟨c, hc, inside⟩
    rcases List.mem_append.mp hc with hc | hc
    · exact .inl ⟨c, hc, inside⟩
    · exact .inr (List.mem_singleton.mp hc ▸ inside)
  · rintro (⟨c, hc, inside⟩ | inside)
    · exact ⟨c, List.mem_append_left _ hc, inside⟩
    · exact ⟨chunk, List.mem_append_right _ (by simp), inside⟩

/-- A chunk that starts where the open range ends prolongs it. -/
theorem Coalesced.prolong (state : Coalesced done (ranges, some range))
    (proper : chunk.1 < chunk.2) (adjacent : range.2 = chunk.1) :
    Coalesced (done ++ [chunk]) (ranges, some (range.1, chunk.2)) where
  fresh := by simp
  closed := state.closed
  proper := by
    rintro r ⟨⟩
    exact (state.proper range rfl).trans (adjacent ▸ proper)
  behind := by
    rintro r ⟨⟩
    exact state.behind range rfl
  ends := by
    rintro r ⟨⟩
    exact ⟨chunk, by simp, rfl⟩
  covers p := by
    have joined : InRange (range.1, chunk.2) p ↔ InRange range p ∨ InRange chunk p := by
      have left := state.proper range rfl
      unfold InRange
      grind
    rw [covered_snoc, state.covers]
    simp [joined, or_assoc]

/-- Any other chunk closes the open range and opens the next. -/
theorem Coalesced.close (state : Coalesced done (ranges, some range))
    (proper : chunk.1 < chunk.2) (after : ∀ c ∈ done, c.2 ≤ chunk.1) :
    Coalesced (done ++ [chunk]) (ranges.insert range.1 range.2, some chunk) where
  fresh := by simp
  closed := state.insert
  proper := by
    rintro r ⟨⟩
    exact proper
  behind := by
    rintro r ⟨⟩ e he
    obtain ⟨last, mem, ends⟩ := state.ends range rfl
    have gap : range.2 ≤ chunk.1 := ends ▸ after last mem
    rcases state.mem_insert.mp he with rfl | he
    · exact gap
    · exact (state.behind range rfl e he).trans ((state.proper range rfl).le.trans gap)
  ends := by
    rintro r ⟨⟩
    exact ⟨chunk, by simp, rfl⟩
  covers p := by
    rw [covered_snoc, state.covers_insert]
    simp

theorem Coalesced.first (ranges : OrderedMap K K) (none : ranges.entries = [])
    (proper : chunk.1 < chunk.2) : Coalesced [chunk] (ranges, some chunk) where
  fresh := by simp
  closed := ⟨by simp [none], by simp [none]⟩
  proper := by
    rintro r ⟨⟩
    exact proper
  behind := by simp [none]
  ends := by
    rintro r ⟨⟩
    exact ⟨chunk, by simp, rfl⟩
  covers p := by simp [Covered, none]

theorem Coalesced.step {acc : OrderedMap K K × Option (K × K)} (state : Coalesced done acc)
    (proper : chunk.1 < chunk.2) (after : ∀ c ∈ done, c.2 ≤ chunk.1) :
    Coalesced (done ++ [chunk]) (fillRangesStep acc chunk) := by
  obtain ⟨ranges, _ | range⟩ := acc
  · obtain ⟨none, rfl⟩ := state.fresh rfl
    exact .first ranges none proper
  · unfold fillRangesStep
    dsimp only
    split_ifs with adjacent
    · exact state.prolong proper adjacent
    · exact state.close proper after

/-- Chunks in key order of which no two meet follow one another. -/
theorem ordered_of_tiling {chunks : OrderedMap K K} (tiling : Tiling {c | c ∈ chunks.entries}) :
    chunks.entries.Pairwise fun a b => a.2 ≤ b.1 := by
  refine chunks.sorted.imp_of_mem fun {a b} ha hb less => ?_
  have differ : a ≠ b := fun same => absurd (same ▸ less) (lt_irrefl _)
  rcases tiling.apart a ha b hb differ with done | back
  · exact done
  · exact absurd ((tiling.proper b hb).trans_le back) less.not_gt

theorem coalesced_foldl {l : List (K × K)} (proper : ∀ c ∈ l, c.1 < c.2)
    (ordered : l.Pairwise fun a b => a.2 ≤ b.1) :
    Coalesced l (l.foldl fillRangesStep (.empty, none)) := by
  induction l using List.reverseRecOn with
  | nil =>
    exact ⟨fun _ => ⟨rfl, rfl⟩, ⟨by simp, by simp⟩, by simp, by simp, by simp,
      by simp [Covered]⟩
  | append_singleton done chunk ih =>
    obtain ⟨before, -, across⟩ := List.pairwise_append.mp ordered
    rw [List.foldl_append]
    refine (ih (fun c hc => proper c (List.mem_append_left _ hc)) before).step
      (proper chunk (by simp)) ?_
    intro c hc
    exact across c hc chunk (by simp)

/-- The ranges are disjoint and cover what the chunks cover. -/
theorem fillRanges_spec {chunks : OrderedMap K K} (tiling : Tiling {c | c ∈ chunks.entries}) :
    Tiling {r | r ∈ (fillRanges chunks).entries} ∧ ∀ p, Covered {c | c ∈ chunks.entries} p ↔
        Covered {r | r ∈ (fillRanges chunks).entries} p := by
  have state := coalesced_foldl tiling.proper (ordered_of_tiling tiling)
  unfold fillRanges
  generalize chunks.entries.foldl fillRangesStep (.empty, none) = acc at state
  obtain ⟨ranges, _ | range⟩ := acc
  · refine ⟨state.closed, fun p => ?_⟩
    simpa using state.covers p
  · exact ⟨state.insert, state.covers_insert⟩

/-! ### Listing the chunks -/

namespace ShardChunkManager

variable {m : ShardChunkManager K}

/-- From a chunk on, the calls list the chunks that follow it. -/
theorem chunksFrom_some {front rest : List (K × K)} {chunk : K × K} {rounds : Nat}
    (entries : m.chunksMap.entries = front ++ chunk :: rest) (enough : rest.length ≤ rounds) :
    m.chunksFrom rounds (some chunk.1) = rest := by
  induction rest generalizing front chunk rounds with
  | nil =>
    cases rounds with
    | zero => rfl
    | succ rounds =>
      have none := above_of_entries entries
      simp [chunksFrom, getNextChunk, none, entries]
  | cons next rest ih =>
    obtain ⟨rounds, rfl⟩ : ∃ n, rounds = n + 1 := ⟨rounds - 1, by grind⟩
    have following := above_of_entries entries
    have shifted : m.chunksMap.entries = (front ++ [chunk]) ++ next :: rest := by
      simpa using entries
    have tail := ih shifted (by simpa using enough)
    simp [chunksFrom, getNextChunk, following, entries, tail]

/-- From the empty key on, the calls list every chunk once, in order. -/
theorem chunksFrom_none {rounds : Nat} (enough : m.chunksMap.size ≤ rounds) :
    m.chunksFrom rounds none = m.chunksMap.entries := by
  cases entries : m.chunksMap.entries with
  | nil =>
    cases rounds with
    | zero => rfl
    | succ rounds => simp [chunksFrom, getNextChunk, entries]
  | cons first rest =>
    rw [size, entries, List.length_cons] at enough
    obtain ⟨rounds, rfl⟩ : ∃ n, rounds = n + 1 := ⟨rounds - 1, by omega⟩
    have start : m.chunksMap.entries = [] ++ first :: rest := entries
    have tail := chunksFrom_some start (Nat.le_of_succ_le_succ enough)
    cases rest with
    | nil => simp [chunksFrom, getNextChunk, entries, size]
    | cons next rest => simp [chunksFrom, getNextChunk, entries, size, tail]

/-! ### Exact metadata -/

/-- The manager's metadata is exactly the chunks `C`. -/
structure Exact (C : Set (K × K)) (m : ShardChunkManager K) : Prop where
  chunks : ∀ c, c ∈ m.chunksMap.entries ↔ c ∈ C
  disjoint : Tiling C
  belongs : ∀ p, m.belongsToMe p = true ↔ Covered C p
  listed : ∀ rounds, m.chunksMap.size ≤ rounds → m.chunksFrom rounds none = m.chunksMap.entries
  versions : m.version ≤ m.collVersion

theorem exact_fillRanges {C : Set (K × K)} {chunks : OrderedMap K K}
    {version collVersion : ChunkVersion} (mem : ∀ c, c ∈ chunks.entries ↔ c ∈ C)
    (tiling : Tiling C) (versions : version ≤ collVersion) :
    Exact C ⟨chunks, fillRanges chunks, version, collVersion⟩ where
  chunks := mem
  disjoint := tiling
  belongs p := by
    obtain rfl : {c | c ∈ chunks.entries} = C := Set.ext mem
    obtain ⟨ranges, covers⟩ := fillRanges_spec tiling
    rw [covers, ranges.covered_iff_stepBack, belongsToMe]
    cases (fillRanges chunks).stepBack ((fillRanges chunks).upTo p) <;> simp
  listed rounds := chunksFrom_none
  versions := versions

variable {n : ShardChunkManager K} {C : Set (K × K)} {min max : K} {splitKeys : List K}
  {version : ChunkVersion}

theorem cloneMinus_exact (exact : m.Exact C) (made : m.cloneMinus min max version = .ok n) :
    n.Exact (C \ {(min, max)}) := by
  have tiling : Tiling (C \ {(min, max)}) := exact.disjoint.mono fun c hc => hc.1
  obtain ⟨there, ⟨single, -, rfl⟩ | ⟨-, -, rfl⟩⟩ := cloneMinus_eq_ok.mp made
  · -- The only chunk is the one taken away.
    obtain ⟨only, entries⟩ := List.length_eq_one_iff.mp single
    refine exact_fillRanges (fun c => ?_) tiling (ChunkVersion.zero_le _)
    constructor
    · intro mem
      simp at mem
    · rintro ⟨mem, other⟩
      rw [entries, List.mem_singleton] at there
      rw [← exact.chunks, entries, List.mem_singleton] at mem
      exact absurd (mem.trans there.symm) other
  · refine exact_fillRanges (fun c => ?_) tiling le_laterVersion
    rw [Set.mem_sdiff, ← exact.chunks, mem_erase, Set.mem_singleton_iff]
    refine and_congr_right fun mem => not_congr ⟨?_, ?_⟩
    · exact mem_unique mem there
    · rintro rfl
      rfl

theorem clonePlus_exact (exact : m.Exact C) (proper : min < max)
    (made : m.clonePlus min max version = .ok n) : n.Exact (Set.insert (min, max) C) := by
  obtain ⟨-, clear, rfl⟩ := clonePlus_eq_ok.mp made
  obtain rfl : {c | c ∈ m.chunksMap.entries} = C := Set.ext exact.chunks
  have apart : ∀ c ∈ m.chunksMap.entries, max ≤ c.1 ∨ c.2 ≤ min :=
    fun c hc => exact.disjoint.clear_of_stepBack clear hc
  refine exact_fillRanges (fun c => ?_) (exact.disjoint.insert proper apart) le_laterVersion
  exact exact.disjoint.mem_insert proper apart

/-! ### Splits -/

/-- At most one split key lies strictly inside the chunk, and the key `min` itself
does not stand alone. -/
def SplitsInTwo (min : K) (splitKeys : List K) : Prop :=
  splitKeys = [] ∨ (splitKeys.filter (min < ·)).length = 1

instance : Decidable (SplitsInTwo min splitKeys) := inferInstanceAs (Decidable (_ ∨ _))

/-- The entries after the loop: the chunk at `min` ends at the last key, and every
key but `min` starts a chunk that ends at `max`. -/
theorem mem_foldl_splitStep (tiling : Tiling {c | c ∈ m.chunksMap.entries})
    (there : (min, max) ∈ m.chunksMap.entries) (inside : ∀ k ∈ splitKeys, InRange (min, max) k)
    (e : K × K) :
    e ∈ (splitKeys.foldl (splitStep min max) (m.chunksMap, version)).1.entries ↔
      e = (min, splitKeys.getLast?.getD max) ∨ (∃ k ∈ splitKeys, k ≠ min ∧ e = (k, max)) ∨
        e ∈ m.chunksMap.entries ∧ e.1 ≠ min := by
  induction splitKeys using List.reverseRecOn generalizing e with
  | nil =>
    constructor
    · intro mem
      by_cases atMin : e.1 = min
      · exact .inl (mem_unique mem there atMin)
      · exact .inr (.inr ⟨mem, atMin⟩)
    · rintro (rfl | ⟨k, hk, -⟩ | ⟨mem, -⟩)
      · exact there
      · simp at hk
      · exact mem
  | append_singleton keys k ih =>
    have before := ih fun j hj => inside j (List.mem_append_left _ hj)
    have kInside := inside k (by simp)
    -- No chunk but the one split starts at a key strictly inside it.
    have free : k ≠ min → ∀ e ∈ m.chunksMap.entries, e.1 ≠ k := by
      rintro other e mem rfl
      have apart := tiling.apart e mem (min, max) there (fun same => other (by rw [same]))
      have proper := tiling.proper e mem
      obtain ⟨lo, hi⟩ := kInside
      grind
    rw [List.foldl_append, List.foldl_cons, List.foldl_nil, splitStep]
    by_cases atMin : k = min
    · subst atMin
      rw [insert_of_present (mem_set.mpr (.inl rfl)), mem_set, before]
      grind
    · have agree : ∀ w, (k, w) ∈ ((keys.foldl (splitStep min max) (m.chunksMap, version)).1.set
          min k).entries → w = max := by
        intro w mem
        rw [mem_set, before] at mem
        grind
      rw [mem_insert agree, mem_set, before]
      grind

/-- The version is counted up once for every key. -/
theorem foldl_splitStep_version (chunks : OrderedMap K K) :
    (splitKeys.foldl (splitStep min max) (chunks, version)).2 =
      ChunkVersion.incMinor^[splitKeys.length] version := by
  induction splitKeys generalizing chunks version with
  | nil => rfl
  | cons k ks ih => exact ih _

/-- When some key lies strictly inside the chunk, so does the last one, and it is the
largest. -/
theorem last_inside (up : splitKeys.Pairwise (· < ·)) {k : K}
    (mem : k ∈ splitKeys.filter (min < ·)) :
    ∃ last ∈ splitKeys.filter (min < ·), splitKeys.getLast? = some last ∧ k ≤ last := by
  obtain ⟨here, strict⟩ := List.mem_filter.mp mem
  obtain ⟨last, atEnd⟩ := Option.isSome_iff_exists.mp
    (List.getLast?_isSome.mpr (List.ne_nil_of_mem here))
  obtain ⟨lastMem, others⟩ := rel_getLast up atEnd
  have upTo : k ≤ last := (others k here).elim le_of_eq le_of_lt
  refine ⟨last, List.mem_filter.mpr ⟨lastMem, ?_⟩, atEnd, upTo⟩
  exact decide_eq_true ((of_decide_eq_true strict).trans_le upTo)

/-- The chunks after a split that asks for one cut. -/
theorem mem_foldl_splitStep_two (tiling : Tiling {c | c ∈ m.chunksMap.entries})
    (there : (min, max) ∈ m.chunksMap.entries) (inside : ∀ k ∈ splitKeys, InRange (min, max) k)
    (up : splitKeys.Pairwise (· < ·)) (two : SplitsInTwo min splitKeys) (e : K × K) :
    e ∈ (splitKeys.foldl (splitStep min max) (m.chunksMap, version)).1.entries ↔
      e ∈ {c | c ∈ m.chunksMap.entries} \ {(min, max)} ∪ cut min max splitKeys := by
  have others : e ∈ {c | c ∈ m.chunksMap.entries} \ {(min, max)} ↔
      e ∈ m.chunksMap.entries ∧ e.1 ≠ min := by
    refine and_congr_right fun mem => not_congr ⟨?_, ?_⟩
    · rintro rfl
      rfl
    · exact mem_unique mem there
  rw [mem_foldl_splitStep tiling there inside, Set.mem_union, others]
  rcases two with rfl | two
  · have whole : e ∈ cut min max [] ↔ e = (min, max) := by
      have proper := tiling.proper _ there
      simp only [cut, pieces, List.mem_singleton]
      exact ⟨fun h => h.1, fun h => ⟨h, h ▸ proper⟩⟩
    simp [whole, or_comm]
  · obtain ⟨k, only⟩ := List.length_eq_one_iff.mp two
    have kMem : k ∈ splitKeys.filter (min < ·) := by simp [only]
    obtain ⟨last, lastMem, atEnd, -⟩ := last_inside up kMem
    obtain rfl : last = k := by simpa [only] using lastMem
    have inner : ∀ j, j ∈ splitKeys ∧ j ≠ min ↔ j = last := by
      intro j
      have same : j ∈ splitKeys.filter (min < ·) ↔ j = last := by simp [only]
      rw [← same, List.mem_filter, decide_eq_true_eq]
      refine and_congr_right fun mem => ⟨?_, ne_of_gt⟩
      intro other
      exact lt_of_le_of_ne (inside j mem).1 other.symm
    have halves : e ∈ cut min max splitKeys ↔ e = (min, last) ∨ e = (last, max) := by
      obtain ⟨mem, strict⟩ := List.mem_filter.mp kMem
      have below : last < max := (inside last mem).2
      rw [← cut_filter up fun j hj => (inside j hj).1, only]
      have strict : min < last := of_decide_eq_true strict
      simp only [cut, pieces, List.mem_cons, List.not_mem_nil, or_false]
      grind
    rw [halves, atEnd]
    grind

/-- The loop cuts the chunk as its keys say exactly when it has to cut once at most. -/
theorem cloneSplit_chunks_iff (tiling : Tiling {c | c ∈ m.chunksMap.entries})
    (there : (min, max) ∈ m.chunksMap.entries) (inside : ∀ k ∈ splitKeys, InRange (min, max) k)
    (up : splitKeys.Pairwise (· < ·)) :
    (∀ e, e ∈ (splitKeys.foldl (splitStep min max) (m.chunksMap, version)).1.entries ↔
      e ∈ {c | c ∈ m.chunksMap.entries} \ {(min, max)} ∪ cut min max splitKeys) ↔
      SplitsInTwo min splitKeys := by
  refine ⟨fun cuts => ?_, mem_foldl_splitStep_two tiling there inside up⟩
  by_contra many
  obtain ⟨some, notOne⟩ := not_or.mp many
  -- The chunk at `min` ends at the last key, which is not where it should end.
  obtain ⟨last, atEnd⟩ := Option.isSome_iff_exists.mp (List.getLast?_isSome.mpr some)
  have made : (min, last) ∈ cut min max splitKeys := by
    have mem := (cuts (min, last)).mp
      ((mem_foldl_splitStep tiling there inside _).mpr (.inl (by simp [atEnd])))
    rcases mem with ⟨old, other⟩ | new
    · exact absurd (mem_unique old there rfl) other
    · exact new
  rw [← cut_filter up fun j hj => (inside j hj).1] at made
  cases inner : splitKeys.filter (min < ·) with
  | nil =>
    have lastMem := List.mem_of_getLast? atEnd
    have strict : last ∈ splitKeys.filter (min < ·) :=
      List.mem_filter.mpr ⟨lastMem, decide_eq_true made.2⟩
    simp [inner] at strict
  | cons k ks =>
    cases ks with
    | nil => simp [inner] at notOne
    | cons k2 ks =>
      have sorted : (k :: k2 :: ks).Pairwise (· < ·) := inner ▸ up.filter _
      have second : k2 ∈ splitKeys.filter (min < ·) := by simp [inner]
      obtain ⟨last', -, atEnd', upTo⟩ := last_inside up second
      obtain rfl : last = last' := Option.some.inj (atEnd.symm.trans atEnd')
      have less : k < last := ((List.pairwise_cons.mp sorted).1 k2 (by simp)).trans_le upTo
      have below : ∀ j ∈ k :: k2 :: ks, min < j ∧ j ≤ max := by
        intro j hj
        obtain ⟨mem, strict⟩ := List.mem_filter.mp (inner ▸ hj)
        exact ⟨of_decide_eq_true strict, (inside j mem).2.le⟩
      rw [inner] at made
      rcases List.mem_cons.mp made.1 with first | later
      · exact absurd (congrArg Prod.snd first) less.ne'
      · have start := (pieces_inside (sorted.imp le_of_lt) (fun j hj => (below j hj).2) later).1
        exact absurd (below k (by simp)).1 start.not_gt

theorem cloneSplit_exact_iff (exact : m.Exact C) (up : splitKeys.Pairwise (· < ·))
    (made : m.cloneSplit min max splitKeys version = .ok n) :
    n.Exact (C \ {(min, max)} ∪ cut min max splitKeys) ↔ SplitsInTwo min splitKeys ∧
        ChunkVersion.incMinor^[splitKeys.length] version ≤ m.laterVersion version := by
  obtain ⟨-, there, inside, split, rfl, rfl⟩ := cloneSplit_eq_ok.mp made
  obtain rfl : {c | c ∈ m.chunksMap.entries} = C := Set.ext exact.chunks
  rw [← cloneSplit_chunks_iff exact.disjoint there inside up, ← foldl_splitStep_version]
  constructor
  · intro after
    exact ⟨after.chunks, after.versions⟩
  · rintro ⟨cuts, versions⟩
    have bounds : (min :: splitKeys).Pairwise (· ≤ ·) :=
      List.pairwise_cons.mpr ⟨fun k hk => (inside k hk).1, up.imp le_of_lt⟩
    have below : ∀ k ∈ min :: splitKeys, k ≤ max := List.forall_mem_cons.mpr
        ⟨(exact.disjoint.proper _ there).le, fun k hk => (inside k hk).2.le⟩
    refine exact_fillRanges cuts (exact.disjoint.replace there (cut_tiling bounds below) ?_)
      versions
    rintro c ⟨mem, -⟩
    exact pieces_inside bounds below mem

end ShardChunkManager

/-! ### Sequences of calls -/

open ShardChunkManager

inductive CloneCall (K : Type) where
  | minus (min max : K) (version : ChunkVersion)
  | plus (min max : K) (version : ChunkVersion)
  | split (min max : K) (splitKeys : List K) (version : ChunkVersion)

namespace CloneCall

def clone (m : ShardChunkManager K) : CloneCall K → Except (CloneError K) (ShardChunkManager K)
  | minus min max version => m.cloneMinus min max version
  | plus min max version => m.clonePlus min max version
  | split min max splitKeys version => m.cloneSplit min max splitKeys version

/-- What a call is to make of the chunks. -/
def expected (C : Set (K × K)) : CloneCall K → Set (K × K)
  | minus min max _ => C \ {(min, max)}
  | plus min max _ => Set.insert (min, max) C
  | split min max splitKeys _ => C \ {(min, max)} ∪ cut min max splitKeys

/-- A chunk added is not empty, and split keys come in increasing order. -/
def WellFormed : CloneCall K → Prop
  | minus .. => True
  | plus min max _ => min < max
  | split _ _ splitKeys _ => splitKeys.Pairwise (· < ·)

/-- A split cuts once at most and does not count the version past the collection's. -/
def KeepsExact (m : ShardChunkManager K) : CloneCall K → Prop
  | minus .. => True
  | plus .. => True
  | split min _ splitKeys version =>
    SplitsInTwo min splitKeys ∧
      ChunkVersion.incMinor^[splitKeys.length] version ≤ m.laterVersion version

end CloneCall

/-- A call that does not throw. -/
def CloneStep (m : ShardChunkManager K) (call : CloneCall K) (n : ShardChunkManager K) : Prop :=
  call.WellFormed ∧ call.clone m = .ok n

variable {m n : ShardChunkManager K} {C : Set (K × K)} {call : CloneCall K}
  {calls : List (CloneCall K)}

/-- One call keeps the metadata exact exactly when it meets the condition. -/
theorem cloneStep_exact_iff (exact : m.Exact C) (step : CloneStep m call n) :
    n.Exact (call.expected C) ↔ call.KeepsExact m := by
  obtain ⟨wellFormed, made⟩ := step
  cases call with
  | minus min max version => exact iff_of_true (cloneMinus_exact exact made) trivial
  | plus min max version => exact iff_of_true (clonePlus_exact exact wellFormed made) trivial
  | split min max splitKeys version => exact cloneSplit_exact_iff exact wellFormed made

/-- **Chunk metadata stays exact.** After every sequence of calls whose splits meet
the condition, the manager's metadata is exactly the chunks the calls ask for. -/
theorem clones_exact (exact : m.Exact C)
    (run : Run (fun a call b => CloneStep a call b ∧ call.KeepsExact a) m calls n) :
    n.Exact (calls.foldl CloneCall.expected C) := by
  induction run generalizing C with
  | nil => exact exact
  | cons first _ ih => exact ih ((cloneStep_exact_iff exact first.1).mpr first.2)

/-- A manager with no chunk of a collection that has some elsewhere. -/
def noChunks : ShardChunkManager ℕ := ⟨.empty, .empty, .zero, ⟨3, 0⟩⟩

/-- A chunk arrives, is split, and its first half leaves. -/
def movedHalf : List (CloneCall ℕ) :=
  [.plus 0 10 ⟨2, 0⟩, .split 0 10 [5] ⟨2, 1⟩, .minus 0 5 ⟨3, 1⟩]

theorem clones_exact_movedHalf :
    ∃ n, Run (fun a call b => CloneStep a call b ∧ call.KeepsExact a) noChunks movedHalf n ∧
      n.Exact (movedHalf.foldl CloneCall.expected ∅) := by
  have none : noChunks.Exact ∅ :=
    exact_fillRanges (by simp) ⟨by simp, by simp⟩ (ChunkVersion.zero_le _)
  have arrives : noChunks.clonePlus 0 10 ⟨2, 0⟩ = .ok _ :=
    clonePlus_eq_ok.mpr ⟨by decide, by decide, rfl⟩
  have run : ∃ n,
      Run (fun a call b => CloneStep a call b ∧ call.KeepsExact a) noChunks movedHalf n := by
    refine ⟨?last, .cons ⟨⟨Nat.zero_lt_succ _, arrives⟩, trivial⟩ ?rest⟩
    case rest =>
      refine .cons ⟨⟨List.pairwise_singleton _ _,
        cloneSplit_eq_ok.mpr ⟨by decide, by decide, by decide, _, rfl, rfl⟩⟩,
        by decide, by decide⟩ ?_
      refine .cons ⟨⟨trivial,
        cloneMinus_eq_ok.mpr ⟨by decide, .inr ⟨by decide, by decide, rfl⟩⟩⟩, trivial⟩ ?_
      exact .nil _
  obtain ⟨n, run⟩ := run
  exact ⟨n, run, clones_exact none run⟩

/-- A manager with one chunk, at the collection's version. -/
def oneChunk : ShardChunkManager ℕ :=
  ⟨⟨[(0, 10)], by decide⟩, ⟨[(0, 10)], by decide⟩, ⟨1, 0⟩, ⟨1, 0⟩⟩

/-- Split in three, the chunk comes out as overlapping chunks; split in two, the
shard's version runs ahead of the collection's. -/
theorem cloneSplit_not_exact :
    oneChunk.Exact {(0, 10)} ∧
    (∃ n, CloneStep oneChunk (.split 0 10 [3, 6] ⟨1, 1⟩) n ∧
      n.chunksMap.entries = [(0, 6), (3, 10), (6, 10)] ∧
      ¬ n.Exact (CloneCall.expected {(0, 10)} (.split 0 10 [3, 6] ⟨1, 1⟩))) ∧
    (∃ n, CloneStep oneChunk (.split 0 10 [5] ⟨1, 1⟩) n ∧
      n.chunksMap.entries = [(0, 5), (5, 10)] ∧ n.collVersion < n.version ∧
      ¬ n.Exact (CloneCall.expected {(0, 10)} (.split 0 10 [5] ⟨1, 1⟩))) := by
  have one : oneChunk.Exact {(0, 10)} :=
    exact_fillRanges (by simp) ⟨by simp, by simp⟩ le_rfl
  have three : CloneStep oneChunk (.split 0 10 [3, 6] ⟨1, 1⟩) _ :=
    ⟨show [3, 6].Pairwise (· < ·) by decide,
      cloneSplit_eq_ok.mpr ⟨by decide, by decide, by decide, _, rfl, rfl⟩⟩
  have two : CloneStep oneChunk (.split 0 10 [5] ⟨1, 1⟩) _ :=
    ⟨List.pairwise_singleton _ _,
      cloneSplit_eq_ok.mpr ⟨by decide, by decide, by decide, _, rfl, rfl⟩⟩
  refine ⟨one, ⟨_, three, rfl, ?_⟩, ⟨_, two, rfl, by decide, ?_⟩⟩
  · rw [cloneStep_exact_iff one three]
    exact fun keeps => absurd keeps.1 (by decide)
  · rw [cloneStep_exact_iff one two]
    exact fun keeps => absurd keeps.2 (by decide)

end TokuMX.Sharding
