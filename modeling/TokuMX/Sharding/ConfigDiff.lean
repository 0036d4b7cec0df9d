import Mathlib.Data.List.Pairwise
import Mathlib.Data.String.Basic
import TokuMX.Sharding.ChunkManager

/-!
Refreshing chunk metadata from the config server (`s/chunk_diff.hpp`).

A `ConfigDiffTracker` is attached to a map of chunks, the collection's version and
a version for each shard. `calculateConfigDiff` reads the chunks of the config
server from the attached version on, in two passes. The first raises the versions
and erases from the map what lies in the range of a chunk read. The second inserts
the chunks the tracker is for. A shard tracks its own chunks and stores them by
lower bound (`SCMConfigDiffTracker`), a router tracks all of them and stores them
by upper bound (`CMConfigDiffTracker`).

* `Changed` is one change of the chunks of a collection: a chunk is split, or moved
  to another shard, and what is made has a version above all there were.
* `Descends C₀ v C` says what is left of the chunks `C₀`, with greatest version
  `v`, in a later state: a chunk that is gone has given its lower and its upper
  bound to chunks above `v`. Every change keeps it (`Descends.step`).
* `refresh_inSync`: hence after any run of changes, for both trackers.
* `refresh_eq_reload`: the map is the one a tracker that knew nothing would load.

A map by lower bound sees that a chunk is gone by the chunk that has its lower
bound, a map by upper bound by the one that has its upper bound. The versions of a
document are what `ChunkVersion::fromBSON` makes of its fields. Bounds are taken as totally
ordered by `woCompare`, as in `ChunkManager`: chunks whose ranges do not meet presuppose it.
-/

namespace TokuMX.Sharding

open TokuMX.Lib

/-! ### Chunks and their documents -/

/-- A version with its epoch, the object id of the collection it counts for. -/
structure EpochVersion where
  version : ChunkVersion
  epoch : BitVec 96
  deriving DecidableEq, Repr

namespace EpochVersion

def isSet (v : EpochVersion) : Bool := v.version.isSet

/-- Epochs agree unless both are set and differ. -/
def hasCompatibleEpoch (v : EpochVersion) (other : BitVec 96) : Bool :=
  !(other ≠ 0 && v.epoch ≠ 0 && other ≠ v.epoch)

end EpochVersion

structure Chunk (K : Type) where
  min : K
  max : K
  shard : String
  lastmod : EpochVersion
  deriving DecidableEq, Repr

/-- A document of the chunks collection. A bound or shard of another type than it
should have is `none`. -/
structure ChunkDoc (K : Type) where
  min : Option K
  max : Option K
  shard : Option String
  lastmod : EpochVersion

variable {K V : Type}

namespace Chunk

def range (c : Chunk K) : K × K := (c.min, c.max)

def doc (c : Chunk K) : ChunkDoc K := ⟨some c.min, some c.max, some c.shard, c.lastmod⟩

/-- The number the versions of two chunks are compared by. -/
def version (c : Chunk K) : ChunkVersion := c.lastmod.version

end Chunk

/-- The chunk of a document whose fields have the right types. -/
def ChunkDoc.chunk? (d : ChunkDoc K) : Option (Chunk K) :=
  match d.min, d.max, d.shard with
  | some min, some max, some shard => some ⟨min, max, shard, d.lastmod⟩
  | _, _, _ => none

@[simp] theorem Chunk.chunk?_doc (c : Chunk K) : c.doc.chunk? = some c := rfl

/-! ### The tracker -/

/-- What the two adapters supply. -/
structure ConfigDiffTracker (K V : Type) where
  isTracked : Chunk K → Bool
  isMinKeyIndexed : Bool
  rangeFor : Chunk K → K × V
  rangeFor_fst : ∀ c, (rangeFor c).1 = if isMinKeyIndexed then c.min else c.max

/-- The adapter of a shard. -/
def SCMConfigDiffTracker (currShard : String) : ConfigDiffTracker K K where
  isTracked c := c.shard = currShard
  isMinKeyIndexed := true
  rangeFor c := (c.min, c.max)
  rangeFor_fst _ := rfl

/-- The adapter of a router. -/
def CMConfigDiffTracker : ConfigDiffTracker K (Chunk K) where
  isTracked _ := true
  isMinKeyIndexed := false
  rangeFor c := (c.max, c)
  rangeFor_fst _ := rfl

/-- The data a tracker is attached to, with its count of documents read. -/
structure Attached (K V : Type) [LinearOrder K] where
  currMap : OrderedMap K V
  maxVersion : EpochVersion
  maxShardVersions : OrderedMap String EpochVersion
  validDiffs : Nat

variable [LinearOrder K]

namespace ConfigDiffTracker

variable (t : ConfigDiffTracker K V)

/-- The key lies between the two iterators of `overlappingRange`: from
`lower_bound min` to `lower_bound max`, or from `upper_bound min` to `upper_bound max`. -/
def overlappingRange (min max key : K) : Bool :=
  if t.isMinKeyIndexed then decide (min ≤ key) && decide (key < max)
  else decide (min < key) && decide (key ≤ max)

def isOverlapping (m : OrderedMap K V) (min max : K) : Bool :=
  m.entries.any fun e => t.overlappingRange min max e.1

def removeOverlapping (m : OrderedMap K V) (min max : K) : OrderedMap K V :=
  m.eraseIf (t.overlappingRange min max)

/-- The version recorded for the shard after a chunk of it was read. -/
def raiseShard (versions : OrderedMap String EpochVersion) (c : Chunk K) :
    OrderedMap String EpochVersion :=
  match versions.find? c.shard with
  | some v => if v.version < c.version then versions.set c.shard c.lastmod else versions
  | none => versions.set c.shard c.lastmod

/-- What a valid document does to the attached data. -/
def readChunk (s : Attached K V) (c : Chunk K) : Attached K V where
  currMap := t.removeOverlapping s.currMap c.min c.max
  maxVersion := if s.maxVersion.version < c.version then c.lastmod else s.maxVersion
  maxShardVersions := raiseShard s.maxShardVersions c
  validDiffs := s.validDiffs + 1

/-- The first pass, with the chunks to insert in `newTracked`; `none` in the second
component is the early return with -1. -/
def readDiffs (currEpoch : BitVec 96) :
    List (ChunkDoc K) → Attached K V → List (Chunk K) → Attached K V × Option (List (Chunk K))
  | [], s, newTracked => (s, some newTracked)
  | d :: docs, s, newTracked =>
    match d.chunk? with
    | none => readDiffs currEpoch docs s newTracked
    | some c =>
      if !c.lastmod.isSet || !c.lastmod.hasCompatibleEpoch currEpoch then (s, none)
      else readDiffs currEpoch docs (t.readChunk s c)
        (if t.isTracked c then newTracked ++ [c] else newTracked)

/-- The second pass, and whether it came to its end. -/
def insertTracked : List (Chunk K) → OrderedMap K V → OrderedMap K V × Bool
  | [], m => (m, true)
  | c :: cs, m =>
    if t.isOverlapping m c.min c.max then (m, false)
    else insertTracked cs (m.insert (t.rangeFor c).1 (t.rangeFor c).2)

def calculateConfigDiff (docs : List (ChunkDoc K)) (s : Attached K V) : Attached K V × Int :=
  match t.readDiffs s.maxVersion.epoch docs { s with validDiffs := 0 } [] with
  | (s', none) => (s', -1)
  | (s', some newTracked) =>
    let inserted := t.insertTracked newTracked s'.currMap
    ({ s' with currMap := inserted.1 }, if inserted.2 then s'.validDiffs else -1)

end ConfigDiffTracker

/-! ### The chunks of a collection -/

/-- The chunks of one collection: their ranges are not empty and do not meet, and
their versions are set and of one epoch. -/
structure WellFormed (epoch : BitVec 96) (C : Set (Chunk K)) : Prop where
  proper : ∀ c ∈ C, c.min < c.max
  apart : ∀ c ∈ C, ∀ d ∈ C, c ≠ d → c.max ≤ d.min ∨ d.max ≤ c.min
  isSet : ∀ c ∈ C, c.lastmod.isSet = true
  sameEpoch : ∀ c ∈ C, c.lastmod.epoch = epoch ∨ c.lastmod.epoch = 0

/-- The version of the collection: that of a chunk no other is above. Without
chunks it is not set. -/
def CollectionVersion (C : Set (Chunk K)) (v : EpochVersion) : Prop :=
  (∀ c ∈ C, c.version ≤ v.version) ∧
    ((∃ c ∈ C, c.lastmod = v) ∨ C = ∅ ∧ v.isSet = false)

inductive Change (K : Type) where
  | split (c : Chunk K) (keys : List K) (parts : List (Chunk K))
  | move (c : Chunk K) (shard : String) (lastmod : EpochVersion)

/-- The chunk is newer than all of `C`. -/
def Fresh (epoch : BitVec 96) (C : Set (Chunk K)) (n : Chunk K) : Prop :=
  (∀ c ∈ C, c.version < n.version) ∧ (n.lastmod.epoch = epoch ∨ n.lastmod.epoch = 0)

/-- One change of the chunks of a collection. The keys of a split are inside the
chunk and ascend; its parts stay on the shard of the chunk. -/
inductive Changed (epoch : BitVec 96) : Set (Chunk K) → Change K → Set (Chunk K) → Prop where
  | split {C : Set (Chunk K)} {c : Chunk K} {keys : List K} {parts : List (Chunk K)}
      (mem : c ∈ C) (ascend : (c.min :: keys ++ [c.max]).Pairwise (· < ·))
      (ranges : parts.map Chunk.range = pieces c.min c.max keys)
      (stay : ∀ n ∈ parts, n.shard = c.shard) (fresh : ∀ n ∈ parts, Fresh epoch C n) :
      Changed epoch C (.split c keys parts) (C \ {c} ∪ {n | n ∈ parts})
  | move {C : Set (Chunk K)} {c : Chunk K} {shard : String} {lastmod : EpochVersion}
      (mem : c ∈ C) (fresh : Fresh epoch C { c with shard, lastmod }) :
      Changed epoch C (.move c shard lastmod) (C \ {c} ∪ {{ c with shard, lastmod }})

/-- The attached map holds the tracked chunks of `C`, and the version is its. -/
structure InSync (t : ConfigDiffTracker K V) (C : Set (Chunk K)) (s : Attached K V) : Prop where
  tracked : ∀ e, e ∈ s.currMap.entries ↔ ∃ c ∈ C, t.isTracked c = true ∧ t.rangeFor c = e
  version : CollectionVersion C s.maxVersion

/-- A listing of the chunks of `C` from a version on, in whatever order. -/
structure Listing (C : Set (Chunk K)) (since : ChunkVersion) (chunks : List (Chunk K)) : Prop where
  nodup : chunks.Nodup
  mem : ∀ c, c ∈ chunks ↔ c ∈ C ∧ since ≤ c.version

/-! ### What is left of earlier chunks -/

variable {epoch : BitVec 96} {C C' C₀ : Set (Chunk K)} {c : Chunk K} {v : ChunkVersion}

/-- Chunks that take the place of `c`. -/
structure Replaces (epoch : BitVec 96) (C : Set (Chunk K)) (c : Chunk K)
    (parts : Set (Chunk K)) : Prop where
  mem : c ∈ C
  inside : ∀ n ∈ parts, c.min ≤ n.min ∧ n.min < n.max ∧ n.max ≤ c.max
  apart : ∀ n ∈ parts, ∀ m ∈ parts, n ≠ m → n.max ≤ m.min ∨ m.max ≤ n.min
  first : ∃ n ∈ parts, n.min = c.min
  last : ∃ n ∈ parts, n.max = c.max
  fresh : ∀ n ∈ parts, Fresh epoch C n

/-- Every change replaces a chunk. -/
theorem Changed.replaces {e : Change K} (changed : Changed epoch C e C')
    (proper : ∀ c ∈ C, c.min < c.max) :
    ∃ c parts, Replaces epoch C c parts ∧ C' = C \ {c} ∪ parts := by
  cases changed with
  | @split c keys parts mem ascend ranges stay fresh =>
    obtain ⟨inside, apart⟩ := pieces_ascend ascend
    have in_pieces : ∀ n ∈ parts, n.range ∈ pieces c.min c.max keys := fun n hn =>
      ranges ▸ List.mem_map_of_mem hn
    have of_piece : ∀ r ∈ pieces c.min c.max keys, ∃ n ∈ parts, n.range = r := by
      intro r hr
      rwa [← ranges, List.mem_map] at hr
    refine ⟨c, {n | n ∈ parts}, ?_, rfl⟩
    refine ⟨mem, fun n hn => inside _ (in_pieces n hn), ?_, ?_, ?_, fresh⟩
    · rw [← ranges, List.pairwise_map] at apart
      let Apart (n m : Chunk K) : Prop := n.max ≤ m.min ∨ m.max ≤ n.min
      have symm : Std.Symm Apart := ⟨fun _ _ => .symm⟩
      have either : parts.Pairwise Apart := apart.imp .inl
      exact fun n hn m hm => either.forall hn hm
    · obtain ⟨r, hr, first⟩ := exists_first_piece c.min c.max keys
      obtain ⟨n, hn, rfl⟩ := of_piece r hr
      exact ⟨n, hn, first⟩
    · obtain ⟨r, hr, last⟩ := exists_last_piece c.min c.max keys
      obtain ⟨n, hn, rfl⟩ := of_piece r hr
      exact ⟨n, hn, last⟩
  | @move c shard lastmod mem fresh =>
    refine ⟨c, {{ c with shard, lastmod }}, ?_, rfl⟩
    refine ⟨mem, ?_, ?_, ⟨_, rfl, rfl⟩, ⟨_, rfl, rfl⟩, ?_⟩
    · rintro n rfl
      exact ⟨le_rfl, proper c mem, le_rfl⟩
    · rintro n rfl m rfl differ
      exact absurd rfl differ
    · rintro n rfl
      exact fresh

theorem Replaces.wellFormed {parts : Set (Chunk K)} (replaces : Replaces epoch C c parts)
    (well : WellFormed epoch C) : WellFormed epoch (C \ {c} ∪ parts) where
  proper := by
    rintro d (hd | hd)
    · exact well.proper d hd.1
    · exact (replaces.inside d hd).2.1
  apart := by
    have across : ∀ d ∈ C \ {c}, ∀ n ∈ parts, d.max ≤ n.min ∨ n.max ≤ d.min := by
      rintro d ⟨hd, other⟩ n hn
      obtain ⟨lo, -, hi⟩ := replaces.inside n hn
      rcases well.apart d hd c replaces.mem other with below | above
      · exact .inl (below.trans lo)
      · exact .inr (hi.trans above)
    rintro d (hd | hd) n (hn | hn) differ
    · exact well.apart d hd.1 n hn.1 differ
    · exact across d hd n hn
    · exact (across n hn d hd).symm
    · exact replaces.apart d hd n hn differ
  isSet := by
    rintro d (hd | hd)
    · exact well.isSet d hd.1
    · -- A version above another is not zero.
      exact decide_eq_true ((Nat.zero_le _).trans_lt ((replaces.fresh d hd).1 c replaces.mem))
  sameEpoch := by
    rintro d (hd | hd)
    · exact well.sameEpoch d hd.1
    · exact (replaces.fresh d hd).2

/-- What is left of the chunks `C₀`, none above the version `v`, in the later state
`C`: there are old chunks and new ones, and where an old chunk is gone there are new
ones with its bounds. -/
structure Descends (epoch : BitVec 96) (C₀ : Set (Chunk K)) (v : ChunkVersion)
    (C : Set (Chunk K)) : Prop where
  wellFormed : WellFormed epoch C
  old_or_new : ∀ c ∈ C, c ∈ C₀ ∨ v < c.version
  first : ∀ c ∈ C₀, c ∈ C ∨ ∃ d ∈ C, v < d.version ∧ d.min = c.min
  last : ∀ c ∈ C₀, c ∈ C ∨ ∃ d ∈ C, v < d.version ∧ d.max = c.max

namespace Descends

theorem refl (well : WellFormed epoch C) : Descends epoch C v C where
  wellFormed := well
  old_or_new _ hc := .inl hc
  first _ hc := .inl hc
  last _ hc := .inl hc

/-- A bound of an old chunk stays the bound of a new one when `c` is replaced. -/
theorem kept {parts : Set (Chunk K)} {f : Chunk K → K} (newer : ∀ n ∈ parts, v < n.version)
    (bound : ∃ n ∈ parts, f n = f c)
    {a : Chunk K} (before : a ∈ C ∨ ∃ d ∈ C, v < d.version ∧ f d = f a) :
    a ∈ C \ {c} ∪ parts ∨ ∃ d ∈ C \ {c} ∪ parts, v < d.version ∧ f d = f a := by
  obtain ⟨n, hn, same⟩ := bound
  have handed : f c = f a → ∃ d ∈ C \ {c} ∪ parts, v < d.version ∧ f d = f a := fun eq =>
    ⟨n, .inr hn, newer n hn, same.trans eq⟩
  rcases before with ha | ⟨d, hd, new, eq⟩
  · by_cases gone : a = c
    · exact .inr (handed (congrArg f gone.symm))
    · exact .inl (.inl ⟨ha, gone⟩)
  · by_cases gone : d = c
    · exact .inr (handed (gone ▸ eq))
    · exact .inr ⟨d, .inl ⟨hd, gone⟩, new, eq⟩

/-- There is a chunk that is not older than `v`, so what is fresh is newer. -/
theorem newer (descends : Descends epoch C₀ v C) (attained : ∃ c ∈ C₀, c.version = v)
    {n : Chunk K} (fresh : Fresh epoch C n) : v < n.version := by
  obtain ⟨c, hc, rfl⟩ := attained
  rcases descends.first c hc with mem | ⟨d, hd, new, -⟩
  · exact fresh.1 c mem
  · exact new.trans (fresh.1 d hd)

theorem step {e : Change K} (attained : ∃ c ∈ C₀, c.version = v)
    (descends : Descends epoch C₀ v C) (changed : Changed epoch C e C') :
    Descends epoch C₀ v C' := by
  obtain ⟨c, parts, replaces, rfl⟩ := changed.replaces descends.wellFormed.proper
  have newer : ∀ n ∈ parts, v < n.version := fun n hn =>
    descends.newer attained (replaces.fresh n hn)
  refine ⟨replaces.wellFormed descends.wellFormed, ?_, ?_, ?_⟩
  · rintro d (hd | hd)
    · exact descends.old_or_new d hd.1
    · exact .inr (newer d hd)
  · exact fun a ha => kept newer replaces.first (descends.first a ha)
  · exact fun a ha => kept newer replaces.last (descends.last a ha)

theorem of_run {changes : List (Change K)} (well : WellFormed epoch C₀)
    (attained : ∃ c ∈ C₀, c.version = v) (run : Run (Changed epoch) C₀ changes C) :
    Descends epoch C₀ v C :=
  run.invariant (fun _ _ _ before changed => before.step attained changed) (refl well)

/-- Without new chunks nothing has changed. -/
theorem eq_of_no_new (descends : Descends epoch C₀ v C)
    (none : ∀ c ∈ C, ¬ v < c.version) : C = C₀ := by
  ext c
  constructor
  · intro hc
    exact (descends.old_or_new c hc).resolve_right (none c hc)
  · intro hc
    rcases descends.first c hc with mem | ⟨d, hd, new, -⟩
    · exact mem
    · exact absurd new (none d hd)

end Descends

/-! ### The first pass -/

variable {chunks : List (Chunk K)}

namespace ConfigDiffTracker

variable {t : ConfigDiffTracker K V} {s : Attached K V}

/-- A chunk apart from a range is not found in it. -/
theorem overlappingRange_of_apart {d : Chunk K} (proper : c.min < c.max)
    (apart : c.max ≤ d.min ∨ d.max ≤ c.min) :
    t.overlappingRange d.min d.max (t.rangeFor c).1 = false := by
  rw [t.rangeFor_fst, overlappingRange]
  cases t.isMinKeyIndexed <;> simp <;> grind

/-- A chunk is found in a range that has the bound it is stored by. -/
theorem overlappingRange_of_bound {d : Chunk K} (hd : d.min < d.max)
    (bound : (if t.isMinKeyIndexed then d.min else d.max) = (t.rangeFor c).1) :
    t.overlappingRange d.min d.max (t.rangeFor c).1 = true := by
  rw [← bound, overlappingRange]
  cases t.isMinKeyIndexed <;> simp [hd]

theorem readDiffs_chunks {currEpoch : BitVec 96} (newTracked : List (Chunk K))
    (isSet : ∀ c ∈ chunks, c.lastmod.isSet = true)
    (compatible : ∀ c ∈ chunks, c.lastmod.hasCompatibleEpoch currEpoch = true) :
    t.readDiffs currEpoch (chunks.map Chunk.doc) s newTracked =
      (chunks.foldl t.readChunk s, some (newTracked ++ chunks.filter t.isTracked)) := by
  induction chunks generalizing s newTracked with
  | nil => simp [readDiffs]
  | cons c chunks ih =>
    have rest := ih (s := t.readChunk s c) (if t.isTracked c then newTracked ++ [c] else newTracked)
      (fun d hd => isSet d (.tail _ hd)) (fun d hd => compatible d (.tail _ hd))
    rw [List.map_cons, readDiffs, Chunk.chunk?_doc]
    simp only [isSet c (.head _), compatible c (.head _), Bool.not_true, Bool.or_self,
      Bool.false_eq_true, if_false, List.foldl_cons]
    rw [rest]
    by_cases tracked : t.isTracked c <;> simp [tracked]

theorem mem_readChunks (chunks : List (Chunk K)) (e : K × V) :
    e ∈ (chunks.foldl t.readChunk s).currMap.entries ↔
      e ∈ s.currMap.entries ∧ ∀ d ∈ chunks, t.overlappingRange d.min d.max e.1 = false := by
  induction chunks generalizing s with
  | nil => simp
  | cons c chunks ih =>
    rw [List.foldl_cons, ih]
    simp [readChunk, removeOverlapping, and_assoc]

theorem validDiffs_readChunks :
    (chunks.foldl t.readChunk s).validDiffs = s.validDiffs + chunks.length := by
  induction chunks generalizing s with
  | nil => rfl
  | cons c chunks ih =>
    rw [List.foldl_cons, ih]
    simp only [readChunk, List.length_cons]
    omega

/-- The version is raised to the greatest that is read. -/
theorem maxVersion_readChunks (chunks : List (Chunk K)) (s : Attached K V) :
    let after := (chunks.foldl t.readChunk s).maxVersion
    s.maxVersion.version ≤ after.version ∧ (∀ c ∈ chunks, c.version ≤ after.version) ∧
      (after = s.maxVersion ∨
        ∃ c ∈ chunks, c.lastmod = after ∧ s.maxVersion.version < c.version) := by
  induction chunks generalizing s with
  | nil => simp
  | cons c chunks ih =>
    obtain ⟨up, above, source⟩ := ih (t.readChunk s c)
    rw [List.foldl_cons]
    by_cases newer : s.maxVersion.version < c.version
    · have raised : (t.readChunk s c).maxVersion = c.lastmod := if_pos newer
      rw [raised] at up source
      refine ⟨newer.le.trans up, ?_, ?_⟩
      · rintro d hd
        rcases List.mem_cons.mp hd with rfl | hd
        · exact up
        · exact above d hd
      · rcases source with same | ⟨d, hd, eq, later⟩
        · exact .inr ⟨c, .head _, same.symm, newer⟩
        · exact .inr ⟨d, .tail _ hd, eq, newer.trans later⟩
    · have kept : (t.readChunk s c).maxVersion = s.maxVersion := if_neg newer
      rw [kept] at up source
      refine ⟨up, ?_, ?_⟩
      · rintro d hd
        rcases List.mem_cons.mp hd with rfl | hd
        · exact (not_lt.mp newer).trans up
        · exact above d hd
      · rcases source with same | ⟨d, hd, eq, later⟩
        · exact .inl same
        · exact .inr ⟨d, .tail _ hd, eq, later⟩

/-! ### The second pass -/

/-- Chunks that are apart from each other and from those in the map are all
inserted. -/
theorem insertTracked_spec {A : Set (Chunk K)} {m : OrderedMap K V} (well : WellFormed epoch C)
    (holds : ∀ e, e ∈ m.entries ↔ ∃ c ∈ A, t.rangeFor c = e) (old : A ⊆ C)
    (new : ∀ c ∈ chunks, c ∈ C ∧ c ∉ A) (nodup : chunks.Nodup) :
    (t.insertTracked chunks m).2 = true ∧ ∀ e, e ∈ (t.insertTracked chunks m).1.entries ↔
        ∃ c, (c ∈ A ∨ c ∈ chunks) ∧ t.rangeFor c = e := by
  induction chunks generalizing A m with
  | nil => simpa [insertTracked] using holds
  | cons c chunks ih =>
    obtain ⟨hc, outside⟩ := new c (.head _)
    obtain ⟨once, nodup⟩ := List.nodup_cons.mp nodup
    have clear : ∀ e ∈ m.entries, t.overlappingRange c.min c.max e.1 = false := by
      intro e he
      obtain ⟨a, ha, rfl⟩ := (holds e).mp he
      have other : a ≠ c := fun eq => outside (eq ▸ ha)
      exact overlappingRange_of_apart (well.proper a (old ha)) (well.apart a (old ha) c hc other)
    have free : t.isOverlapping m c.min c.max = false := by
      simpa [isOverlapping] using fun k v mem => clear (k, v) mem
    -- The chunk's own key lies in its range, so the map has no entry for it.
    have own : t.overlappingRange c.min c.max (t.rangeFor c).1 = true :=
      overlappingRange_of_bound (well.proper c hc) (t.rangeFor_fst c).symm
    have holds' : ∀ e, e ∈ (m.insert (t.rangeFor c).1 (t.rangeFor c).2).entries ↔
        ∃ a ∈ insert c A, t.rangeFor a = e := by
      intro e
      rw [OrderedMap.mem_insert fun w mem => by simp [clear _ mem] at own, holds e]
      simp [eq_comm]
    have new' : ∀ d ∈ chunks, d ∈ C ∧ d ∉ insert c A := by
      intro d hd
      refine ⟨(new d (.tail _ hd)).1, ?_⟩
      rintro (rfl | old)
      · exact once hd
      · exact (new d (.tail _ hd)).2 old
    rw [insertTracked, if_neg (by simp [free])]
    obtain ⟨done, mem⟩ := ih holds' (Set.insert_subset hc old) new' nodup
    refine ⟨done, fun e => (mem e).trans ?_⟩
    simp only [Set.mem_insert_iff, List.mem_cons]
    grind

/-! ### The refresh -/

/-- After the first pass the map holds the old chunks that are still there. -/
theorem mem_afterRead (sync : InSync t C₀ s) (descends : Descends epoch C₀ s.maxVersion.version C)
    (listing : Listing C s.maxVersion.version chunks) (e : K × V) :
    (e ∈ s.currMap.entries ∧ ∀ d ∈ chunks, t.overlappingRange d.min d.max e.1 = false) ↔
      ∃ c ∈ {c | c ∈ C ∧ c.version < s.maxVersion.version ∧ t.isTracked c = true},
        t.rangeFor c = e := by
  have well := descends.wellFormed
  constructor
  · rintro ⟨mem, missed⟩
    obtain ⟨c, hc, tracked, rfl⟩ := (sync.tracked e).mp mem
    -- A chunk read that has the bound `c` is stored by would have erased it.
    have erased : ∀ d ∈ C, s.maxVersion.version ≤ d.version →
        (if t.isMinKeyIndexed then d.min else d.max) ≠ (t.rangeFor c).1 := by
      intro d hd since bound
      have hit := overlappingRange_of_bound (c := c) (well.proper d hd) bound
      rw [missed d ((listing.mem d).mpr ⟨hd, since⟩)] at hit
      exact absurd hit Bool.false_ne_true
    have still : c ∈ C := by
      by_contra gone
      cases indexed : t.isMinKeyIndexed with
      | true =>
        obtain ⟨d, hd, new, bound⟩ := (descends.first c hc).resolve_left gone
        refine erased d hd new.le ?_
        simp [t.rangeFor_fst, indexed, bound]
      | false =>
        obtain ⟨d, hd, new, bound⟩ := (descends.last c hc).resolve_left gone
        refine erased d hd new.le ?_
        simp [t.rangeFor_fst, indexed, bound]
    refine ⟨c, ⟨still, ?_, tracked⟩, rfl⟩
    by_contra since
    exact erased c still (not_lt.mp since) (t.rangeFor_fst c).symm
  · rintro ⟨c, ⟨hc, older, tracked⟩, rfl⟩
    have old : c ∈ C₀ := (descends.old_or_new c hc).resolve_right older.not_gt
    refine ⟨(sync.tracked _).mpr ⟨c, old, tracked, rfl⟩, fun d hd => ?_⟩
    obtain ⟨mem, since⟩ := (listing.mem d).mp hd
    have other : c ≠ d := by
      rintro rfl
      exact absurd older since.not_gt
    exact overlappingRange_of_apart (well.proper c hc) (well.apart c hc d mem other)

/-- The version read is that of the later state. -/
theorem collectionVersion_afterRead (version : CollectionVersion C₀ s.maxVersion)
    (descends : Descends epoch C₀ s.maxVersion.version C)
    (listing : Listing C s.maxVersion.version chunks) (n : Nat) :
    CollectionVersion C (chunks.foldl t.readChunk { s with validDiffs := n }).maxVersion := by
  obtain ⟨up, above, source⟩ := maxVersion_readChunks (t := t) chunks { s with validDiffs := n }
  constructor
  · intro c hc
    rcases lt_or_ge c.version s.maxVersion.version with older | since
    · exact older.le.trans up
    · exact above c ((listing.mem c).mpr ⟨hc, since⟩)
  · rcases source with same | ⟨c, hc, eq, -⟩
    · have none : ∀ c ∈ C, ¬ s.maxVersion.version < c.version := by
        intro c hc newer
        have bound := above c ((listing.mem c).mpr ⟨hc, newer.le⟩)
        rw [same] at bound
        exact absurd newer bound.not_gt
      rw [same, descends.eq_of_no_new none]
      exact version.2
    · exact .inl ⟨c, ((listing.mem c).mp hc).1, eq⟩

/-- The two passes bring a tracker in sync with a later state. -/
theorem calculateConfigDiff_spec (sync : InSync t C₀ s)
    (descends : Descends epoch C₀ s.maxVersion.version C)
    (sameEpoch : s.maxVersion.epoch = epoch ∨ s.maxVersion.epoch = 0)
    (listing : Listing C s.maxVersion.version chunks) :
    (t.calculateConfigDiff (chunks.map Chunk.doc) s).2 = chunks.length ∧
      InSync t C (t.calculateConfigDiff (chunks.map Chunk.doc) s).1 := by
  have well := descends.wellFormed
  have inC : ∀ c ∈ chunks, c ∈ C := fun c hc => ((listing.mem c).mp hc).1
  have compatible : ∀ c ∈ chunks, c.lastmod.hasCompatibleEpoch s.maxVersion.epoch = true := by
    intro c hc
    have own := well.sameEpoch c (inC c hc)
    simp only [EpochVersion.hasCompatibleEpoch]
    grind
  have read := readDiffs_chunks (t := t) (s := { s with validDiffs := 0 }) []
    (fun c hc => well.isSet c (inC c hc)) compatible
  have holds := fun e => (mem_readChunks (t := t) (s := { s with validDiffs := 0 }) chunks e).trans
    (mem_afterRead sync descends listing e)
  have fresh : ∀ c ∈ chunks.filter t.isTracked,
      c ∈ C ∧ c ∉ {c | c ∈ C ∧ c.version < s.maxVersion.version ∧ t.isTracked c = true} := by
    intro c hc
    obtain ⟨mem, since⟩ := (listing.mem c).mp (List.mem_filter.mp hc).1
    exact ⟨mem, fun old => absurd old.2.1 since.not_gt⟩
  obtain ⟨done, mem⟩ := insertTracked_spec well holds (fun c hc => hc.1) fresh
    (listing.nodup.filter _)
  rw [calculateConfigDiff, read]
  simp only [List.nil_append, done, if_true]
  refine ⟨?_, ?_, collectionVersion_afterRead sync.version descends listing 0⟩
  · simp [validDiffs_readChunks]
  · intro e
    rw [mem e]
    constructor
    · rintro ⟨c, ⟨hc, -, tracked⟩ | hc, rfl⟩
      · exact ⟨c, hc, tracked, rfl⟩
      · obtain ⟨hc, tracked⟩ := List.mem_filter.mp hc
        exact ⟨c, inC c hc, tracked, rfl⟩
    · rintro ⟨c, hc, tracked, rfl⟩
      refine ⟨c, ?_, rfl⟩
      rcases lt_or_ge c.version s.maxVersion.version with older | since
      · exact .inl ⟨hc, older, tracked⟩
      · exact .inr (List.mem_filter.mpr ⟨(listing.mem c).mpr ⟨hc, since⟩, tracked⟩)

end ConfigDiffTracker

/-- Whatever the order of the documents, the tracker is brought from `C₀` to `C`, and
all the documents count. -/
def Refreshes (t : ConfigDiffTracker K V) (C₀ C : Set (Chunk K)) : Prop :=
  ∀ (s : Attached K V) (chunks : List (Chunk K)), InSync t C₀ s →
    Listing C s.maxVersion.version chunks →
    (t.calculateConfigDiff (chunks.map Chunk.doc) s).2 = chunks.length ∧
      InSync t C (t.calculateConfigDiff (chunks.map Chunk.doc) s).1

namespace ConfigDiffTracker

variable {t : ConfigDiffTracker K V} {changes : List (Change K)}

/-- Nothing comes from nothing: a change needs a chunk. -/
theorem eq_empty_of_run (run : Run (Changed epoch) ∅ changes C) : C = ∅ := by
  refine run.invariant (P := (· = ∅)) ?_ rfl
  rintro _ e C' rfl changed
  cases changed with
  | split mem => exact absurd mem (Set.notMem_empty _)
  | move mem => exact absurd mem (Set.notMem_empty _)

theorem refreshes_of_run (well : WellFormed epoch C₀) (run : Run (Changed epoch) C₀ changes C) :
    Refreshes t C₀ C := by
  intro s chunks sync listing
  rcases sync.version.2 with ⟨c, hc, greatest⟩ | ⟨rfl, -⟩
  · have descends := Descends.of_run well ⟨c, hc, congrArg EpochVersion.version greatest⟩ run
    exact calculateConfigDiff_spec sync descends (greatest ▸ well.sameEpoch c hc) listing
  · obtain rfl := eq_empty_of_run run
    have none : WellFormed s.maxVersion.epoch (∅ : Set (Chunk K)) := by
      constructor <;> simp
    exact calculateConfigDiff_spec sync (.refl none) (.inl rfl) listing

/-- A tracker that is refreshed has the map that a tracker without chunks loads. -/
theorem refresh_eq_reload {s fresh : Attached K V} {all : List (Chunk K)}
    (well : WellFormed epoch C₀) (run : Run (Changed epoch) C₀ changes C) (sync : InSync t C₀ s)
    (listing : Listing C s.maxVersion.version chunks) (empty : InSync t ∅ fresh)
    (anyEpoch : fresh.maxVersion.epoch = 0) (reload : Listing C fresh.maxVersion.version all) :
    (t.calculateConfigDiff (chunks.map Chunk.doc) s).1.currMap =
      (t.calculateConfigDiff (all.map Chunk.doc) fresh).1.currMap := by
  have wellC : WellFormed epoch C := by
    refine run.invariant (P := WellFormed epoch) ?_ well
    intro _ _ _ before changed
    obtain ⟨c, parts, replaces, rfl⟩ := changed.replaces before.proper
    exact replaces.wellFormed before
  have zero : fresh.maxVersion.isSet = false := by
    simpa using empty.version.2
  -- Every chunk is new to a tracker without a version.
  have descends : Descends epoch ∅ fresh.maxVersion.version C := by
    refine ⟨wellC, fun c hc => .inr ?_, by simp, by simp⟩
    have unset : fresh.maxVersion.version.toLong ≤ 0 := not_lt.mp (of_decide_eq_false zero)
    have set : 0 < c.version.toLong := of_decide_eq_true (wellC.isSet c hc)
    exact unset.trans_lt set
  obtain ⟨-, refreshed⟩ := refreshes_of_run (t := t) well run s chunks sync listing
  obtain ⟨-, loaded⟩ := calculateConfigDiff_spec empty descends (.inr anyEpoch) reload
  exact OrderedMap.ext_mem fun e => (refreshed.tracked e).trans (loaded.tracked e).symm

/-- A chunk on shard `a`, cut at 5, and its upper part, moved to shard `b`. -/
def whole : Chunk Nat := ⟨0, 10, "a", ⟨⟨1, 0⟩, 7⟩⟩

def lower : Chunk Nat := ⟨0, 5, "a", ⟨⟨1, 1⟩, 7⟩⟩

def upper : Chunk Nat := ⟨5, 10, "a", ⟨⟨1, 2⟩, 7⟩⟩

def moved : Chunk Nat := { upper with shard := "b", lastmod := ⟨⟨1, 3⟩, 7⟩ }

/-- A shard with the whole chunk. -/
def attached : Attached Nat Nat := ⟨.set .empty 0 10, whole.lastmod, .empty, 0⟩

theorem wellFormed_whole : WellFormed 7 {whole} := by
  refine ⟨?_, ?_, ?_, ?_⟩ <;> simp only [Set.mem_singleton_iff, forall_eq] <;> decide

theorem splitMove_run : ∃ changes, Run (Changed 7) {whole} changes {lower, moved} := by
  let between := {whole} \ {whole} ∪ {n | n ∈ [lower, upper]}
  have cut : Changed 7 {whole} (.split whole [5] [lower, upper]) between := by
    refine .split rfl (by decide) rfl (by simp [lower, upper, whole]) ?_
    simp only [List.forall_mem_cons, Fresh, Set.mem_singleton_iff, forall_eq]
    decide
  have fresh : Fresh 7 between moved := by
    refine ⟨?_, .inl rfl⟩
    rintro c (⟨rfl, other⟩ | mem)
    · exact absurd rfl other
    · simp only [Set.mem_ofPred_eq, List.mem_cons, List.not_mem_nil, or_false] at mem
      rcases mem with rfl | rfl <;> decide
  have move := Changed.move (c := upper) (.inr (.tail _ (.head _))) fresh
  have sets : between \ {upper} ∪ {moved} = {lower, moved} := by
    ext c
    simp [between, lower, upper, moved]
    grind
  exact ⟨_, .cons cut (.cons (sets ▸ move) (.nil _))⟩

theorem inSync_attached : InSync (SCMConfigDiffTracker "a") {whole} attached := by
  refine ⟨fun e => ?_, ?_, .inl ⟨whole, rfl, rfl⟩⟩
  · simp [attached, whole, SCMConfigDiffTracker, eq_comm]
  · simp [attached, whole, Chunk.version]

theorem listing_splitMove {v : ChunkVersion} (old : v ≤ lower.version) :
    Listing {lower, moved} v [moved, lower] := by
  have since : ∀ c ∈ [moved, lower], v ≤ c.version :=
    List.forall_mem_cons.mpr ⟨old.trans (by decide), List.forall_mem_singleton.mpr old⟩
  refine ⟨by decide, fun c => ⟨fun mem => ⟨?_, since c mem⟩, fun ⟨mem, _⟩ => ?_⟩⟩
  · simpa [or_comm] using mem
  · simpa [or_comm] using mem

theorem refresh_eq_reload_split_move :
    let t : ConfigDiffTracker Nat Nat := SCMConfigDiffTracker "a"
    let fresh : Attached Nat Nat := ⟨.empty, ⟨⟨0, 0⟩, 0⟩, .empty, 0⟩
    let docs := [moved, lower].map Chunk.doc
    (t.calculateConfigDiff docs attached).1.currMap = (t.calculateConfigDiff docs fresh).1.currMap ∧
      (t.calculateConfigDiff docs fresh).1.currMap.entries = [(0, 5)] := by
  intro t fresh docs
  obtain ⟨changes, run⟩ := splitMove_run
  have empty : InSync t ∅ fresh := by
    refine ⟨fun e => ?_, ?_, .inr ⟨rfl, by decide⟩⟩ <;> simp [fresh]
  exact ⟨refresh_eq_reload wellFormed_whole run inSync_attached (listing_splitMove (by decide))
    empty rfl (listing_splitMove (by decide)), by decide⟩

end ConfigDiffTracker

/-- Splits and moves are followed by the trackers of a shard and of a router. -/
theorem refresh_inSync {changes : List (Change K)} (well : WellFormed epoch C₀)
    (run : Run (Changed epoch) C₀ changes C) :
    (∀ currShard, Refreshes (SCMConfigDiffTracker currShard) C₀ C) ∧
      Refreshes CMConfigDiffTracker C₀ C :=
  ⟨fun _ => ConfigDiffTracker.refreshes_of_run well run,
    ConfigDiffTracker.refreshes_of_run well run⟩

/-- A chunk on shard `a` is cut at 5, and the upper part is moved to shard `b`. -/
theorem refresh_inSync_split_move :
    let v (minor : BitVec 32) : EpochVersion := ⟨⟨1, minor⟩, 7⟩
    let before : Set (Chunk Nat) := {⟨0, 10, "a", v 0⟩}
    let after : Set (Chunk Nat) := {⟨0, 5, "a", v 1⟩, ⟨5, 10, "b", v 3⟩}
    let s : Attached Nat Nat := ⟨⟨[(0, 10)], by simp⟩, v 0, .empty, 0⟩
    let chunks : List (Chunk Nat) := [⟨5, 10, "b", v 3⟩, ⟨0, 5, "a", v 1⟩]
    InSync (SCMConfigDiffTracker "a") after
        ((SCMConfigDiffTracker "a").calculateConfigDiff (chunks.map Chunk.doc) s).1 ∧
      Refreshes CMConfigDiffTracker before after := by
  intro v before after s chunks
  obtain ⟨changes, run⟩ := ConfigDiffTracker.splitMove_run
  obtain ⟨shard, router⟩ := refresh_inSync ConfigDiffTracker.wellFormed_whole run
  have listing := ConfigDiffTracker.listing_splitMove (v := s.maxVersion.version) (by decide)
  exact ⟨(shard "a" s chunks ConfigDiffTracker.inSync_attached listing).2, router⟩

end TokuMX.Sharding
