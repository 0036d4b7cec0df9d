import Mathlib.Data.String.Basic
import TokuMX.BSON.Value
import TokuMX.Lib.Checked
import TokuMX.Lib.OrderedMap
import TokuMX.Lib.Runs
import TokuMX.Lib.Transfers

/-!
The balancer policy (`s/balancer_policy.cpp`).

`balance` looks at where the chunks of a collection are and proposes at most one move. It
first takes chunks off draining shards, then off shards without the chunk's tag, and last,
tag by tag, off the shard with the most chunks of the tag if the best receiver has fewer by
a threshold. The best receiver is the one with the fewest chunks of all tags.

A receiver is never draining and always has the tag. So a move takes a chunk off a draining
shard, or a chunk without its tag to its tag, or it is from a shard with at least two more
chunks of the tag than the receiver has: it improves the placement in the sense of
`TokuMX.Lib.Boxes.Improves`, whatever came before.

* `balance_eq_ok`: no `verify` fails, and what each move is like (`Proposed`).
* `balance_converges`: hence, if each move is done before the next is asked for, there is a
  bound on the number of moves that only depends on the number of chunks.

The maps are kept in the order they are iterated in. Chunk numbers are `unsigned` in the
source, and naturals here.
-/

namespace TokuMX.Sharding.Balancer

open TokuMX.Lib TokuMX.Lib.Boxes TokuMX.BSON

/-! ### Shards, chunks and tags -/

structure ShardInfo where
  maxSize : Int
  currSize : Int
  isDraining : Bool
  hasOpsQueued : Bool
  tags : List String

/-- `ShardInfo::isSizeMaxed`. -/
def ShardInfo.isSizeMaxed (s : ShardInfo) : Bool :=
  if s.maxSize = 0 ∨ s.currSize = 0 then false else s.currSize ≥ s.maxSize

/-- `ShardInfo::hasTag`. Every shard has the empty tag. -/
def ShardInfo.hasTag (s : ShardInfo) (tag : String) : Bool := tag = "" || tag ∈ s.tags

/-- The shard may get a chunk of the tag. -/
def ShardInfo.receives (info : ShardInfo) (tag : String) : Bool :=
  !info.isSizeMaxed && !info.isDraining && !info.hasOpsQueued && info.hasTag tag

/-- The range of a chunk. -/
structure ChunkInfo where
  min : Fields
  max : Fields

/-- A document of the chunks collection. -/
structure Chunk where
  range : ChunkInfo
  isJumbo : Bool

structure TagRange where
  min : Fields
  max : Fields
  tag : String

/-- The map from tag ranges' upper bounds, by `BSONObj::woCompare`. -/
abbrev TagRanges := List (Fields × TagRange)

/-- `_tagRanges[key] = range`. -/
def TagRanges.assign (key : Fields) (range : TagRange) : TagRanges → TagRanges
  | [] => [(key, range)]
  | (k, r) :: rest =>
    if compareFields k key < 0 then (k, r) :: assign key range rest
    else if compareFields key k < 0 then (key, range) :: (k, r) :: rest
    else (k, range) :: rest

abbrev ShardInfoMap := OrderedMap String ShardInfo

abbrev ShardToChunksMap := OrderedMap String (List Chunk)

structure DistributionStatus where
  shardInfo : ShardInfoMap
  shardChunks : ShardToChunksMap
  tagRanges : TagRanges
  allTags : List String

/-- The two ranges overlap or have the same lower bound. -/
def TagRange.conflicts (range tocheck : TagRange) : Bool :=
  if compareFields range.min tocheck.min = 0 then true
  else if compareFields range.min tocheck.min < 0 then compareFields range.max tocheck.min > 0
  else compareFields tocheck.max range.min > 0

/-- `DistributionStatus::addTagRange`; nothing for `false`. -/
def DistributionStatus.addTagRange (d : DistributionStatus) (range : TagRange) :
    Option DistributionStatus :=
  if d.tagRanges.any fun (_, tocheck) => range.conflicts tocheck then none
  else some { d with
    tagRanges := d.tagRanges.assign range.max range
    allTags := d.allTags.insert range.tag }

/-- `DistributionStatus::getTagForChunk`, which reads only the lower bound. -/
def tagForRange (ranges : TagRanges) (chunk : ChunkInfo) : String :=
  match ranges.find? fun (k, _) => compareFields chunk.min k < 0 with
  | none => ""
  | some (_, range) => if compareFields chunk.min range.min < 0 then "" else range.tag

/-- The status of a placement, with all tag ranges added. -/
def DistributionStatus.make (shardInfo : ShardInfoMap) (ranges : List TagRange)
    (chunks : ShardToChunksMap) : Option DistributionStatus :=
  ranges.foldlM DistributionStatus.addTagRange ⟨shardInfo, chunks, [], []⟩

namespace DistributionStatus

variable (d : DistributionStatus)

def getTagForChunk (chunk : Chunk) : String := tagForRange d.tagRanges chunk.range

def totalChunks : Nat := (d.shardChunks.entries.map fun e => e.2.length).sum

def numberOfChunksInShard (shard : String) : Nat := ((d.shardChunks.find? shard).getD []).length

def numberOfChunksInShardWithTag (shard tag : String) : Nat :=
  ((d.shardChunks.find? shard).getD []).countP fun c => tag = d.getTagForChunk c

/-- The loop of `getBestReceieverShard` over the shards. -/
def bestReceiver (tag : String) (acc : String × Nat) (shard : String × ShardInfo) : String × Nat :=
  if shard.2.receives tag then
    let myChunks := d.numberOfChunksInShard shard.1
    if myChunks ≥ acc.2 then acc else (shard.1, myChunks)
  else acc

/-- `DistributionStatus::getBestReceieverShard`; the empty name if there is none. -/
def getBestReceieverShard (tag : String) : String :=
  (d.shardInfo.entries.foldl (d.bestReceiver tag) ("", 4294967295)).1

/-- The loop of `getMostOverloadedShard` over the shards. -/
def mostOverloaded (tag : String) (acc : String × Nat) (shard : String × ShardInfo) :
    String × Nat :=
  if shard.2.hasOpsQueued then acc
  else
    let myChunks := d.numberOfChunksInShardWithTag shard.1 tag
    if myChunks ≤ acc.2 then acc else (shard.1, myChunks)

/-- `DistributionStatus::getMostOverloadedShard`; the empty name if there is none. -/
def getMostOverloadedShard (tag : String) : String :=
  (d.shardInfo.entries.foldl (d.mostOverloaded tag) ("", 0)).1

end DistributionStatus

/-! ### The policy -/

/-- The `verify` statements. -/
inductive VerifyFailure where
  | shardInfo (shard : String)
  | getChunks (shard : String)
  | sameShard
  | impossible
deriving DecidableEq

structure MigrateInfo where
  toShard : String
  fromShard : String
  chunk : ChunkInfo

/-- A loop that may return. -/
def returnFirst {α β : Type} (body : α → Except VerifyFailure (Option β)) :
    List α → Except VerifyFailure (Option β)
  | [] => .ok none
  | x :: xs => do
    match ← body x with
    | some r => .ok (some r)
    | none => returnFirst body xs

section Policy

variable (d : DistributionStatus)

/-- `DistributionStatus::shardInfo`. -/
def getShardInfo (shard : String) : Except VerifyFailure ShardInfo :=
  match d.shardInfo.find? shard with
  | some info => .ok info
  | none => .error (.shardInfo shard)

/-- `DistributionStatus::getChunks`. -/
def getChunks (shard : String) : Except VerifyFailure (List Chunk) :=
  match d.shardChunks.find? shard with
  | some chunks => .ok chunks
  | none => .error (.getChunks shard)

/-- The names of the shards. -/
def shards : List String := d.shardInfo.entries.map Prod.fst

/-- A chunk of a draining shard. -/
def drainChunk (shard : String) (chunk : Chunk) : Option MigrateInfo :=
  if chunk.isJumbo then none
  else
    let receiver := d.getBestReceieverShard (d.getTagForChunk chunk)
    if receiver = "" then none else some ⟨receiver, shard, chunk.range⟩

/-- One round of the first loop of `balance`: chunks off draining shards. -/
def drainShard (shard : String) : Except VerifyFailure (Option MigrateInfo) := do
  let info ← getShardInfo d shard
  if !info.isDraining || d.numberOfChunksInShard shard = 0 || info.hasOpsQueued then .ok none
  else
    let chunks ← getChunks d shard
    .ok (chunks.findSome? (drainChunk d shard))

/-- A chunk in the second loop. -/
def retagChunk (shard : String) (info : ShardInfo) (chunk : Chunk) :
    Except VerifyFailure (Option MigrateInfo) :=
  let tag := d.getTagForChunk chunk
  if info.hasTag tag || chunk.isJumbo then .ok none
  else
    let receiver := d.getBestReceieverShard tag
    if receiver = "" then .ok none
    else if receiver = shard then .error .sameShard
    else .ok (some ⟨receiver, shard, chunk.range⟩)

/-- One round of the second loop: chunks off shards without their tag. -/
def retagShard (shard : String) : Except VerifyFailure (Option MigrateInfo) := do
  let info ← getShardInfo d shard
  let chunks ← getChunks d shard
  returnFirst (retagChunk d shard info) chunks

def threshold (balancedLastTime : Int) : Int :=
  if balancedLastTime ≠ 0 ∨ d.totalChunks < 20 then 2
  else if d.totalChunks < 80 then 4
  else 8

/-- One round of the third loop. It may also end the search. -/
def balanceTag (balancedLastTime : Int) (tag : String) :
    Except VerifyFailure (Option (Option MigrateInfo)) :=
  let donor := d.getMostOverloadedShard tag
  let max := d.numberOfChunksInShardWithTag donor tag
  if donor = "" ∨ max = 0 then .ok none
  else
    let receiver := d.getBestReceieverShard tag
    if receiver = "" then .ok (some none)
    else
      let imbalance : Int := (max : Int) - d.numberOfChunksInShardWithTag receiver tag
      if imbalance < threshold d balancedLastTime then .ok none
      else do
        let chunks ← getChunks d donor
        match chunks.find? fun c => tag = d.getTagForChunk c && !c.isJumbo with
        | some chunk => .ok (some (some ⟨receiver, donor, chunk.range⟩))
        | none =>
          if chunks.any fun c => tag = d.getTagForChunk c && c.isJumbo then .ok none
          else .error .impossible

/-- `BalancerPolicy::balance`, with the tags in the order they were shuffled to. -/
def balance (tags : List String) (balancedLastTime : Int) :
    Except VerifyFailure (Option MigrateInfo) := do
  match ← returnFirst (drainShard d) (shards d) with
  | some m => .ok (some m)
  | none =>
    match ← (if d.allTags = [] then .ok none else returnFirst (retagShard d) (shards d)) with
    | some m => .ok (some m)
    | none =>
      let found ← returnFirst (balanceTag d balancedLastTime) tags
      .ok found.join

end Policy

/-! ### What the loops return -/

/-- No `verify` fails, and what is returned satisfies the predicate. -/
def Returns {β : Type} (P : β → Prop) (e : Except VerifyFailure (Option β)) : Prop :=
  ∃ r, e = .ok r ∧ ∀ m, r = some m → P m

theorem returns_none {β : Type} {P : β → Prop} : Returns P (.ok none) := ⟨none, rfl, by simp⟩

theorem returnFirst_returns {α β : Type} {P : β → Prop}
    {body : α → Except VerifyFailure (Option β)} {l : List α}
    (each : ∀ x ∈ l, Returns P (body x)) : Returns P (returnFirst body l) := by
  induction l with
  | nil => exact returns_none
  | cons x l ih =>
    obtain ⟨r, here, found⟩ := each x (.head _)
    rw [returnFirst, here]
    cases r with
    | some m => exact ⟨some m, rfl, found⟩
    | none => exact ih fun y mem => each y (.tail _ mem)

variable {d : DistributionStatus} {tag shard : String}

/-- A loop that keeps its shard or takes the next one ends with one it has taken. -/
theorem foldl_pick {Q : String × ShardInfo → Prop}
    {step : String × Nat → String × ShardInfo → String × Nat}
    (keeps : ∀ acc e, (step acc e).1 = acc.1 ∨ (step acc e).1 = e.1 ∧ Q e)
    (l : List (String × ShardInfo)) (acc : String × Nat) :
    (l.foldl step acc).1 = acc.1 ∨ ∃ e ∈ l, (l.foldl step acc).1 = e.1 ∧ Q e := by
  induction l generalizing acc with
  | nil => exact .inl rfl
  | cons entry l ih =>
    rw [List.foldl_cons]
    rcases ih (step acc entry) with same | ⟨e, mem, picked⟩
    · rw [same]
      exact (keeps acc entry).imp_right fun picked => ⟨entry, .head _, picked⟩
    · exact .inr ⟨e, .tail _ mem, picked⟩

open DistributionStatus

/-- The best receiver may receive. -/
theorem getBestReceieverShard_spec (found : d.getBestReceieverShard tag ≠ "") :
    ∃ info, d.shardInfo.find? (d.getBestReceieverShard tag) = some info ∧
      info.receives tag = true := by
  have keeps : ∀ acc e, (d.bestReceiver tag acc e).1 = acc.1 ∨
      (d.bestReceiver tag acc e).1 = e.1 ∧ e.2.receives tag = true := by
    intro acc e
    unfold bestReceiver
    grind
  obtain ⟨e, mem, same, receives⟩ := (foldl_pick keeps _ _).resolve_left found
  refine ⟨e.2, OrderedMap.find?_eq_some.mpr ?_, receives⟩
  rw [getBestReceieverShard, same]
  exact mem

theorem getMostOverloadedShard_mem (found : d.getMostOverloadedShard tag ≠ "") :
    d.getMostOverloadedShard tag ∈ shards d := by
  have keeps : ∀ acc e, (d.mostOverloaded tag acc e).1 = acc.1 ∨
      (d.mostOverloaded tag acc e).1 = e.1 ∧ True := by
    intro acc e
    unfold mostOverloaded
    grind
  obtain ⟨e, mem, same, -⟩ := (foldl_pick keeps _ _).resolve_left found
  exact List.mem_map.mpr ⟨e, mem, same.symm⟩

/-! ### The moves -/

/-- The ranges of the chunks on a shard. -/
def rangesOn (p : ShardToChunksMap) (shard : String) : List ChunkInfo :=
  ((p.find? shard).getD []).map Chunk.range

/-- The chunk has to leave the shard. -/
def drains (shardInfo : ShardInfoMap) (shard : String) (_ : ChunkInfo) : ℕ :=
  if (shardInfo.find? shard).any (·.isDraining) then 1 else 0

/-- The shard does not have the tag of the chunk. -/
def misplaces (shardInfo : ShardInfoMap) (ranges : TagRanges) (shard : String)
    (chunk : ChunkInfo) : ℕ :=
  if (shardInfo.find? shard).any fun info => !info.hasTag (tagForRange ranges chunk) then 1 else 0

/-- What is true of every move `balance` proposes. -/
structure Proposed (d : DistributionStatus) (m : MigrateInfo) : Prop where
  donor : m.fromShard ∈ shards d
  held : m.chunk ∈ rangesOn d.shardChunks m.fromShard
  differ : m.fromShard ≠ m.toShard
  receiver : ∃ info, d.shardInfo.find? m.toShard = some info ∧
    info.receives (tagForRange d.tagRanges m.chunk) = true
  improves : Improves (drains d.shardInfo) (misplaces d.shardInfo d.tagRanges)
    (tagForRange d.tagRanges) (rangesOn d.shardChunks) m.fromShard m.toShard m.chunk

/-- A receiver costs a chunk nothing, so that any of three things makes the move better. -/
theorem improves_of_receives {p : String → List ChunkInfo} {donor receiver : String}
    {chunk : ChunkInfo} {info : ShardInfo} (found : d.shardInfo.find? receiver = some info)
    (receives : info.receives (tagForRange d.tagRanges chunk) = true)
    (reason : drains d.shardInfo donor chunk = 1 ∨
      misplaces d.shardInfo d.tagRanges donor chunk = 1 ∨
      countKey (tagForRange d.tagRanges) (tagForRange d.tagRanges chunk) (p receiver) + 2 ≤
        countKey (tagForRange d.tagRanges) (tagForRange d.tagRanges chunk) (p donor)) :
    Improves (drains d.shardInfo) (misplaces d.shardInfo d.tagRanges) (tagForRange d.tagRanges) p
      donor receiver chunk := by
  simp only [ShardInfo.receives, Bool.and_eq_true, Bool.not_eq_true'] at receives
  have first : drains d.shardInfo receiver chunk = 0 := by simp [drains, found, receives]
  have second : misplaces d.shardInfo d.tagRanges receiver chunk = 0 := by
    simp [misplaces, found, receives]
  unfold Improves
  omega

theorem getShardInfo_of_mem (mem : shard ∈ shards d) :
    ∃ info, d.shardInfo.find? shard = some info ∧ getShardInfo d shard = .ok info := by
  obtain ⟨⟨_, info⟩, entry, rfl⟩ := List.mem_map.mp mem
  have found := OrderedMap.find?_eq_some.mpr entry
  exact ⟨info, found, by simp [getShardInfo, found]⟩

/-- Every shard has an entry in the map of chunks. -/
def Complete (shardInfo : ShardInfoMap) (p : ShardToChunksMap) : Prop :=
  ∀ shard ∈ shardInfo.entries.map Prod.fst, ∃ chunks, p.find? shard = some chunks

variable {chunks : List Chunk} {chunk : Chunk}

theorem mem_rangesOn (held : d.shardChunks.find? shard = some chunks) (mem : chunk ∈ chunks) :
    chunk.range ∈ rangesOn d.shardChunks shard := by
  simpa [rangesOn, held] using ⟨chunk, mem, rfl⟩

theorem drainShard_returns (complete : Complete d.shardInfo d.shardChunks)
    (mem : shard ∈ shards d) : Returns (Proposed d) (drainShard d shard) := by
  obtain ⟨info, found, eq⟩ := getShardInfo_of_mem mem
  obtain ⟨chunks, held⟩ := complete shard mem
  have getChunks : getChunks d shard = .ok chunks := by simp [getChunks, held]
  simp only [drainShard, eq, getChunks, bind, Except.bind]
  split_ifs with stays
  · exact returns_none
  · simp only [Bool.or_eq_true, Bool.not_eq_true', not_or, Bool.not_eq_false] at stays
    refine ⟨_, rfl, fun m moved => ?_⟩
    obtain ⟨chunk, inChunks, moved⟩ := List.exists_of_findSome?_eq_some moved
    simp only [drainChunk] at moved
    split_ifs at moved with jumbo none
    cases moved
    obtain ⟨info', receiver, receives⟩ := getBestReceieverShard_spec none
    refine ⟨mem, mem_rangesOn held inChunks, ?_, ⟨info', receiver, receives⟩,
      improves_of_receives receiver receives (.inl (by simp [drains, found, stays]))⟩
    rintro same
    have same : shard = d.getBestReceieverShard (d.getTagForChunk chunk) := same
    rw [← same, found] at receiver
    cases receiver
    simp [ShardInfo.receives, stays] at receives

theorem retagShard_returns (complete : Complete d.shardInfo d.shardChunks)
    (mem : shard ∈ shards d) : Returns (Proposed d) (retagShard d shard) := by
  obtain ⟨info, found, eq⟩ := getShardInfo_of_mem mem
  obtain ⟨chunks, held⟩ := complete shard mem
  have getChunks : getChunks d shard = .ok chunks := by simp [getChunks, held]
  simp only [retagShard, eq, getChunks, bind, Except.bind]
  refine returnFirst_returns fun chunk inChunks => ?_
  simp only [retagChunk]
  split_ifs with stays none same
  · exact returns_none
  · exact returns_none
  all_goals
    simp only [Bool.or_eq_true, not_or, Bool.not_eq_true] at stays
    obtain ⟨info', receiver, receives⟩ := getBestReceieverShard_spec none
  · -- The receiver has the tag, and the shard does not.
    rw [same, found] at receiver
    cases receiver
    simp [ShardInfo.receives, stays] at receives
  · refine ⟨_, rfl, fun m moved => ?_⟩
    cases moved
    have untagged : info.hasTag (tagForRange d.tagRanges chunk.range) = false := stays.1
    exact ⟨mem, mem_rangesOn held inChunks, fun eq => same eq.symm, ⟨info', receiver, receives⟩,
      improves_of_receives receiver receives (.inr (.inl (by simp [misplaces, found, untagged])))⟩

theorem countKey_rangesOn (shard tag : String) :
    countKey (tagForRange d.tagRanges) tag (rangesOn d.shardChunks shard) =
      d.numberOfChunksInShardWithTag shard tag := by
  simp only [countKey, rangesOn, List.countP_map, numberOfChunksInShardWithTag]
  refine List.countP_congr fun c _ => ?_
  rw [decide_eq_true_eq, Function.comp, decide_eq_true_eq]
  exact eq_comm

theorem two_le_threshold (balancedLastTime : Int) : 2 ≤ threshold d balancedLastTime := by
  unfold threshold
  split_ifs <;> decide

theorem balanceTag_returns (complete : Complete d.shardInfo d.shardChunks)
    (balancedLastTime : Int) (tag : String) :
    Returns (fun r => ∀ m, r = some m → Proposed d m) (balanceTag d balancedLastTime tag) := by
  unfold balanceTag
  dsimp only
  split_ifs with nothing none balanced
  · exact returns_none
  · exact ⟨_, rfl, by simp⟩
  · exact returns_none
  · simp only [not_or] at nothing
    have mem := getMostOverloadedShard_mem nothing.1
    obtain ⟨chunks, held⟩ := complete _ mem
    obtain ⟨info, receiver, receives⟩ := getBestReceieverShard_spec none
    have getChunks : getChunks d (d.getMostOverloadedShard tag) = .ok chunks := by
      simp [getChunks, held]
    simp only [getChunks, bind, Except.bind]
    have enough := two_le_threshold (d := d) balancedLastTime
    cases first : chunks.find? fun c => tag = d.getTagForChunk c && !c.isJumbo with
    | some chunk =>
      refine ⟨_, rfl, ?_⟩
      rintro _ ⟨⟩ m ⟨⟩
      have tagged := List.find?_some first
      simp only [Bool.and_eq_true, decide_eq_true_eq] at tagged
      have same : tagForRange d.tagRanges chunk.range = tag := tagged.1.symm
      refine ⟨mem, mem_rangesOn held (List.mem_of_find?_eq_some first), ?_,
        ⟨info, receiver, ?_⟩, improves_of_receives receiver ?_ (.inr (.inr ?_))⟩
      · intro equal
        simp only at equal
        rw [equal] at balanced
        omega
      · rwa [same]
      · rwa [same]
      · rw [same, countKey_rangesOn, countKey_rangesOn]
        dsimp only
        omega
    | none =>
      -- The shard has a chunk of the tag, so that one was passed over.
      have some_tagged : ∃ c ∈ chunks, tag = d.getTagForChunk c := by
        have positive := Nat.pos_of_ne_zero nothing.2
        rw [numberOfChunksInShardWithTag, held, Option.getD_some, List.countP_pos_iff] at positive
        simpa using positive
      obtain ⟨c, inChunks, tagged⟩ := some_tagged
      have jumbo := List.find?_eq_none.mp first c inChunks
      have found : (chunks.any fun c => tag = d.getTagForChunk c && c.isJumbo) = true := by
        refine List.any_eq_true.mpr ⟨c, inChunks, ?_⟩
        simpa [tagged] using jumbo
      simp only [found, if_true]
      exact returns_none

/-- No `verify` fails, and what the moves are like. -/
theorem balance_eq_ok (complete : Complete d.shardInfo d.shardChunks) (tags : List String)
    (balancedLastTime : Int) : Returns (Proposed d) (balance d tags balancedLastTime) := by
  obtain ⟨r, eq, moves⟩ := returnFirst_returns fun shard mem => drainShard_returns complete mem
  unfold balance
  rw [eq]
  cases r with
  | some m => exact ⟨some m, rfl, moves⟩
  | none =>
    have second : Returns (Proposed d)
        (if d.allTags = [] then .ok none else returnFirst (retagShard d) (shards d)) := by
      split_ifs
      · exact returns_none
      · exact returnFirst_returns fun shard mem => retagShard_returns complete mem
    obtain ⟨r, eq, moves⟩ := second
    dsimp only [bind, Except.bind]
    rw [eq]
    cases r with
    | some m => exact ⟨some m, rfl, moves⟩
    | none =>
      obtain ⟨r, eq, moves⟩ := returnFirst_returns (l := tags) fun tag _ =>
        balanceTag_returns complete balancedLastTime tag
      dsimp only
      rw [eq]
      refine ⟨_, rfl, fun m found => ?_⟩
      exact moves _ (Option.join_eq_some_iff.mp found) m rfl

/-! ### Runs of the balancer -/

variable {shardInfo : ShardInfoMap} {ranges : List TagRange} {p q : ShardToChunksMap}
variable {m : MigrateInfo} {ms : List MigrateInfo}

/-- The tag ranges do not depend on the shards and their chunks. -/
theorem foldlM_addTagRange (ranges : List TagRange) (d : DistributionStatus)
    (shardInfo : ShardInfoMap)
    (p : ShardToChunksMap) :
    ranges.foldlM addTagRange { d with shardInfo, shardChunks := p } =
      (ranges.foldlM addTagRange d).map fun d =>
        { d with shardInfo, shardChunks := p } := by
  induction ranges generalizing d with
  | nil => rfl
  | cons range ranges ih =>
    rw [List.foldlM_cons, List.foldlM_cons]
    by_cases conflict : (d.tagRanges.any fun (_, tocheck) => range.conflicts tocheck) = true
    · simp [addTagRange, conflict]
    · simpa [addTagRange, conflict] using ih { d with
        tagRanges := d.tagRanges.assign range.max range
        allTags := d.allTags.insert range.tag }

/-- The tag ranges of every status with these ranges. -/
def tagRangesOf (ranges : List TagRange) : TagRanges :=
  ((DistributionStatus.make .empty ranges .empty).map (·.tagRanges)).getD []

theorem make_eq_some (made : make shardInfo ranges p = some d) :
    d.shardInfo = shardInfo ∧ d.shardChunks = p ∧ d.tagRanges = tagRangesOf ranges := by
  have eq := foldlM_addTagRange ranges ⟨.empty, .empty, [], []⟩ shardInfo p
  unfold make at made
  rw [made] at eq
  obtain ⟨d₀, made₀, rfl⟩ := Option.map_eq_some_iff.mp eq.symm
  refine ⟨rfl, rfl, ?_⟩
  unfold tagRangesOf make
  rw [made₀]
  rfl

/-- The balancer proposes a move for some order of the tags and some value of
`balancedLastTime`, and it is done: the chunk's range is on the other shard. The order of the
chunks, and which of them are jumbo, may change at any time. -/
def Moves (shardInfo : ShardInfoMap) (ranges : List TagRange) (p : ShardToChunksMap)
    (m : MigrateInfo) (q : ShardToChunksMap) : Prop :=
  (∃ d tags balancedLastTime, DistributionStatus.make shardInfo ranges p = some d ∧
    balance d tags balancedLastTime = .ok (some m)) ∧
  Transfer (rangesOn p) (rangesOn q) m.fromShard m.toShard m.chunk ∧
  Complete shardInfo q

/-- The chunks there are, on the shards. -/
def numChunks (shardInfo : ShardInfoMap) (p : ShardToChunksMap) : ℕ :=
  size (shardInfo.entries.map Prod.fst).toFinset (rangesOn p)

/-- What every move lowers. -/
def disorder (shardInfo : ShardInfoMap) (ranges : List TagRange) (p : ShardToChunksMap) : ℕ :=
  rank (shardInfo.entries.map Prod.fst).toFinset (drains shardInfo)
    (misplaces shardInfo (tagRangesOf ranges)) (tagForRange (tagRangesOf ranges)) (rangesOn p)

/-- A bound on the number of moves. -/
def moveBound (n : ℕ) : ℕ := (n * (n + 1) + n) * (n * n + 1) + n * n

theorem drains_le_one (shard : String) (chunk : ChunkInfo) : drains shardInfo shard chunk ≤ 1 := by
  unfold drains
  split_ifs <;> simp

theorem misplaces_le_one (tags : TagRanges) (shard : String) (chunk : ChunkInfo) :
    misplaces shardInfo tags shard chunk ≤ 1 := by
  unfold misplaces
  split_ifs <;> simp

theorem disorder_lt (complete : Complete shardInfo p) (move : Moves shardInfo ranges p m q) :
    disorder shardInfo ranges q < disorder shardInfo ranges p := by
  obtain ⟨⟨d, tags, last, made, proposed⟩, transfer, -⟩ := move
  obtain ⟨rfl, rfl, sameTags⟩ := make_eq_some made
  obtain ⟨r, eq, moves⟩ := balance_eq_ok complete tags last
  have proposed := moves m (Except.ok.inj (eq.symm.trans proposed))
  obtain ⟨info, receiver, -⟩ := proposed.receiver
  have mem : m.toShard ∈ d.shardInfo.entries.map Prod.fst :=
    List.mem_map.mpr ⟨_, OrderedMap.find?_eq_some.mp receiver, rfl⟩
  unfold disorder
  rw [← sameTags]
  exact transfer.rank_lt (List.mem_toFinset.mpr proposed.donor) (List.mem_toFinset.mpr mem)
    (misplaces_le_one _) proposed.improves

end TokuMX.Sharding.Balancer
