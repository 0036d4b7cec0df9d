import Mathlib.Algebra.Order.BigOperators.Group.Finset
import Mathlib.Data.Fintype.Basic
import Mathlib.Logic.Relation

/-!
Electing a primary (`db/repl/consensus.cpp`).

A candidate votes for itself and asks the others. Whoever has voted votes for no other candidate for
thirty seconds, an election that took longer does not count, and a candidate that fails takes its
own vote back.

* `Inv` — those who voted in an election that goes on or was won stand by that vote, or thirty
  seconds are over since it began.
* `elected_apart` — in every run, of two members that have been elected one decided its election
  more than thirty seconds after the other one began.

Elections begin at any time, and what a member knows of the others is arbitrary. The votes of the
members do not change, clocks agree, and no member restarts: its last vote is in memory only.
-/

namespace TokuMX.Repl.Election

open Function Relation

def leaseTime : Nat := 30

/-- `LastYea`. `none` stands for the id `0xffffffff`. -/
structure LastYea (Id : Type) where
  when : Nat
  who : Option Id

/-- What a member reads when it is asked for its vote. Other members are their priorities. -/
structure View where
  sameSet : Bool
  cfgver : Int
  myver : Int
  primary : Bool
  hopeful : Option Nat
  highestPriority : Option Nat

/-- An election in `_electSelf`, with those who voted for it and when it was won. -/
structure Bid (Id : Type) where
  start : Nat
  yeas : Finset Id
  tally : Int
  decided : Option Nat

structure ReplSet (Id : Type) where
  now : Nat
  ly : Id → LastYea Id
  bid : Id → Option (Bid Id)

variable {Id : Type} [DecidableEq Id]

/-- `yea`, which may throw. -/
def LastYea.yea (ly : LastYea Id) (memberId : Id) (now : Nat) : Option (LastYea Id) :=
  if ly.when + leaseTime ≥ now ∧ ly.who ≠ some memberId then none else some ⟨now, some memberId⟩

def LastYea.electionFailed (ly : LastYea Id) (meid : Id) : LastYea Id :=
  if ly.who = some meid then { ly with when := 0 } else ly

def LastYea.electCmdReceived (ly : LastYea Id) (votes : Nat) (view : View) (whoid : Id)
    (now : Nat) : Int × LastYea Id :=
  if ¬ view.sameSet ∨ view.myver < view.cfgver then (0, ly)
  else if view.myver > view.cfgver ∨ view.hopeful.isNone ∨ view.primary ∨
    view.highestPriority.any (view.hopeful.getD 0 < ·) then (-10000, ly)
  else
    match ly.yea whoid now with
    | some ly' => (votes, ly')
    | none => (0, ly)

def Bid.add (b : Bid Id) (v : Id) (vote : Int) : Bid Id :=
  { b with yeas := if 0 < vote then insert v b.yeas else b.yeas, tally := b.tally + vote }

/-- Before the first election. -/
def start (now : Nat) : ReplSet Id := ⟨now, fun _ => ⟨0, none⟩, fun _ => none⟩

/-- The vote is for `c` and not from before `start`, or the time is over. -/
def Holds (now : Nat) (ly : LastYea Id) (c : Id) (start : Nat) : Prop :=
  ly.who = some c ∧ start ≤ ly.when ∨ start + leaseTime < now

/-- One election was decided when the time of the other one was over. -/
def Apart (b b' : Bid Id) : Prop :=
  ∀ t ∈ b.decided, ∀ t' ∈ b'.decided, b.start + leaseTime < t' ∨ b'.start + leaseTime < t

section

variable {c v : Id} {ly ly' : LastYea Id} {now start : Nat}

theorem holds_yea (voted : ly.yea v now = some ly') (le : start ≤ now)
    (either : c = v ∨ Holds now ly c start) : Holds now ly' c start := by
  grind [LastYea.yea, Holds]

theorem electCmdReceived_spec {votes : Nat} {view : View} {vote : Int}
    (asked : ly.electCmdReceived votes view c now = (vote, ly')) :
    vote ≤ 0 ∧ ly' = ly ∨ vote = votes ∧ ly.yea c now = some ly' := by
  grind [LastYea.electCmdReceived]

end

variable [Fintype Id] (votes : Id → Nat)

/-- One step of one member. The reply to a command counts or gets lost. -/
inductive Step : ReplSet Id → ReplSet Id → Prop
  | clock {s} (now) (le : s.now ≤ now) : Step s { s with now }
  | electSelf {s ly} (c) (idle : s.bid c = none) (voted : (s.ly c).yea c s.now = some ly) :
      Step s ⟨s.now, update s.ly c ly, update s.bid c (some ⟨s.now, {c}, votes c, none⟩)⟩
  | lost {s vote ly} (v c view)
      (asked : (s.ly v).electCmdReceived (votes v) view c s.now = (vote, ly)) :
      Step s { s with ly := update s.ly v ly }
  | counted {s vote ly b} (v c view)
      (asked : (s.ly v).electCmdReceived (votes v) view c s.now = (vote, ly))
      (at_c : b ∈ s.bid c) (going : b.decided = none) (new : v ∉ b.yeas) :
      Step s ⟨s.now, update s.ly v ly, update s.bid c (some (b.add v vote))⟩
  | won {s} {b : Bid Id} (c) (at_c : b ∈ s.bid c) (going : b.decided = none)
      (majority : b.tally * 2 > ∑ m, votes m) (inTime : s.now - b.start ≤ leaseTime) :
      Step s { s with bid := update s.bid c (some { b with decided := some s.now }) }
  -- also when the configuration has changed, `assumePrimary` fails or something is thrown
  | failed {s b} (c) (at_c : b ∈ s.bid c) (going : b.decided = none) :
      Step s ⟨s.now, update s.ly c ((s.ly c).electionFailed c), update s.bid c none⟩
  | relinquish {s b} (c) (at_c : b ∈ s.bid c) (won : b.decided.isSome) :
      Step s { s with bid := update s.bid c none }

structure Backed (now : Nat) (ly : Id → LastYea Id) (c : Id) (b : Bid Id) : Prop where
  start : b.start ≤ now
  holds : ∀ v ∈ b.yeas, Holds now (ly v) c b.start
  tally : b.tally ≤ ∑ v ∈ b.yeas, votes v
  won : b.decided.isSome → b.tally * 2 > ∑ m, votes m

structure Inv (s : ReplSet Id) : Prop where
  backed : ∀ c, ∀ b ∈ s.bid c, Backed votes s.now s.ly c b
  apart : ∀ c c', c ≠ c' → ∀ b ∈ s.bid c, ∀ b' ∈ s.bid c', Apart b b'

variable {votes} {s t : ReplSet Id} {c c' v : Id} {b b' : Bid Id} {ly : LastYea Id} {now : Nat}

/-- Two majorities share a voter. -/
theorem Backed.common_voter {f : Id → LastYea Id} (l : Backed votes now f c b)
    (r : Backed votes now f c' b') (won : b.tally * 2 > ∑ m, votes m)
    (won' : b'.tally * 2 > ∑ m, votes m) : ∃ v ∈ b.yeas, v ∈ b'.yeas := by
  by_contra none
  have disjoint : Disjoint b.yeas b'.yeas := by
    rw [Finset.disjoint_left]
    exact fun v mem mem' => none ⟨v, mem, mem'⟩
  have le : ∑ v ∈ b.yeas ∪ b'.yeas, votes v ≤ ∑ m, votes m :=
    Finset.sum_le_sum_of_subset (Finset.subset_univ _)
  rw [Finset.sum_union disjoint] at le
  have := l.tally
  have := r.tally
  omega

namespace Inv

variable (inv : Inv votes s)
include inv

/-- One member changes its last vote. -/
theorem revote (kept : ∀ c, ∀ b ∈ s.bid c,
    Holds s.now (s.ly v) c b.start → Holds s.now ly c b.start) :
    Inv votes { s with ly := update s.ly v ly } := by
  refine ⟨fun c b at_c => ?_, inv.apart⟩
  obtain ⟨start, holds, tally, won⟩ := inv.backed c b at_c
  refine ⟨start, fun w mem => ?_, tally, won⟩
  rcases eq_or_ne w v with rfl | other
  · simpa using kept c b at_c (holds w mem)
  · simpa [other] using holds w mem

theorem elect {view : View} {vote : Int}
    (asked : (s.ly v).electCmdReceived (votes v) view c s.now = (vote, ly)) :
    Inv votes { s with ly := update s.ly v ly } := by
  refine inv.revote fun d b at_d holds => ?_
  rcases electCmdReceived_spec asked with ⟨-, rfl⟩ | ⟨-, voted⟩
  · exact holds
  · exact holds_yea voted (inv.backed d b at_d).start (.inr holds)

/-- One member begins, goes on with or ends an election. -/
theorem bid (c : Id) (bid : Option (Bid Id))
    (backed : ∀ b ∈ bid, Backed votes s.now s.ly c b)
    (apart : ∀ b ∈ bid, ∀ c' ≠ c, ∀ b' ∈ s.bid c', Apart b b') :
    Inv votes { s with bid := update s.bid c bid } := by
  obtain ⟨backed₀, apart₀⟩ := inv
  constructor
  · grind [update_apply]
  · grind [update_apply, Apart]

/-- Whoever is elected now shares a voter with whoever was elected before, and that vote was free
again. -/
theorem apart_now (at_c : b ∈ s.bid c) (majority : b.tally * 2 > ∑ m, votes m)
    (inTime : s.now - b.start ≤ leaseTime) (ne : c' ≠ c) (at_c' : b' ∈ s.bid c') :
    Apart { b with decided := some s.now } b' := by
  rintro _ ⟨⟩ t' won
  have backed := inv.backed c b at_c
  have backed' := inv.backed c' b' at_c'
  obtain ⟨v, mem, mem'⟩ := backed.common_voter backed' majority (backed'.won (by simp_all))
  rcases backed.holds v mem with ⟨who, -⟩ | past
  · rcases backed'.holds v mem' with ⟨who', -⟩ | past'
    · exact absurd (Option.some.inj (who'.symm.trans who)) ne
    · exact .inr past'
  · omega

theorem step (step : Step votes s t) : Inv votes t := by
  cases step with
  | clock _ le =>
    refine ⟨fun c b at_c => ?_, inv.apart⟩
    obtain ⟨start, holds, tally, won⟩ := inv.backed c b at_c
    exact ⟨start.trans le, fun v mem => (holds v mem).imp_right (·.trans_le le), tally, won⟩
  | electSelf c idle voted =>
    have kept := inv.revote fun d b at_d => holds_yea voted (inv.backed d b at_d).start ∘ .inr
    refine kept.bid _ _ ?_ ?_
    · rintro b ⟨⟩
      exact ⟨le_rfl, by simp [holds_yea voted le_rfl (.inl rfl)], by simp, nofun⟩
    · rintro b ⟨⟩ _ _ _ _ _ ⟨⟩
  | lost v c view asked => exact inv.elect asked
  | counted v c view asked at_c going new =>
    have kept := inv.elect asked
    obtain ⟨start, holds, tally, -⟩ := kept.backed c _ at_c
    refine kept.bid _ _ ?_ ?_
    · rintro _ ⟨⟩
      refine ⟨start, ?_, ?_, by simp [Bid.add, going]⟩
      · grind [Bid.add, electCmdReceived_spec asked, holds_yea, update_apply]
      · grind [Bid.add, electCmdReceived_spec asked, Finset.sum_insert new]
    · rintro _ ⟨⟩ _ _ _ _ t ht
      simp [Bid.add, going] at ht
  | won c at_c going majority inTime =>
    obtain ⟨start, holds, tally, -⟩ := inv.backed _ _ at_c
    refine inv.bid _ _ ?_ ?_
    · rintro _ ⟨⟩
      exact ⟨start, holds, tally, fun _ => majority⟩
    · rintro _ ⟨⟩ d ne b' at_d
      exact inv.apart_now at_c majority inTime ne at_d
  | failed c at_c going =>
    -- with the election over, nobody counts on the vote that is taken back
    refine (inv.bid c none (by simp) (by simp)).revote fun d b' at_d holds => ?_
    have other : d ≠ c := by
      rintro rfl
      simp at at_d
    grind [LastYea.electionFailed, Holds]
  | relinquish c at_c won => exact inv.bid _ _ (by simp) (by simp)

end Inv

/-- Of two members that have been elected, one decided when the time of the other was over. -/
theorem elected_apart (run : ReflTransGen (Step votes) (start now) s) (ne : c ≠ c')
    (bid : b ∈ s.bid c) (bid' : b' ∈ s.bid c') : Apart b b' := by
  have inv : Inv votes s := by
    clear bid bid'
    induction run with
    | refl => constructor <;> simp [start]
    | tail _ step ih => exact ih.step step
  exact inv.apart c c' ne b bid b' bid'

/-- Member `1`, which has the only vote, elects `0`, and itself after thirty-one seconds. -/
theorem elected_apart_lease : ∃ (s : ReplSet (Fin 2)) (b b' : Bid (Fin 2)),
    ReflTransGen (Step Fin.val) (start 100) s ∧ s.bid 0 = some b ∧ s.bid 1 = some b' ∧
      b.decided = some 100 ∧ b'.decided = some 131 ∧ Apart b b' := by
  have first := (((ReflTransGen.refl (r := Step (@Fin.val 2)) (a := start 100)).tail
    (.electSelf 0 rfl rfl)).tail (.counted 1 0 ⟨true, 1, 1, false, some 1, none⟩ rfl rfl rfl
    (by decide))).tail (.won 0 rfl rfl (by decide) (by decide))
  have second := ((first.tail (.clock 131 (by decide))).tail (.electSelf 1 rfl rfl)).tail
    (.won 1 rfl rfl (by decide) (by decide))
  have ne : (0 : Fin 2) ≠ 1 := by decide
  exact ⟨_, _, _, second, rfl, rfl, rfl, rfl, elected_apart second ne rfl rfl⟩

end TokuMX.Repl.Election
