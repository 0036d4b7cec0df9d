import Mathlib.Data.Finset.Max
import TokuMX.Lib.Checked
import TokuMX.Lib.Runs
import TokuMX.Repl.GTID

/-!
The GTID manager on a primary (`db/gtid.cpp`).

`GTIDManager` keeps the last GTID handed out, the set of live ones and the
minimum a tailable oplog cursor may not read past. The minimum is maintained
incrementally: `getGTIDForPrimary` moves it only when the set is empty,
`noteLiveGTIDDone` only when the finished GTID is the minimum.

* `primary_episode` — from any state that passes `verifyReadyToBecomePrimary` and
  is then reset, every interleaving of the three calls hands out increasing
  GTIDs, never lowers the minimum, keeps it below everything outstanding or still
  to come, and is ready again whenever nothing is outstanding. No `dassert` of
  the calls fails on the way.

`dassert` and `verify` are modelled alike, by `Lib.check`: a call whose assertion
fails has no result. Sequence numbers do not wrap around.
-/

namespace TokuMX.Repl

open TokuMX.Lib

/-- The fields of `class GTIDManager`. `std::set<GTID, GTIDCmp>` is a `Finset`
whose least element is `*begin()`. -/
structure GTIDManager where
  selfID : Nat
  incPrimary : Bool
  lastLiveGTID : GTID
  lastUnappliedGTID : GTID
  minLiveGTID : GTID
  minUnappliedGTID : GTID
  liveGTIDs : Finset GTID
  unappliedGTIDs : Finset GTID
  lastTimestamp : Nat
  lastHash : Nat
deriving DecidableEq

variable {m : GTIDManager}

namespace GTIDManager

/-- The GTID the next `getGTIDForPrimary` hands out. -/
def nextGTID (m : GTIDManager) : GTID :=
  if m.incPrimary then m.lastLiveGTID.incPrimary else m.lastLiveGTID.inc

/-- `GTIDManager::getGTIDForPrimary`. `now` is what `curTimeMillis64` returns; the
result is the GTID, its timestamp and its hash. -/
def getGTIDForPrimary (m : GTIDManager) (now : Nat) :
    Option ((GTID × Nat × Nat) × GTIDManager) := do
  check (GTID.cmp m.lastLiveGTID m.lastUnappliedGTID = 0)
  let gtid := m.nextGTID
  let hash := ((m.lastHash * 131 + now) * 17 + m.selfID) % 2 ^ 64
  return ((gtid, now, hash),
    { m with
      incPrimary := false
      lastLiveGTID := gtid
      minLiveGTID := if m.liveGTIDs.card = 0 then gtid else m.minLiveGTID
      lastUnappliedGTID := gtid
      liveGTIDs := insert gtid m.liveGTIDs
      lastTimestamp := now
      lastHash := hash })

/-- The minimum `noteLiveGTIDDone` installs once the old minimum has left `live`. -/
def minAfterDone (m : GTIDManager) (live : Finset GTID) : GTID :=
  match live.min with
  | ⊤ => m.lastLiveGTID.inc
  | (least : GTID) => least

/-- `GTIDManager::noteLiveGTIDDone`. -/
def noteLiveGTIDDone (m : GTIDManager) (gtid : GTID) : Option GTIDManager := do
  check (0 ≤ GTID.cmp gtid m.minLiveGTID)
  check (0 < m.liveGTIDs.card)
  let live := m.liveGTIDs.erase gtid
  if GTID.cmp m.minLiveGTID gtid = 0 then
    let least := m.minAfterDone live
    return { m with liveGTIDs := live, minLiveGTID := least, minUnappliedGTID := least }
  else
    return { m with liveGTIDs := live }

/-- `GTIDManager::getMinLiveGTID`, the bound `getOplogMinUnsafeKey` gives to
tailable oplog cursors. -/
def getMinLiveGTID (m : GTIDManager) : GTID := m.minLiveGTID

/-- `GTIDManager::resetManager`, called while becoming primary. -/
def resetManager (m : GTIDManager) : Option GTIDManager := do
  check (m.liveGTIDs.card = 0)
  return { m with
    incPrimary := true
    minLiveGTID := m.lastLiveGTID.inc
    lastUnappliedGTID := m.lastLiveGTID
    minUnappliedGTID := m.lastLiveGTID.inc }

/-- `GTIDManager::verifyReadyToBecomePrimary`. -/
def verifyReadyToBecomePrimary (m : GTIDManager) : Option Unit := do
  check (GTID.cmp m.lastLiveGTID m.lastUnappliedGTID = 0)
  check (GTID.cmp m.minLiveGTID m.minUnappliedGTID = 0)
  check (0 < GTID.cmp m.minLiveGTID m.lastLiveGTID)

/-- `GTIDManager::noteGTIDAdded`: a secondary has added an entry to its oplog. -/
def noteGTIDAdded (m : GTIDManager) (gtid : GTID) (ts lastHash : Nat) : Option GTIDManager := do
  check (GTID.cmp m.lastLiveGTID m.minLiveGTID < 0)
  check (GTID.cmp m.lastLiveGTID gtid < 0)
  return { m with
    lastLiveGTID := gtid, minLiveGTID := gtid.inc, lastTimestamp := ts, lastHash := lastHash }

/-- `GTIDManager::noteApplyingGTID`: a secondary starts to apply an entry. -/
def noteApplyingGTID (m : GTIDManager) (gtid : GTID) : Option GTIDManager := do
  check (0 ≤ GTID.cmp gtid m.minUnappliedGTID)
  check (0 < GTID.cmp gtid m.lastUnappliedGTID)
  return { m with
    minUnappliedGTID := if m.unappliedGTIDs.card = 0 then gtid else m.minUnappliedGTID
    unappliedGTIDs := insert gtid m.unappliedGTIDs
    lastUnappliedGTID := gtid }

/-- `GTIDManager::noteGTIDApplied`: a secondary has applied an entry. -/
def noteGTIDApplied (m : GTIDManager) (gtid : GTID) : Option GTIDManager := do
  check (0 ≤ GTID.cmp gtid m.minUnappliedGTID)
  check (0 < m.unappliedGTIDs.card)
  let unapplied := m.unappliedGTIDs.erase gtid
  if GTID.cmp m.minUnappliedGTID gtid = 0 then
    return { m with
      unappliedGTIDs := unapplied
      minUnappliedGTID :=
        match unapplied.min with
        | ⊤ => m.lastUnappliedGTID.inc
        | (least : GTID) => least }
  else
    return { m with unappliedGTIDs := unapplied }

/-- The constructor, from the last entry of the oplog. `_minUnappliedGTID` and
`_lastUnappliedGTID` are not set: they are what `GTID()` gives. -/
def new (lastGTID : GTID) (lastTime lastHash id : Nat) : GTIDManager where
  selfID := id
  incPrimary := false
  lastLiveGTID := lastGTID
  lastUnappliedGTID := ⟨0, 0⟩
  minLiveGTID := lastGTID.inc
  minUnappliedGTID := ⟨0, 0⟩
  liveGTIDs := ∅
  unappliedGTIDs := ∅
  lastTimestamp := lastTime
  lastHash := lastHash

/-- `GTIDManager::catchUnappliedToLive`. -/
def catchUnappliedToLive (m : GTIDManager) : Option GTIDManager := do
  check (m.liveGTIDs.card = 0)
  check (m.unappliedGTIDs.card = 0)
  return { m with lastUnappliedGTID := m.lastLiveGTID, minUnappliedGTID := m.minLiveGTID }

/-- `GTIDManager::resetAfterInitialSync`, also called by a rollback. -/
def resetAfterInitialSync (m : GTIDManager) (last : GTID) (lastTime lastHash : Nat) :
    Option GTIDManager := do
  check (m.liveGTIDs.card = 0)
  check (m.unappliedGTIDs.card = 0)
  return { m with
    lastLiveGTID := last
    minLiveGTID := last.inc
    lastUnappliedGTID := last
    minUnappliedGTID := last.inc
    lastTimestamp := lastTime
    lastHash := lastHash }

/-- `GTIDManager::getMins`: the two minima, live and unapplied. -/
def getMins (m : GTIDManager) : GTID × GTID := (m.minLiveGTID, m.minUnappliedGTID)

theorem lastLive_lt_nextGTID (m : GTIDManager) : m.lastLiveGTID < m.nextGTID := by
  unfold nextGTID
  split_ifs
  · exact m.lastLiveGTID.lt_incPrimary
  · exact m.lastLiveGTID.lt_inc

theorem minAfterDone_empty (m : GTIDManager) : m.minAfterDone ∅ = m.lastLiveGTID.inc := by
  simp [minAfterDone]

theorem minAfterDone_isLeast (m : GTIDManager) {live : Finset GTID} (nonempty : live.Nonempty) :
    IsLeast (live : Set GTID) (m.minAfterDone live) := by
  obtain ⟨least, hmin⟩ := Finset.min_of_nonempty nonempty
  have value : m.minAfterDone live = least := by simp [minAfterDone, hmin]
  rw [value]
  exact ⟨Finset.mem_of_min hmin, fun g hg => Finset.min_le_of_eq hg hmin⟩

theorem verifyReadyToBecomePrimary_iff :
    m.verifyReadyToBecomePrimary = some () ↔ m.lastLiveGTID = m.lastUnappliedGTID ∧
      m.minLiveGTID = m.minUnappliedGTID ∧ m.lastLiveGTID < m.minLiveGTID := by
  simp [verifyReadyToBecomePrimary, GTID.cmp_eq_zero, GTID.cmp_pos]

variable {m' : GTIDManager} {gtid : GTID}

theorem noteGTIDAdded_lastLive {ts lastHash : Nat}
    (added : m.noteGTIDAdded gtid ts lastHash = some m') :
    m.lastLiveGTID < gtid ∧ m'.lastLiveGTID = gtid := by
  simp only [noteGTIDAdded, Option.bind_eq_bind, check_bind_eq_some, GTID.cmp_lt_zero,
    Option.pure_def, Option.some.injEq] at added
  obtain ⟨-, above, rfl⟩ := added
  exact ⟨above, rfl⟩

theorem noteApplyingGTID_lastLive (noted : m.noteApplyingGTID gtid = some m') :
    m'.lastLiveGTID = m.lastLiveGTID := by
  simp only [noteApplyingGTID, Option.bind_eq_bind, check_bind_eq_some, Option.pure_def,
    Option.some.injEq] at noted
  obtain ⟨-, -, rfl⟩ := noted
  rfl

theorem noteGTIDApplied_lastLive (noted : m.noteGTIDApplied gtid = some m') :
    m'.lastLiveGTID = m.lastLiveGTID := by
  simp only [noteGTIDApplied, Option.bind_eq_bind, check_bind_eq_some, Option.pure_def] at noted
  obtain ⟨-, -, noted⟩ := noted
  split_ifs at noted <;> (cases noted; rfl)

end GTIDManager

/-! ### A primary episode -/

/-- What the callers of a primary's manager see of one call. -/
inductive PrimaryEvent where
  | handedOut (gtid : GTID)
  | done (gtid : GTID)
  | readMinLive (gtid : GTID)
deriving DecidableEq

/-- The manager together with the GTIDs its callers hold: handed out and not yet
reported done. -/
structure PrimaryState where
  mgr : GTIDManager
  outstanding : Finset GTID

/-- One call. Callers report only GTIDs they hold, in any order; readers may ask
for the minimum at any time. -/
inductive PrimaryStep : PrimaryState → PrimaryEvent → PrimaryState → Prop where
  | get {m m' : GTIDManager} {out : Finset GTID} {ts hash : Nat} {gtid : GTID} (now : Nat) :
      m.getGTIDForPrimary now = some ((gtid, ts, hash), m') →
      PrimaryStep ⟨m, out⟩ (.handedOut gtid) ⟨m', insert gtid out⟩
  | done {m m' : GTIDManager} {out : Finset GTID} (gtid : GTID) :
      gtid ∈ out → m.noteLiveGTIDDone gtid = some m' →
      PrimaryStep ⟨m, out⟩ (.done gtid) ⟨m', out.erase gtid⟩
  | read {m : GTIDManager} {out : Finset GTID} :
      PrimaryStep ⟨m, out⟩ (.readMinLive m.getMinLiveGTID) ⟨m, out⟩

/-- The GTIDs handed out along a trace, oldest first. -/
def handedOut : List PrimaryEvent → List GTID :=
  List.filterMap fun
    | .handedOut gtid => some gtid
    | _ => none

variable {g : GTID}

theorem mem_handedOut {events : List PrimaryEvent} :
    g ∈ handedOut events ↔ .handedOut g ∈ events := by
  constructor
  · intro mem
    obtain ⟨e, he, eq⟩ := List.mem_filterMap.mp mem
    cases e with
    | handedOut gtid => exact Option.some.inj eq ▸ he
    | done gtid => simp at eq
    | readMinLive gtid => simp at eq
  · intro mem
    exact List.mem_filterMap.mpr ⟨_, mem, rfl⟩

/-- What the fields of a primary's manager mean. -/
structure PrimaryInv (s : PrimaryState) : Prop where
  live_eq : s.mgr.liveGTIDs = s.outstanding
  last_eq : s.mgr.lastLiveGTID = s.mgr.lastUnappliedGTID
  le_last : ∀ g ∈ s.outstanding, g ≤ s.mgr.lastLiveGTID
  idle : s.outstanding = ∅ → s.mgr.minLiveGTID = s.mgr.lastLiveGTID.inc ∧
    s.mgr.minUnappliedGTID = s.mgr.minLiveGTID
  least : s.outstanding.Nonempty → IsLeast (s.outstanding : Set GTID) s.mgr.minLiveGTID

namespace PrimaryInv

variable {s t : PrimaryState} {e : PrimaryEvent}

theorem minLive_le (inv : PrimaryInv s) (held : g ∈ s.outstanding) : s.mgr.minLiveGTID ≤ g :=
  (inv.least ⟨g, held⟩).2 held

theorem minLive_le_nextGTID (inv : PrimaryInv s) : s.mgr.minLiveGTID ≤ s.mgr.nextGTID := by
  obtain none | some := s.outstanding.eq_empty_or_nonempty
  · rw [(inv.idle none).1]
    exact GTID.inc_le_iff.mpr s.mgr.lastLive_lt_nextGTID
  · exact (inv.le_last _ (inv.least some).1).trans s.mgr.lastLive_lt_nextGTID.le

end PrimaryInv

variable {s t : PrimaryState} {e : PrimaryEvent}

open GTIDManager

/-- Everything a call can do, in terms of the fields. -/
theorem primaryStep_cases (inv : PrimaryInv s) (step : PrimaryStep s e t) :
    (e = .handedOut s.mgr.nextGTID ∧ t.outstanding = insert s.mgr.nextGTID s.outstanding ∧
      t.mgr.liveGTIDs = insert s.mgr.nextGTID s.mgr.liveGTIDs ∧
      t.mgr.lastLiveGTID = s.mgr.nextGTID ∧ t.mgr.lastUnappliedGTID = s.mgr.nextGTID ∧
      t.mgr.minLiveGTID = if s.outstanding = ∅ then s.mgr.nextGTID else s.mgr.minLiveGTID) ∨
    (∃ g ∈ s.outstanding, e = .done g ∧ t.outstanding = s.outstanding.erase g ∧
      t.mgr.liveGTIDs = s.mgr.liveGTIDs.erase g ∧
      t.mgr.lastLiveGTID = s.mgr.lastLiveGTID ∧
      t.mgr.lastUnappliedGTID = s.mgr.lastUnappliedGTID ∧
      if s.mgr.minLiveGTID = g then
        t.mgr.minLiveGTID = s.mgr.minAfterDone t.outstanding ∧
          t.mgr.minUnappliedGTID = t.mgr.minLiveGTID
      else t.mgr.minLiveGTID = s.mgr.minLiveGTID) ∨
    (e = .readMinLive s.mgr.minLiveGTID ∧ t = s) := by
  cases step with
  | @get m m' out ts hash gtid now got =>
    left
    simp only [getGTIDForPrimary, Option.bind_eq_bind, check_bind_eq_some,
      Option.pure_def, Option.some.injEq, Prod.mk.injEq] at got
    obtain ⟨-, ⟨rfl, -, -⟩, rfl⟩ := got
    have live : m.liveGTIDs = out := inv.live_eq
    simp [live]
  | @done m m' out gtid held noted =>
    right; left
    refine ⟨gtid, held, rfl, rfl, ?_⟩
    simp only [noteLiveGTIDDone, Option.bind_eq_bind, check_bind_eq_some,
      Option.pure_def, GTID.cmp_eq_zero] at noted
    have live : m.liveGTIDs = out := inv.live_eq
    obtain ⟨-, -, noted⟩ := noted
    split_ifs at noted with isMin
    · cases noted
      simp [isMin, live]
    · cases noted
      simp [isMin]
  | read => exact .inr (.inr ⟨rfl, rfl⟩)

theorem primaryInv_step (inv : PrimaryInv s) (step : PrimaryStep s e t) : PrimaryInv t := by
  obtain ⟨-, out, live, last, unapplied, min⟩ | ⟨g, held, -, out, live, last, unapplied, min⟩ |
    ⟨-, rfl⟩ := primaryStep_cases inv step
  · refine ⟨by rw [live, out, inv.live_eq], last.trans unapplied.symm, ?_, ?_, fun _ => ?_⟩
    · intro g hg
      rw [out, Finset.mem_insert] at hg
      rw [last]
      obtain rfl | hg := hg
      · exact le_rfl
      · exact (inv.le_last g hg).trans s.mgr.lastLive_lt_nextGTID.le
    · intro none
      simp [out] at none
    · -- The new GTID is the minimum only when it is alone; else the old minimum stays.
      rw [out, min, Finset.coe_insert]
      split_ifs with none
      · simp [none, isLeast_singleton]
      · have least := inv.least (Finset.nonempty_iff_ne_empty.mpr none)
        refine ⟨Set.mem_insert_of_mem _ least.1, fun g hg => ?_⟩
        obtain rfl | hg := Set.mem_insert_iff.mp hg
        · exact inv.minLive_le_nextGTID
        · exact least.2 hg
  · have le_last : ∀ g' ∈ t.outstanding, g' ≤ t.mgr.lastLiveGTID := by
      intro g' hg'
      rw [out] at hg'
      rw [last]
      exact inv.le_last g' (Finset.mem_of_mem_erase hg')
    have least := inv.least ⟨g, held⟩
    refine ⟨by rw [live, out, inv.live_eq], by rw [last, unapplied, inv.last_eq], le_last, ?_, ?_⟩
    · -- If nothing is left, the GTID that finished was the minimum.
      intro none
      have alone : s.mgr.minLiveGTID = g := by
        by_contra ne
        have : s.mgr.minLiveGTID ∈ t.outstanding := by
          rw [out]
          exact Finset.mem_erase.mpr ⟨ne, least.1⟩
        simp [none] at this
      rw [if_pos alone, none] at min
      exact ⟨by rw [min.1, last, minAfterDone_empty], min.2⟩
    · intro some
      split_ifs at min with isMin
      · rw [min.1]
        exact s.mgr.minAfterDone_isLeast some
      · rw [min, out]
        refine ⟨Finset.mem_coe.mpr (Finset.mem_erase.mpr ⟨isMin, least.1⟩), fun g' hg' => ?_⟩
        exact least.2 (Finset.mem_of_mem_erase (Finset.mem_coe.mp hg'))
  · exact inv

theorem minLive_le_step (inv : PrimaryInv s) (step : PrimaryStep s e t) :
    s.mgr.minLiveGTID ≤ t.mgr.minLiveGTID := by
  obtain ⟨-, out, -, -, -, min⟩ | ⟨g, held, -, out, -, last, -, min⟩ | ⟨-, rfl⟩ :=
    primaryStep_cases inv step
  · rw [min]
    split_ifs
    · exact inv.minLive_le_nextGTID
    · exact le_rfl
  · split_ifs at min with isMin
    · rw [min.1]
      obtain none | some := t.outstanding.eq_empty_or_nonempty
      · -- Nothing is left: the new minimum is past the last GTID handed out.
        rw [none, minAfterDone_empty, isMin]
        exact (inv.le_last g held).trans s.mgr.lastLiveGTID.lt_inc.le
      · have left : s.mgr.minAfterDone t.outstanding ∈ s.outstanding.erase g :=
          out ▸ Finset.mem_coe.mp (s.mgr.minAfterDone_isLeast some).1
        exact inv.minLive_le (Finset.mem_of_mem_erase left)
    · exact min.ge
  · exact le_rfl

/-- The assertions of the calls hold wherever the invariant does. -/
theorem primary_calls_succeed (inv : PrimaryInv s) :
    (∀ now, (s.mgr.getGTIDForPrimary now).isSome) ∧
      ∀ g ∈ s.outstanding, (s.mgr.noteLiveGTIDDone g).isSome := by
  constructor
  · intro now
    simp [getGTIDForPrimary, check, GTID.cmp_eq_zero, inv.last_eq]
  · intro g held
    have nonempty : 0 < s.mgr.liveGTIDs.card := by
      rw [inv.live_eq]
      exact Finset.card_pos.mpr ⟨g, held⟩
    have above : 0 ≤ GTID.cmp g s.mgr.minLiveGTID := GTID.cmp_nonneg.mpr (inv.minLive_le held)
    simp only [noteLiveGTIDDone, check, above, nonempty, if_true, Option.bind_eq_bind,
      Option.bind_some]
    split_ifs <;> rfl

theorem primaryInv_reset {m₀ : GTIDManager} (reset : m₀.resetManager = some m) :
    PrimaryInv ⟨m, ∅⟩ := by
  simp only [resetManager, Option.bind_eq_bind, check_bind_eq_some,
    Finset.card_eq_zero, Option.pure_def, Option.some.injEq] at reset
  obtain ⟨none, rfl⟩ := reset
  exact ⟨none, rfl, by simp, fun _ => ⟨rfl, rfl⟩, by simp⟩

/-- A run hands out increasing GTIDs, between the last one before it and the last
one after it. -/
theorem handedOut_sorted {events : List PrimaryEvent} (inv : PrimaryInv s)
    (run : Run PrimaryStep s events t) :
    (handedOut events).Pairwise (· < ·) ∧
      ∀ g ∈ handedOut events, s.mgr.lastLiveGTID < g ∧ g ≤ t.mgr.lastLiveGTID := by
  refine (run.history (P := fun events t => PrimaryInv t ∧
    s.mgr.lastLiveGTID ≤ t.mgr.lastLiveGTID ∧ (handedOut events).Pairwise (· < ·) ∧
    ∀ g ∈ handedOut events, s.mgr.lastLiveGTID < g ∧ g ≤ t.mgr.lastLiveGTID)
    ⟨inv, le_rfl, by simp [handedOut], by simp [handedOut]⟩ ?_).2.2
  rintro past a e b - ⟨invA, up, pairwise, bounds⟩ step
  refine ⟨primaryInv_step invA step, ?_⟩
  obtain ⟨rfl, -, -, last, -, -⟩ | ⟨g, -, rfl, -, -, last, -, -⟩ | ⟨rfl, rfl⟩ :=
    primaryStep_cases invA step
  · have new := a.mgr.lastLive_lt_nextGTID
    have split : handedOut (past ++ [.handedOut a.mgr.nextGTID]) =
        handedOut past ++ [a.mgr.nextGTID] := by simp [handedOut]
    rw [split, last, List.pairwise_append]
    refine ⟨up.trans new.le, ⟨pairwise, List.pairwise_singleton _ _, ?_⟩, ?_⟩
    · intro g hg g' hg'
      rw [List.mem_singleton.mp hg']
      exact (bounds g hg).2.trans_lt new
    · intro g hg
      obtain hg | hg := List.mem_append.mp hg
      · exact ⟨(bounds g hg).1, (bounds g hg).2.trans new.le⟩
      · rw [List.mem_singleton.mp hg]
        exact ⟨up.trans_lt new, le_rfl⟩
  · have same : handedOut (past ++ [.done g]) = handedOut past := by simp [handedOut]
    rw [same, last]
    exact ⟨up, pairwise, bounds⟩
  · have same : handedOut (past ++ [.readMinLive b.mgr.minLiveGTID]) = handedOut past := by
      simp [handedOut]
    rw [same]
    exact ⟨up, pairwise, bounds⟩

section Episode

variable {s t : PrimaryState} {events : List PrimaryEvent}

theorem primaryInv_run (inv : PrimaryInv s) (run : Run PrimaryStep s events t) : PrimaryInv t :=
  run.invariant (fun _ _ _ => primaryInv_step) inv

theorem minLive_le_run (inv : PrimaryInv s) (run : Run PrimaryStep s events t) :
    s.mgr.minLiveGTID ≤ t.mgr.minLiveGTID :=
  run.monotone (f := fun s => s.mgr.minLiveGTID) (fun _ _ _ => primaryInv_step)
    (fun _ _ _ => minLive_le_step) inv

/-- A GTID that a call of the run mentions, as handed out or as done, was not
below the minimum when the run began. -/
theorem minLive_le_of_mem (inv : PrimaryInv s) (run : Run PrimaryStep s events t)
    (mem : .handedOut g ∈ events ∨ .done g ∈ events) : s.mgr.minLiveGTID ≤ g := by
  have called : ∀ {e}, e ∈ events → ∃ a b, s.mgr.minLiveGTID ≤ a.mgr.minLiveGTID ∧
      PrimaryInv a ∧ PrimaryStep a e b := by
    intro e mem
    obtain ⟨before, after, rfl⟩ := List.append_of_mem mem
    obtain ⟨a, left, right⟩ := Run.append_iff.mp run
    obtain ⟨b, step, -⟩ := Run.cons_iff.mp right
    exact ⟨a, b, minLive_le_run inv left, primaryInv_run inv left, step⟩
  obtain mem | mem := mem <;> obtain ⟨a, b, le, invA, step⟩ := called mem
  · have handed : g ∈ b.outstanding := by
      cases step
      exact Finset.mem_insert_self _ _
    exact le.trans ((minLive_le_step invA step).trans
      ((primaryInv_step invA step).minLive_le handed))
  · have held : g ∈ a.outstanding := by
      cases step
      assumption
    exact le.trans (invA.minLive_le held)

end Episode

/-- A primary episode, at any moment of it. The manager is only asked to have been
reset; that it passed `verifyReadyToBecomePrimary` before is not needed.

* the GTIDs handed out so far are strictly increasing;
* from here on the minimum never decreases;
* it is at most every GTID outstanding now and every GTID handed out later, and
  what a reader of the minimum was told is at most every GTID reported done after
  the read, so a cursor that stops below it skips no entry;
* with nothing outstanding the manager is ready again;
* no assertion of a call fails. -/
theorem primary_episode {m₀ m : GTIDManager} (reset : m₀.resetManager = some m)
    {events : List PrimaryEvent} {s : PrimaryState}
    (run : Run PrimaryStep ⟨m, ∅⟩ events s) :
    (m₀.lastLiveGTID :: handedOut events).Pairwise (· < ·) ∧
    (∀ more t, Run PrimaryStep s more t → s.mgr.minLiveGTID ≤ t.mgr.minLiveGTID) ∧
    (∀ g ∈ s.outstanding, s.mgr.minLiveGTID ≤ g) ∧
    (∀ more t, Run PrimaryStep s more t → ∀ g ∈ handedOut more, s.mgr.minLiveGTID ≤ g) ∧
    (∀ seen more t, PrimaryStep s (.readMinLive seen) s → Run PrimaryStep s more t →
      ∀ g, .done g ∈ more → seen ≤ g) ∧
    (s.outstanding = ∅ → s.mgr.verifyReadyToBecomePrimary = some ()) ∧
    (∀ now, (s.mgr.getGTIDForPrimary now).isSome) ∧
    ∀ g ∈ s.outstanding, (s.mgr.noteLiveGTIDDone g).isSome := by
  have start := primaryInv_reset reset
  have inv := primaryInv_run start run
  obtain ⟨increasing, bounds⟩ := handedOut_sorted start run
  have same : m.lastLiveGTID = m₀.lastLiveGTID := by
    simp only [GTIDManager.resetManager, Option.bind_eq_bind, check_bind_eq_some,
      Option.pure_def, Option.some.injEq] at reset
    obtain ⟨-, rfl⟩ := reset
    rfl
  refine ⟨?_, fun more t => minLive_le_run inv, fun g => inv.minLive_le, ?_, ?_, ?_,
    primary_calls_succeed inv⟩
  · refine List.pairwise_cons.mpr ⟨fun g hg => ?_, increasing⟩
    exact same ▸ (bounds g hg).1
  · intro more t later g hg
    exact minLive_le_of_mem inv later (.inl (mem_handedOut.mp hg))
  · intro seen more t read later g done
    cases read
    exact minLive_le_of_mem inv later (.inr done)
  · intro none
    obtain ⟨min, unapplied⟩ := inv.idle none
    refine GTIDManager.verifyReadyToBecomePrimary_iff.mpr ⟨inv.last_eq, unapplied.symm, ?_⟩
    rw [min]
    exact GTID.lt_inc _

/-- A manager that has settled at `(1, 5)`. -/
def settledManager : GTIDManager where
  selfID := 3
  incPrimary := false
  lastLiveGTID := ⟨1, 5⟩
  lastUnappliedGTID := ⟨1, 5⟩
  minLiveGTID := ⟨1, 6⟩
  minUnappliedGTID := ⟨1, 6⟩
  liveGTIDs := ∅
  unappliedGTIDs := ∅
  lastTimestamp := 100
  lastHash := 17

/-- Two GTIDs are handed out and the later one finishes first: the minimum waits
for `(2, 0)`. -/
theorem primary_episode_out_of_order :
    settledManager.verifyReadyToBecomePrimary = some () ∧
    ∃ m s, settledManager.resetManager = some m ∧
      Run PrimaryStep ⟨m, ∅⟩ [.handedOut ⟨2, 0⟩, .handedOut ⟨2, 1⟩, .done ⟨2, 1⟩] s ∧
      s.outstanding = {⟨2, 0⟩} ∧ s.mgr.minLiveGTID = ⟨2, 0⟩ ∧
      ∀ more t, Run PrimaryStep s more t → ∀ g ∈ handedOut more, (⟨2, 0⟩ : GTID) ≤ g := by
  have reset : settledManager.resetManager = some { settledManager with incPrimary := true } := rfl
  have run : Run PrimaryStep ⟨{ settledManager with incPrimary := true }, ∅⟩
      [.handedOut ⟨2, 0⟩, .handedOut ⟨2, 1⟩, .done ⟨2, 1⟩] _ :=
    .cons (.get 101 rfl) (.cons (.get 102 rfl) (.cons (.done ⟨2, 1⟩ (by decide) rfl) (.nil _)))
  exact ⟨by decide, _, _, reset, run, by decide, by decide, (primary_episode reset run).2.2.2.1⟩

end TokuMX.Repl
