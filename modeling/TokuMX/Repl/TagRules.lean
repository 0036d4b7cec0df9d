import Mathlib.Algebra.GroupWithZero.Nat
import Mathlib.Data.List.Dedup
import TokuMX.Lib.Checked
import TokuMX.Lib.Quorum
import TokuMX.Lib.Runs
import TokuMX.Repl.GTID

/-!
`getLastErrorModes`: write concern by tags (`db/repl/rs_config.cpp`,
`SlaveTracking::opReplicatedEnough` in `db/repl_block.cpp`).

Members with the same value of a tag form a subgroup. A clause asks for a number of
subgroups of one tag, a rule for all of its clauses. Reports of members raise the last GTID
of their subgroups; a clause that hears of a new GTID takes it over if enough of its
subgroups have reached it, and a rule is at the least of its clauses.

* `rule_satisfied_only_if` — in every run a mode is only reported as satisfied if enough
  subgroups of every clause have reached the GTID.
* `tagRules_exact` — if no report jumps over the position of another subgroup (`Calm`),
  every rule is exactly at the least of its clauses' target-th largest positions.
* `tagRules_behind` — a clause only tries the GTID just reported, so a subgroup that comes to
  7 while another one is at 5 leaves a clause of both where it was.

Subgroups that contain the primary itself count as having reached everything and are not
updated. The subgroups of a member are updated in the order of the rules; the source goes
by the addresses of the subgroups, which makes no difference: a clause only looks at
subgroups of its own tag, and a member is in one of them. Sequence numbers do not wrap around.
-/

namespace TokuMX.Repl

open TokuMX.Lib

/-- `GTID()`. -/
def GTID.initial : GTID := ⟨0, 0⟩

/-- `GTID_MAX`. -/
def GTID.max : GTID := ⟨2 ^ 64 - 1, 2 ^ 64 - 1⟩

/-- `ReplSetConfig::MemberCfg`, as far as tags go: a `map<string,string>`. -/
structure MemberCfg where
  tags : String → Option String

/-- `ReplSetConfig`: the members, and the one whose `isSelf()` holds. -/
structure ReplSetConfig where
  members : List MemberCfg
  self : Option Nat

namespace ReplSetConfig

variable (cfg : ReplSetConfig)

/-- The value a member has for a tag. -/
def tag (i : Nat) (label : String) : Option String := do (← cfg.members[i]?).tags label

/-- The subgroups that `_populateTagMap` makes for a tag, by their values. -/
def values (label : String) : List String :=
  ((List.range cfg.members.length).filterMap fun i => cfg.tag i label).dedup

/-- The members of a subgroup. -/
def subgroup (label value : String) : List Nat :=
  (List.range cfg.members.length).filter fun i => cfg.tag i label = some value

/-- `isSelf()`. -/
def isSelf (i : Nat) : Bool := cfg.self = some i

/-- `foundMe`: the primary is in the subgroup. -/
def foundMe (label value : String) : Bool := (cfg.subgroup label value).any cfg.isSelf

end ReplSetConfig

/-- `TagClause`. Its subgroups are those of the tag `name`. -/
structure TagClause where
  name : String
  target : Nat
  actualTarget : Int
  last : GTID
deriving DecidableEq

/-- `TagRule`. -/
structure TagRule where
  clauses : List TagClause
  last : GTID
deriving DecidableEq

/-! ### Parsing the modes -/

/-- What `parseRules` rejects, with the codes of its assertions. -/
inductive RuleError where
  /-- 14046: "getLastErrorMode rules must be objects" -/
  | notObject (mode : String)
  /-- 14829: "getLastErrorMode criteria must be numeric" -/
  | notNumeric (criteria : String)
  /-- 14828: "getLastErrorMode criteria must be greater than 0" -/
  | notPositive (criteria : String) (value : Int)
  /-- 14831: "mode ... requires `value` tagged with `criteria`, but only `numGroups` with
  this tag were found" -/
  | tooFewGroups (criteria : String) (value : Int) (numGroups : Nat)
deriving DecidableEq

/-- A rule of `getLastErrorModes`: its name, and its criteria if it is an object. A criterion
has a number if it is numeric. -/
abbrev ModeElement := String × Option (List (String × Option Int))

/-- One clause. -/
def parseClause (cfg : ReplSetConfig) (criteria : String) (value : Option Int) :
    Except RuleError TagClause :=
  match value with
  | none => .error (.notNumeric criteria)
  | some value =>
    let numGroups := (cfg.values criteria).length
    if value ≤ 0 then .error (.notPositive criteria value)
    else if numGroups < value then .error (.tooFewGroups criteria value numGroups)
    else
      let mine := ((cfg.values criteria).map fun v =>
        (cfg.subgroup criteria v).countP cfg.isSelf).sum
      let actualTarget := value - mine
      .ok ⟨criteria, value.toNat, actualTarget, if actualTarget = 0 then .max else .initial⟩

/-- One rule: it is trivially true if all of its clauses are. -/
def parseRule (cfg : ReplSetConfig) : ModeElement → Except RuleError (String × TagRule)
  | (mode, none) => .error (.notObject mode)
  | (mode, some criteria) => do
    let clauses ← criteria.mapM fun c => parseClause cfg c.1 c.2
    let primaryOnly := clauses.countP fun c => c.actualTarget = 0
    return (mode, ⟨clauses, if primaryOnly = clauses.length then .max else .initial⟩)

/-- `ReplSetConfig::parseRules`. Rules of one name are all kept; the last one is looked up. -/
def parseRules (cfg : ReplSetConfig) (modes : List ModeElement) :
    Except RuleError (List (String × TagRule)) :=
  modes.mapM (parseRule cfg)

/-! ### Reports -/

/-- The last GTID of every subgroup, by tag and value, and the rules. -/
structure TagState where
  subgroupLast : String → String → GTID
  rules : List (String × TagRule)

/-- What `TagRule::updateLast` sets: the clauses are and-ed. -/
def earliest (gtid : GTID) (clauses : List TagClause) : GTID :=
  clauses.foldl (fun earliest c => if GTID.cmp c.last earliest < 0 then c.last else earliest) gtid

/-- Whether `TagClause::updateLast` takes the GTID over, `count` subgroups having reached
it. -/
def TagClause.takes (c : TagClause) (gtid : GTID) (count : Nat) : Bool :=
  GTID.cmp c.last gtid < 0 ∧ c.actualTarget ≤ count

/-- The clauses of one rule that belong to the subgroup's tag hear of the GTID, one after the
other; each that takes it over updates the rule. -/
def updateClauses (label : String) (gtid : GTID) (count : Nat) (before : List TagClause)
    (last : GTID) : List TagClause → TagRule
  | [] => ⟨before, last⟩
  | c :: rest =>
    if c.name = label ∧ c.takes gtid count then
      let c := { c with last := gtid }
      updateClauses label gtid count (before ++ [c]) (earliest gtid (before ++ c :: rest)) rest
    else updateClauses label gtid count (before ++ [c]) last rest

/-- How many subgroups of a tag have reached the GTID. -/
def countReached (cfg : ReplSetConfig) (subgroupLast : String → String → GTID) (label : String)
    (gtid : GTID) : Nat :=
  (cfg.values label).countP fun v => 0 ≤ GTID.cmp (subgroupLast label v) gtid

/-- `TagSubgroup::updateLast`. -/
def TagState.updateSubgroup (cfg : ReplSetConfig) (gtid : GTID) (s : TagState)
    (group : String × String) : TagState :=
  let (label, value) := group
  if GTID.cmp (s.subgroupLast label value) gtid < 0 then
    let subgroupLast := Function.update s.subgroupLast label
      (Function.update (s.subgroupLast label) value gtid)
    let count := countReached cfg subgroupLast label gtid
    ⟨subgroupLast, s.rules.map fun r =>
      (r.1, updateClauses label gtid count [] r.2.last r.2.clauses)⟩
  else s

/-- The tags the rules ask for. -/
def labels (rules : List (String × TagRule)) : List String :=
  (rules.flatMap fun r => r.2.clauses.map TagClause.name).dedup

/-- `MemberCfg::groups`: subgroups of the tags asked for, without those the primary is in. -/
def groups (cfg : ReplSetConfig) (rules : List (String × TagRule)) (i : Nat) :
    List (String × String) :=
  (labels rules).filterMap fun label =>
    match cfg.tag i label with
    | some value => if cfg.foundMe label value then none else some (label, value)
    | none => none

/-- A member reports its progress. GTIDs are 64-bit. -/
structure Report where
  member : Nat
  gtid : GTID
  bounded : gtid ≤ .max

/-- `MemberCfg::updateGroups`. -/
def TagState.updateGroups (cfg : ReplSetConfig) (s : TagState) (r : Report) : TagState :=
  (groups cfg s.rules r.member).foldl (TagState.updateSubgroup cfg r.gtid) s

/-- The state before any report. -/
def TagState.start (rules : List (String × TagRule)) : TagState := ⟨fun _ _ => .initial, rules⟩

/-- The part of `SlaveTracking::opReplicatedEnough` for a mode; `none` is an unrecognized
mode (14830). -/
def TagState.opReplicatedEnough (s : TagState) (gtid : GTID) (mode : String) : Option Bool := do
  let rule ← s.rules.reverse.lookup mode
  return GTID.cmp gtid rule.last ≤ 0

/-! ### The position of a subgroup -/

section Positions

variable (cfg : ReplSetConfig)

/-- Where a subgroup stands, the primary being up to date. -/
def position (label : String) (lasts : String → GTID) (value : String) : GTID :=
  if cfg.foundMe label value then .max else lasts value

/-- The largest GTID that a member of the subgroup has reported. -/
def reported (reports : List Report) (label value : String) : GTID :=
  position cfg label (fun value =>
    ((reports.filter fun r => cfg.tag r.member label = some value).map Report.gtid).foldl max
      .initial) value

/-- What is known of the subgroups and the clauses of one tag. -/
structure Standing where
  lasts : String → GTID
  clauses : List TagClause

/-- The part of the state that belongs to a tag. -/
def TagState.standing (s : TagState) (label : String) : Standing :=
  ⟨s.subgroupLast label,
    (s.rules.flatMap fun r => r.2.clauses).filter fun c => c.name = label⟩

/-- The subgroup of a tag that a report of a member updates. -/
def groupOf (i : Nat) (label : String) : Option String :=
  (cfg.tag i label).filter fun value => !cfg.foundMe label value

/-- A report is calm for the clauses of a tag: where it raises the member's subgroup, the
subgroup does not jump over others. -/
def Standing.Calm (label : String) (st : Standing) (r : Report) : Prop :=
  ∀ value ∈ groupOf cfg r.member label, st.lasts value < r.gtid →
    ∀ c ∈ st.clauses, c.last < r.gtid →
      Unhurried (cfg.values label) (position cfg label st.lasts) c.target c.last value r.gtid

/-- A report none of whose subgroups jumps over the position of others: if with the
reporting subgroup enough subgroups are ahead of a clause, enough of them have reached the
GTID reported. -/
def Calm (s : TagState) (r : Report) : Prop :=
  ∀ label ∈ labels s.rules, (s.standing label).Calm cfg label r

instance (label : String) (st : Standing) (r : Report) : Decidable (st.Calm cfg label r) :=
  inferInstanceAs (Decidable (∀ value ∈ groupOf cfg r.member label, _ → ∀ c ∈ st.clauses, _ → _))

instance (s : TagState) (r : Report) : Decidable (Calm cfg s r) :=
  inferInstanceAs (Decidable (∀ label ∈ labels s.rules, _))

/-- A calm report. -/
def CalmReport (s : TagState) (r : Report) (s' : TagState) : Prop :=
  Calm cfg s r ∧ s' = s.updateGroups cfg r

/-- Any report. -/
def AnyReport (s : TagState) (r : Report) (s' : TagState) : Prop := s' = s.updateGroups cfg r

end Positions

open GTID

theorem GTID.initial_le (g : GTID) : initial ≤ g := by
  rw [le_iff]
  simp only [initial]
  omega

open TagClause

open TagState

open Standing

section Updates

variable {cfg : ReplSetConfig} {label : String} {gtid : GTID} {count : Nat}

/-! ### One subgroup -/

/-- A clause of the subgroup's tag after it has heard of the GTID. -/
def TagClause.heard (c : TagClause) (label : String) (gtid : GTID) (count : Nat) : TagClause :=
  if c.name = label ∧ c.takes gtid count then { c with last := gtid } else c

theorem earliest_eq (gtid : GTID) (clauses : List TagClause) :
    earliest gtid clauses = lowest gtid (clauses.map last) := by
  refine eq_of_forall_le_iff fun g => ?_
  rw [le_lowest, List.forall_mem_map]
  induction clauses generalizing gtid with
  | nil => simp [earliest]
  | cons c clauses ih =>
    change g ≤ earliest (if GTID.cmp c.last gtid < 0 then c.last else gtid) clauses ↔ _
    rw [ih, List.forall_mem_cons]
    split_ifs with below
    · have := (cmp_lt_zero.mp below).le
      constructor
      · rintro ⟨first, rest⟩
        exact ⟨first.trans this, first, rest⟩
      · rintro ⟨-, first, rest⟩
        exact ⟨first, rest⟩
    · have := not_lt.mp (mt cmp_lt_zero.mpr below)
      constructor
      · rintro ⟨first, rest⟩
        exact ⟨first, first.trans this, rest⟩
      · rintro ⟨first, -, rest⟩
        exact ⟨first, rest⟩

/-- A rule is at the least of its clauses. -/
def TagRule.AtLeast (r : TagRule) : Prop := r.last = lowest .max (r.clauses.map TagClause.last)

theorem updateClauses_eq (bounded : gtid ≤ .max) {before rest : List TagClause} {last : GTID}
    (least : last = lowest .max ((before ++ rest).map TagClause.last)) :
    (updateClauses label gtid count before last rest).clauses =
        before ++ rest.map (TagClause.heard · label gtid count) ∧
      (updateClauses label gtid count before last rest).AtLeast := by
  induction rest generalizing before last with
  | nil => exact ⟨by simp [updateClauses], by simpa [updateClauses, TagRule.AtLeast] using least⟩
  | cons c rest ih =>
    rw [updateClauses]
    split_ifs with hears
    · have least' : earliest gtid (before ++ { c with last := gtid } :: rest) =
          lowest .max (((before ++ [{ c with last := gtid }]) ++ rest).map TagClause.last) := by
        rw [earliest_eq, List.append_assoc, List.singleton_append]
        refine eq_of_forall_le_iff fun g => ?_
        rw [le_lowest, le_lowest]
        constructor
        · rintro ⟨first, all⟩
          exact ⟨first.trans bounded, all⟩
        · rintro ⟨-, all⟩
          exact ⟨all gtid (by simp), all⟩
      obtain ⟨clauses, atLeast⟩ := ih least'
      refine ⟨?_, atLeast⟩
      rw [clauses, List.map_cons, TagClause.heard, if_pos hears, List.append_assoc,
        List.singleton_append]
    · have least' : last = lowest .max (((before ++ [c]) ++ rest).map TagClause.last) := by
        rwa [List.append_assoc, List.singleton_append]
      obtain ⟨clauses, atLeast⟩ := ih least'
      refine ⟨?_, atLeast⟩
      rw [clauses, List.map_cons, TagClause.heard, if_neg hears, List.append_assoc,
        List.singleton_append]

/-- The tag's part of the state after a report has reached a subgroup. -/
def Standing.update (cfg : ReplSetConfig) (label : String) (gtid : GTID) (value : String)
    (st : Standing) : Standing :=
  if st.lasts value < gtid then
    let lasts := Function.update st.lasts value gtid
    let count := (cfg.values label).countP fun v => gtid ≤ lasts v
    ⟨lasts, st.clauses.map fun c => c.heard label gtid count⟩
  else st

theorem TagClause.heard_name (c : TagClause) : (c.heard label gtid count).name = c.name := by
  unfold heard
  split_ifs <;> rfl

theorem countReached_eq (cfg : ReplSetConfig) (lasts : String → String → GTID) (label : String)
    (gtid : GTID) :
    countReached cfg lasts label gtid =
      (cfg.values label).countP fun v => gtid ≤ lasts label v := by
  simp only [countReached, cmp_nonneg]

/-- All rules are at the least of their clauses. -/
def TagState.AtLeast (s : TagState) : Prop := ∀ r ∈ s.rules, r.2.AtLeast

variable {s : TagState}

theorem updateSubgroup_spec (bounded : gtid ≤ .max) (least : s.AtLeast) (value : String) :
    (s.updateSubgroup cfg gtid (label, value)).AtLeast ∧
      ∀ l, (s.updateSubgroup cfg gtid (label, value)).standing l =
        if l = label then (s.standing l).update cfg label gtid value else s.standing l := by
  by_cases raised : GTID.cmp (s.subgroupLast label value) gtid < 0
  · have later := cmp_lt_zero.mp raised
    simp only [updateSubgroup, if_pos raised]
    have rule : ∀ r ∈ s.rules, ∀ count,
        (updateClauses label gtid count [] r.2.last r.2.clauses).clauses =
            r.2.clauses.map (heard · label gtid count) ∧
          (updateClauses label gtid count [] r.2.last r.2.clauses).AtLeast :=
      fun r mem count => updateClauses_eq bounded (least r mem)
    refine ⟨?_, fun l => ?_⟩
    · intro r mem
      obtain ⟨r', mem', rfl⟩ := List.mem_map.mp mem
      exact (rule r' mem' _).2
    · have heard : ∀ count, ((s.rules.map fun r => (r.1, updateClauses label gtid count [] r.2.last
          r.2.clauses)).flatMap fun r => r.2.clauses) =
            (s.rules.flatMap fun r => r.2.clauses).map (heard · label gtid count) := by
        intro count
        rw [List.flatMap_map, List.map_flatMap]
        exact List.flatMap_congr fun r mem => (rule r mem count).1
      have kept : ∀ (count : Nat) (clauses : List TagClause),
          (clauses.map (TagClause.heard · label gtid count)).filter (fun c => c.name = l) =
            (clauses.filter fun c => c.name = l).map (TagClause.heard · label gtid count) := by
        intro count clauses
        rw [List.filter_map]
        congr 1
        refine List.filter_congr fun c _ => ?_
        simp [heard_name]
      simp only [standing, heard, kept, countReached_eq, Function.update_self]
      split_ifs with same
      · subst same
        simp [update, later]
      · rw [Function.update_of_ne same]
        congr 1
        refine (List.map_congr_left fun c mem => ?_).trans (List.map_id _)
        have name : c.name = l := of_decide_eq_true (List.mem_filter.mp mem).2
        rw [TagClause.heard, if_neg]
        · rfl
        · rintro ⟨other, -⟩
          exact same (name.symm.trans other)
  · have still := mt cmp_lt_zero.mpr raised
    simp only [updateSubgroup, if_neg raised]
    refine ⟨least, fun l => ?_⟩
    split_ifs with same
    · subst same
      simp [update, standing, still]
    · rfl

/-! ### One report -/

theorem groups_eq (cfg : ReplSetConfig) (rules : List (String × TagRule)) (i : Nat) :
    groups cfg rules i = (labels rules).filterMap fun label =>
      (groupOf cfg i label).map fun value => (label, value) := by
  refine List.filterMap_congr fun label _ => ?_
  unfold groupOf
  cases cfg.tag i label with
  | none => rfl
  | some value => cases mine : cfg.foundMe label value <;> simp [mine]

/-- What a report does to the clauses and subgroups of one tag. -/
def Standing.hear (cfg : ReplSetConfig) (label : String) (r : Report) (st : Standing) : Standing :=
  match groupOf cfg r.member label with
  | some value => st.update cfg label r.gtid value
  | none => st

theorem foldl_standing (bounded : gtid ≤ .max) (least : s.AtLeast) (i : Nat) {ls : List String}
    (distinct : ls.Nodup) :
    let s' := (ls.filterMap fun label => (groupOf cfg i label).map fun value =>
      (label, value)).foldl (updateSubgroup cfg gtid) s
    s'.AtLeast ∧ ∀ l, s'.standing l =
      if l ∈ ls then (s.standing l).hear cfg l ⟨i, gtid, bounded⟩ else s.standing l := by
  induction ls generalizing s with
  | nil => exact ⟨least, fun l => by simp⟩
  | cons label ls ih =>
    obtain ⟨fresh, distinct⟩ := List.nodup_cons.mp distinct
    rw [List.filterMap_cons]
    cases group : groupOf cfg i label with
    | none =>
      obtain ⟨least', rest⟩ := ih least distinct
      refine ⟨least', fun l => (rest l).trans ?_⟩
      by_cases same : l = label
      · subst same
        simp [fresh, hear, group]
      · simp [same]
    | some value =>
      obtain ⟨least₁, first⟩ := updateSubgroup_spec bounded least value
      obtain ⟨least', rest⟩ := ih least₁ distinct
      refine ⟨least', fun l => (rest l).trans ?_⟩
      rw [first]
      by_cases same : l = label
      · subst same
        simp [fresh, hear, group]
      · simp [same]

theorem updateGroups_spec (least : s.AtLeast) (r : Report) :
    (s.updateGroups cfg r).AtLeast ∧ ∀ l, (s.updateGroups cfg r).standing l =
      if l ∈ labels s.rules then (s.standing l).hear cfg l r else s.standing l := by
  rw [updateGroups, groups_eq]
  exact foldl_standing r.bounded least r.member (List.nodup_dedup _)

end Updates

/-! ### What a clause knows -/

variable {i : Nat} {c : TagClause}

section Clauses

variable {cfg : ReplSetConfig} {label value : String} {gtid : GTID} {st : Standing}

/-- The number of subgroups of a tag that the primary is in. -/
def mineOf (cfg : ReplSetConfig) (label : String) : Nat :=
  (cfg.values label).countP (cfg.foundMe label)

/-- A clause as `parseRules` made it. -/
structure TagClause.Parsed (cfg : ReplSetConfig) (c : TagClause) : Prop where
  positive : 0 < c.target
  enough : c.target ≤ (cfg.values c.name).length
  actual : c.actualTarget = (c.target : Int) - mineOf cfg c.name

/-- Before any report a clause is at the start, unless the primary alone is enough. -/
def TagClause.Fresh (cfg : ReplSetConfig) (c : TagClause) : Prop :=
  c.Parsed cfg ∧ c.last = if c.actualTarget = 0 then .max else .initial

/-- The subgroups and clauses of a tag, whatever was reported. -/
structure Standing.Ok (cfg : ReplSetConfig) (label : String) (st : Standing) : Prop where
  mine : ∀ v, cfg.foundMe label v → st.lasts v = .initial
  clauses : ∀ c ∈ st.clauses, c.name = label ∧ c.Parsed cfg ∧
    Reached (cfg.values label) (position cfg label st.lasts) c.target c.last

/-- Every clause is as far as its subgroups allow. -/
def Standing.Tight (cfg : ReplSetConfig) (label : String) (st : Standing) : Prop :=
  ∀ c ∈ st.clauses, Lib.Tight (cfg.values label) (position cfg label st.lasts) c.target c.last

theorem mem_values (tagged : cfg.tag i label = some value) : value ∈ cfg.values label := by
  refine List.mem_dedup.mpr (List.mem_filterMap.mpr ⟨i, List.mem_range.mpr ?_, tagged⟩)
  by_contra outside
  simp [ReplSetConfig.tag, List.getElem?_eq_none (not_lt.mp outside)] at tagged

theorem nodup_values (cfg : ReplSetConfig) (label : String) : (cfg.values label).Nodup :=
  List.nodup_dedup _

variable {lasts : String → GTID}

theorem position_update (other : cfg.foundMe label value = false) :
    position cfg label (Function.update lasts value gtid) =
      Function.update (position cfg label lasts) value gtid := by
  funext v
  by_cases same : v = value
  · subst same
    simp [position, other]
  · simp [position, same]

/-- The subgroups of the primary have reached every GTID, the others are counted. -/
theorem reachedBy_position (mine : ∀ v, cfg.foundMe label v → lasts v = .initial)
    (later : .initial < gtid) (bounded : gtid ≤ .max) :
    reachedBy (cfg.values label) (position cfg label lasts) gtid =
      ((cfg.values label).countP fun v => gtid ≤ lasts v) + mineOf cfg label := by
  unfold reachedBy mineOf
  induction cfg.values label with
  | nil => rfl
  | cons v vs ih =>
    rw [List.countP_cons, List.countP_cons, List.countP_cons, ih]
    cases me : cfg.foundMe label v with
    | false => simp [position, me]; omega
    | true =>
      have low : ¬ gtid ≤ lasts v := by
        rw [mine v me]
        exact not_le.mpr later
      simp [position, me, bounded, low]
      omega

theorem takes_iff (parsed : c.Parsed cfg) (mine : ∀ v, cfg.foundMe c.name v → lasts v = .initial)
    (bounded : gtid ≤ .max) :
    c.takes gtid ((cfg.values c.name).countP fun v => gtid ≤ lasts v) ↔ c.last < gtid ∧
        c.target ≤ reachedBy (cfg.values c.name) (position cfg c.name lasts) gtid := by
  have actual := parsed.actual
  simp only [takes, decide_eq_true_eq, cmp_lt_zero]
  refine and_congr_right fun later => ?_
  rw [reachedBy_position mine ((initial_le _).trans_lt later) bounded]
  omega

/-- The clause after one of its subgroups has come to `gtid`, the subgroups being at
`positions`. -/
def TagClause.follow (cfg : ReplSetConfig) (positions : String → GTID) (gtid : GTID)
    (c : TagClause) : TagClause :=
  { c with last := Lib.follow (cfg.values c.name) positions c.target c.last gtid }

theorem heard_eq (parsed : c.Parsed cfg) (mine : ∀ v, cfg.foundMe c.name v → lasts v = .initial)
    (bounded : gtid ≤ .max) :
    c.heard c.name gtid ((cfg.values c.name).countP fun v => gtid ≤ lasts v) =
      c.follow cfg (position cfg c.name lasts) gtid := by
  unfold TagClause.heard TagClause.follow Lib.follow
  simp only [true_and, takes_iff parsed mine bounded]
  split_ifs <;> rfl

theorem Standing.Ok.mine_update (ok : st.Ok cfg label) (other : cfg.foundMe label value = false)
    (v : String) (me : cfg.foundMe label v) : Function.update st.lasts value gtid v = .initial := by
  rw [Function.update_of_ne, ok.mine v me]
  rintro rfl
  simp [other] at me

/-- A report that raises a subgroup. -/
theorem Standing.Ok.update_eq (ok : st.Ok cfg label) (bounded : gtid ≤ .max)
    (other : cfg.foundMe label value = false) (raised : st.lasts value < gtid) :
    st.update cfg label gtid value = ⟨Function.update st.lasts value gtid,
      st.clauses.map (follow cfg
        (Function.update (position cfg label st.lasts) value gtid) gtid)⟩ := by
  simp only [update, if_pos raised, ← position_update other]
  congr 1
  refine List.map_congr_left fun c mem => ?_
  obtain ⟨rfl, parsed, -⟩ := ok.clauses c mem
  exact heard_eq parsed (ok.mine_update other) bounded

theorem Standing.Ok.update (ok : st.Ok cfg label) (bounded : gtid ≤ .max)
    (mem : value ∈ cfg.values label) (other : cfg.foundMe label value = false) :
    (st.update cfg label gtid value).Ok cfg label := by
  by_cases raised : st.lasts value < gtid
  · have up : position cfg label st.lasts value ≤ gtid := by
      simpa [position, other] using raised.le
    rw [ok.update_eq bounded other raised]
    refine ⟨ok.mine_update other, ?_⟩
    intro _ heard
    obtain ⟨c, old, rfl⟩ := List.mem_map.mp heard
    obtain ⟨rfl, ⟨positive, enough, actual⟩, reached⟩ := ok.clauses c old
    refine ⟨rfl, ⟨positive, enough, actual⟩, ?_⟩
    rw [position_update other]
    exact reached.update (nodup_values cfg c.name) mem up
  · rwa [Standing.update, if_neg raised]

theorem Standing.Tight.update (ok : st.Ok cfg label) (tight : st.Tight cfg label)
    (bounded : gtid ≤ .max) (mem : value ∈ cfg.values label)
    (other : cfg.foundMe label value = false)
    (calm : st.lasts value < gtid → ∀ c ∈ st.clauses, c.last < gtid →
      Unhurried (cfg.values label) (position cfg label st.lasts) c.target c.last value gtid) :
    (st.update cfg label gtid value).Tight cfg label := by
  by_cases raised : st.lasts value < gtid
  · rw [ok.update_eq bounded other raised]
    intro _ heard
    obtain ⟨c, old, rfl⟩ := List.mem_map.mp heard
    obtain rfl := (ok.clauses c old).1
    rw [position_update other]
    exact (tight c old).update (nodup_values cfg c.name) mem (calm raised c old)
  · rwa [Standing.update, if_neg raised]

theorem mem_groupOf (group : groupOf cfg i label = some value) :
    cfg.tag i label = some value ∧ cfg.foundMe label value = false := by
  obtain ⟨tagged, other⟩ := Option.filter_eq_some_iff.mp group
  exact ⟨tagged, by simpa using other⟩

theorem Standing.Ok.hear (ok : st.Ok cfg label) (r : Report) :
    (st.hear cfg label r).Ok cfg label := by
  unfold Standing.hear
  cases group : groupOf cfg r.member label with
  | none => exact ok
  | some value =>
    obtain ⟨tagged, other⟩ := mem_groupOf group
    exact ok.update r.bounded (mem_values tagged) other

theorem Standing.Tight.hear (ok : st.Ok cfg label) (tight : st.Tight cfg label) {r : Report}
    (calm : st.Calm cfg label r) : (st.hear cfg label r).Tight cfg label := by
  unfold Standing.hear
  cases group : groupOf cfg r.member label with
  | none => exact tight
  | some value =>
    obtain ⟨tagged, other⟩ := mem_groupOf group
    exact tight.update ok r.bounded (mem_values tagged) other (calm value group)

/-- The subgroups that are counted are at the greatest GTID reported. -/
theorem hear_lasts (r : Report) (other : cfg.foundMe label value = false) :
    (st.hear cfg label r).lasts value =
      if cfg.tag r.member label = some value then max (st.lasts value) r.gtid
      else st.lasts value := by
  have group : groupOf cfg r.member label = some value ↔ cfg.tag r.member label = some value := by
    simp [groupOf, Option.filter_eq_some_iff, other]
  unfold hear
  cases heard : groupOf cfg r.member label with
  | none => rw [if_neg (by rw [← group, heard]; simp)]
  | some value' =>
    by_cases same : value' = value
    · subst same
      rw [if_pos (group.mp heard)]
      simp only [update]
      split_ifs with raised
      · simp [max_eq_right raised.le]
      · rw [max_eq_left (not_lt.mp raised)]
    · rw [if_neg (by rw [← group, heard]; simpa using same)]
      simp only [update]
      split_ifs with raised
      · simp [Ne.symm same]
      · rfl

end Clauses

/-! ### Runs -/

section Runs

variable {cfg : ReplSetConfig} {modes : List ModeElement} {rules : List (String × TagRule)}
  {s : TagState} {reports : List Report}

/-- What every report keeps. -/
structure TagState.Ok (cfg : ReplSetConfig) (s : TagState) : Prop where
  least : s.AtLeast
  standing : ∀ label, (s.standing label).Ok cfg label

theorem TagState.Ok.updateGroups (ok : s.Ok cfg) (r : Report) : (s.updateGroups cfg r).Ok cfg := by
  obtain ⟨least, standing⟩ := updateGroups_spec ok.least r
  refine ⟨least, fun label => ?_⟩
  rw [standing]
  split_ifs
  · exact (ok.standing label).hear r
  · exact ok.standing label

theorem TagState.tight_updateGroups (ok : s.Ok cfg)
    (tight : ∀ label, (s.standing label).Tight cfg label) {r : Report} (calm : Calm cfg s r) :
    ∀ label, ((s.updateGroups cfg r).standing label).Tight cfg label := by
  obtain ⟨-, standing⟩ := updateGroups_spec ok.least r
  intro label
  rw [standing]
  split_ifs with asked
  · exact (tight label).hear (ok.standing label) (calm label asked)
  · exact tight label

/-! #### Before any report -/

theorem isSelf_unique {j : Nat} (left : cfg.isSelf i) (right : cfg.isSelf j) : i = j :=
  Option.some.inj ((of_decide_eq_true left).symm.trans (of_decide_eq_true right))

theorem countP_isSelf {label value : String} :
    (cfg.subgroup label value).countP cfg.isSelf = if cfg.foundMe label value then 1 else 0 := by
  have few : (cfg.subgroup label value).countP cfg.isSelf ≤ 1 :=
    countP_le_one (List.nodup_range.filter _) fun i _ j _ => isSelf_unique
  have some : cfg.foundMe label value ↔ 0 < (cfg.subgroup label value).countP cfg.isSelf := by
    rw [List.countP_pos_iff]
    exact List.any_eq_true
  split_ifs with me
  · have := some.mp me
    omega
  · have := mt some.mpr me
    omega

theorem mineOf_le_one (cfg : ReplSetConfig) (label : String) : mineOf cfg label ≤ 1 := by
  refine countP_le_one (nodup_values cfg label) fun v _ w _ left right => ?_
  obtain ⟨i, inV, selfV⟩ := List.any_eq_true.mp left
  obtain ⟨j, inW, selfW⟩ := List.any_eq_true.mp right
  obtain rfl := isSelf_unique selfV selfW
  have tagV : cfg.tag i label = some v := of_decide_eq_true (List.mem_filter.mp inV).2
  have tagW : cfg.tag i label = some w := of_decide_eq_true (List.mem_filter.mp inW).2
  exact Option.some.inj (tagV.symm.trans tagW)

theorem parseClause_eq_ok {criteria : String} {value : Option Int}
    (parsed : parseClause cfg criteria value = .ok c) : c.Fresh cfg := by
  have mine : ((cfg.values criteria).map fun v =>
      (cfg.subgroup criteria v).countP cfg.isSelf).sum = mineOf cfg criteria := by
    simp only [countP_isSelf, mineOf]
    induction cfg.values criteria with
    | nil => rfl
    | cons v vs ih => rw [List.map_cons, List.sum_cons, ih, List.countP_cons, Nat.add_comm]
  cases value with
  | none => cases parsed
  | some value =>
    simp only [parseClause, mine] at parsed
    split_ifs at parsed with nonpositive few
    all_goals
      obtain rfl := Except.ok.inj parsed
      refine ⟨⟨?_, ?_, ?_⟩, by simp_all⟩ <;> simp only <;> omega

theorem parseRules_eq_ok (parsed : parseRules cfg modes = .ok rules) :
    ∀ r ∈ rules, r.2.AtLeast ∧ ∀ c ∈ r.2.clauses, c.Fresh cfg := by
  intro r mem
  obtain ⟨⟨mode, criteria⟩, -, rule⟩ := mem_of_mapM parsed mem
  cases criteria with
  | none => cases rule
  | some criteria =>
    obtain ⟨clauses, made, same⟩ := except_bind_eq_ok.mp rule
    obtain rfl := Except.ok.inj same
    have each : ∀ c ∈ clauses, c.Fresh cfg := by
      intro c mem
      obtain ⟨_, -, clause⟩ := mem_of_mapM made mem
      exact parseClause_eq_ok clause
    refine ⟨?_, each⟩
    refine eq_of_forall_le_iff fun g => ?_
    rw [le_lowest, List.forall_mem_map]
    simp only [List.countP_eq_length]
    split_ifs with trivial'
    · refine ⟨fun low => ⟨low, fun c mem => ?_⟩, fun all => all.1⟩
      rwa [(each c mem).2, if_pos (of_decide_eq_true (trivial' c mem))]
    · simp only [not_forall] at trivial'
      obtain ⟨c, mem, open'⟩ := trivial'
      refine ⟨fun low => ?_, fun all => ?_⟩
      · exact ⟨low.trans (initial_le _), fun _ _ => low.trans (initial_le _)⟩
      · have low := all.2 c mem
        rwa [(each c mem).2, if_neg (by simpa using open')] at low

theorem start_clause (fresh : c.Fresh cfg) :
    Reached (cfg.values c.name) (position cfg c.name fun _ => .initial) c.target c.last ∧
      Tight (cfg.values c.name) (position cfg c.name fun _ => .initial) c.target c.last := by
  obtain ⟨⟨positive, enough, actual⟩, last⟩ := fresh
  have few := mineOf_le_one cfg c.name
  split_ifs at last with alone
  · refine ⟨?_, fun g above => ?_⟩
    · have mine : mineOf cfg c.name ≤
          reachedBy (cfg.values c.name) (position cfg c.name fun _ => .initial) c.last :=
        List.countP_mono_left fun v _ me => by simp [position, me, last]
      unfold Reached
      omega
    · have none : reachedBy (cfg.values c.name) (position cfg c.name fun _ => .initial) g = 0 := by
        refine List.countP_eq_zero.mpr fun v _ high => ?_
        have low : position cfg c.name (fun _ => .initial) v ≤ .max := by
          unfold position
          split_ifs
          · exact le_rfl
          · exact initial_le _
        exact absurd (low.trans_lt (last ▸ above)) (not_lt.mpr (of_decide_eq_true high))
      omega
  · refine ⟨?_, fun g above => ?_⟩
    · have all : reachedBy (cfg.values c.name) (position cfg c.name fun _ => .initial) c.last =
          (cfg.values c.name).length :=
        List.countP_eq_length.mpr fun v _ => decide_eq_true (last.le.trans (initial_le _))
      exact enough.trans all.ge
    · have mine : reachedBy (cfg.values c.name) (position cfg c.name fun _ => .initial) g ≤
          mineOf cfg c.name := by
        refine List.countP_mono_left fun v _ high => ?_
        by_contra other
        have low := of_decide_eq_true high
        rw [position, if_neg other] at low
        exact absurd (last ▸ above) (not_lt.mpr low)
      omega

theorem start_ok (parsed : parseRules cfg modes = .ok rules) :
    (start rules).Ok cfg ∧ ∀ label, ((start rules).standing label).Tight cfg label := by
  have rule := parseRules_eq_ok parsed
  have clause : ∀ label, ∀ c ∈ ((start rules).standing label).clauses,
      c.name = label ∧ c.Fresh cfg := by
    intro label c mem
    obtain ⟨mem, name⟩ := List.mem_filter.mp mem
    obtain ⟨r, mem, inRule⟩ := List.mem_flatMap.mp mem
    exact ⟨of_decide_eq_true name, (rule r mem).2 c inRule⟩
  refine ⟨⟨fun r mem => (rule r mem).1, fun label => ⟨fun _ _ => rfl, fun c mem => ?_⟩⟩,
    fun label c mem => ?_⟩ <;> obtain ⟨rfl, fresh⟩ := clause label c mem
  · exact ⟨rfl, fresh.1, (start_clause fresh).1⟩
  · exact (start_clause fresh).2

/-! #### After any reports -/

theorem mem_labels {label : String} :
    label ∈ labels s.rules ↔ (s.standing label).clauses ≠ [] := by
  simp only [labels, List.mem_dedup, List.mem_flatMap, List.mem_map, standing, ne_eq,
    List.filter_eq_nil_iff, not_forall, decide_eq_true_eq, not_not, exists_prop]
  constructor
  · rintro ⟨r, mem, c, inRule, name⟩
    exact ⟨c, ⟨r, mem, inRule⟩, name⟩
  · rintro ⟨c, ⟨r, mem, inRule⟩, name⟩
    exact ⟨r, mem, c, inRule, name⟩

/-- What the reports leave behind: the subgroups asked for are where their members are. -/
structure Followed (cfg : ReplSetConfig) (reports : List Report) (s : TagState) : Prop where
  ok : s.Ok cfg
  positions : ∀ label ∈ labels s.rules,
    position cfg label (s.standing label).lasts = reported cfg reports label

theorem Followed.step (followed : Followed cfg reports s) (r : Report) :
    Followed cfg (reports ++ [r]) (s.updateGroups cfg r) := by
  refine ⟨followed.ok.updateGroups r, fun label asked => ?_⟩
  have standing : (s.updateGroups cfg r).standing label = _ :=
    (updateGroups_spec followed.ok.least r).2 label
  have asked' : label ∈ labels s.rules := by
    rw [mem_labels, standing] at asked
    split_ifs at asked with known
    · exact known
    · exact absurd (mem_labels.mpr asked) known
  rw [standing, if_pos asked']
  funext value
  cases me : cfg.foundMe label value with
  | true => simp [position, reported, me]
  | false =>
    have before := congrFun (followed.positions label asked') value
    simp only [position, reported, me, Bool.false_eq_true, if_false] at before ⊢
    rw [hear_lasts r me, before, List.filter_append]
    by_cases tagged : cfg.tag r.member label = some value <;> simp [tagged]

theorem followed_run (parsed : parseRules cfg modes = .ok rules)
    (run : Run (AnyReport cfg) (.start rules) reports s) : Followed cfg reports s := by
  refine run.history (P := Followed cfg) ⟨(start_ok parsed).1, fun label _ => rfl⟩ ?_
  rintro past a r b - followed rfl
  exact followed.step r

/-- Calm reports are reports, and leave every clause as far as its subgroups allow. -/
theorem calm_run (parsed : parseRules cfg modes = .ok rules)
    (run : Run (CalmReport cfg) (.start rules) reports s) :
    Followed cfg reports s ∧ ∀ label, (s.standing label).Tight cfg label := by
  refine run.history (P := fun reports s =>
      Followed cfg reports s ∧ ∀ label, (s.standing label).Tight cfg label)
    ⟨⟨(start_ok parsed).1, fun label _ => rfl⟩, (start_ok parsed).2⟩ ?_
  rintro past a r b - ⟨followed, tight⟩ ⟨calm, rfl⟩
  exact ⟨followed.step r, tight_updateGroups followed.ok tight calm⟩

theorem clause_standing {rule : String × TagRule} (mem : rule ∈ s.rules)
    (inRule : c ∈ rule.2.clauses) : c.name ∈ labels s.rules ∧ c ∈ (s.standing c.name).clauses := by
  have standing : c ∈ (s.standing c.name).clauses :=
    List.mem_filter.mpr ⟨List.mem_flatMap.mpr ⟨rule, mem, inRule⟩, decide_eq_true rfl⟩
  exact ⟨mem_labels.mpr (List.ne_nil_of_mem standing), standing⟩

/-- Enough subgroups of every clause have reached a GTID. -/
def EnoughReached (cfg : ReplSetConfig) (reports : List Report) (rule : TagRule) (gtid : GTID) :
    Prop :=
  ∀ c ∈ rule.clauses,
    c.target ≤ reachedBy (cfg.values c.name) (reported cfg reports c.name) gtid

/-- A mode is never reported as satisfied too early, in any run. -/
theorem rule_satisfied_only_if (parsed : parseRules cfg modes = .ok rules)
    (run : Run (AnyReport cfg) (.start rules) reports s) {rule : String × TagRule}
    (mem : rule ∈ s.rules) {gtid : GTID} (satisfied : GTID.cmp gtid rule.2.last ≤ 0) :
    EnoughReached cfg reports rule.2 gtid := by
  have followed := followed_run parsed run
  intro c inRule
  obtain ⟨asked, standing⟩ := clause_standing mem inRule
  have low : gtid ≤ c.last := by
    have least := cmp_nonpos.mp satisfied
    rw [followed.ok.least rule mem, le_lowest, List.forall_mem_map] at least
    exact least.2 c inRule
  have reached := ((followed.ok.standing c.name).clauses c standing).2.2
  rw [followed.positions c.name asked] at reached
  exact Nat.le_trans reached (reachedBy_anti low)

end Runs

/-- In every run of calm reports, for every configuration and all modes that `parseRules`
accepts: every rule is at the least of its clauses' target-th largest positions, a position
being the largest GTID a member of the subgroup has reported; and a mode is reported as
satisfied for a GTID exactly if enough subgroups of every clause of its rule have reached
it. -/
theorem tagRules_exact {cfg : ReplSetConfig} {modes : List ModeElement}
    {rules : List (String × TagRule)} (parsed : parseRules cfg modes = .ok rules)
    {reports : List Report} {s : TagState}
    (run : Run (CalmReport cfg) (.start rules) reports s) :
    (∀ rule ∈ s.rules, ∃ lasts : List GTID, rule.2.last = lowest .max lasts ∧
      List.Forall₂ (fun c last => nthLargest c.target
        ((cfg.values c.name).map (reported cfg reports c.name)) = some last)
        rule.2.clauses lasts) ∧
    ∀ mode rule, s.rules.reverse.lookup mode = some rule → ∀ gtid ≤ GTID.max,
      (s.opReplicatedEnough gtid mode = some true ↔ EnoughReached cfg reports rule gtid) := by
  obtain ⟨followed, tight⟩ := calm_run parsed run
  have clause : ∀ rule ∈ s.rules, ∀ c ∈ rule.2.clauses, 0 < c.target ∧
      c.target ≤ (cfg.values c.name).length ∧
      Reached (cfg.values c.name) (reported cfg reports c.name) c.target c.last ∧
      Tight (cfg.values c.name) (reported cfg reports c.name) c.target c.last := by
    intro rule mem c inRule
    obtain ⟨asked, standing⟩ := clause_standing mem inRule
    obtain ⟨-, parsed, reached⟩ := (followed.ok.standing c.name).clauses c standing
    rw [← followed.positions c.name asked]
    exact ⟨parsed.positive, parsed.enough, reached, tight c.name c standing⟩
  refine ⟨fun rule mem => ⟨_, followed.ok.least rule mem, ?_⟩,
    fun mode rule found gtid bounded => ?_⟩
  · rw [List.forall₂_map_right_iff, List.forall₂_same]
    intro c inRule
    obtain ⟨positive, enough, reached, tight⟩ := clause rule mem c inRule
    refine nthLargest_eq_some positive (by rwa [List.length_map]) ?_ fun g above => ?_
    · rw [← reachedBy_eq_reaching]
      exact reached
    · rw [← reachedBy_eq_reaching]
      exact tight g above
  · have mem : (mode, rule) ∈ s.rules := by
      obtain ⟨_, _, shape, -⟩ := List.lookup_eq_some_iff.mp found
      rw [← List.mem_reverse, shape]
      simp
    have answer : s.opReplicatedEnough gtid mode = some true ↔ gtid ≤ rule.last := by
      simp [TagState.opReplicatedEnough, found, GTID.cmp_nonpos]
    have least : rule.last = _ := followed.ok.least _ mem
    rw [answer, least, le_lowest, List.forall_mem_map]
    constructor
    · rintro ⟨-, low⟩ c inRule
      exact (clause _ mem c inRule).2.2.1.trans (reachedBy_anti (low c inRule))
    · intro enough
      refine ⟨bounded, fun c inRule => ?_⟩
      by_contra above
      exact absurd (enough c inRule)
        (not_le.mpr ((clause _ mem c inRule).2.2.2 gtid (not_le.mp above)))

/-- Three members in different places; the first one is the primary. -/
def threePlaces : ReplSetConfig where
  members := ["ny", "sf", "hk"].map fun place => ⟨fun label =>
    if label = "dc" then some place else none⟩
  self := some 0

/-- A mode that asks for all three places, and its rule. -/
def everywhere : List ModeElement := [("everywhere", some [("dc", some 3)])]

def everywhereRules : List (String × TagRule) :=
  [("everywhere", ⟨[⟨"dc", 3, 2, .initial⟩], .initial⟩)]

theorem parse_everywhere : parseRules threePlaces everywhere = .ok everywhereRules := by
  rfl

theorem firstPrimary_le_max (n : Nat) : mk 1 n ≤ .max := by
  have below : 1 < 2 ^ 64 - 1 := by decide
  exact le_iff.mpr (.inl below)

/-- A member reports a GTID of the first primary. -/
def reportOf (member n : Nat) : Report := ⟨member, ⟨1, n⟩, firstPrimary_le_max n⟩

/-- After both secondaries have come to 5. -/
theorem rule_satisfied_only_if_in_step : ∃ s,
    Run (AnyReport threePlaces) (.start everywhereRules) [reportOf 1 5, reportOf 2 5] s ∧
      ∀ rule ∈ s.rules,
        EnoughReached threePlaces [reportOf 1 5, reportOf 2 5] rule.2 rule.2.last := by
  have run : Run (AnyReport threePlaces) (.start everywhereRules) [reportOf 1 5, reportOf 2 5] _ :=
    .cons rfl (.cons rfl (.nil _))
  refine ⟨_, run, fun rule mem => ?_⟩
  exact rule_satisfied_only_if parse_everywhere run mem (GTID.cmp_nonpos.mpr le_rfl)

/-- Both secondaries come to 5 one after the other. -/
theorem tagRules_exact_in_step : ∃ s,
    Run (CalmReport threePlaces) (.start everywhereRules) [reportOf 1 5, reportOf 2 5] s ∧
      ∀ rule ∈ s.rules, ∃ lasts : List GTID, rule.2.last = lowest .max lasts ∧
        List.Forall₂ (fun c last => nthLargest c.target ((threePlaces.values c.name).map
          (reported threePlaces [reportOf 1 5, reportOf 2 5] c.name)) = some last)
          rule.2.clauses lasts := by
  have run : Run (CalmReport threePlaces) (.start everywhereRules) [reportOf 1 5, reportOf 2 5] _ :=
    .cons ⟨by decide +kernel, rfl⟩ (.cons ⟨by decide +kernel, rfl⟩ (.nil _))
  exact ⟨_, run, (tagRules_exact parse_everywhere run).1⟩

/-- One secondary reports 5, then the other one 7: all places have reached 5, and the mode is
not reported as satisfied for it. -/
theorem tagRules_behind : ∃ s,
    Run (AnyReport threePlaces) (.start everywhereRules) [reportOf 1 5, reportOf 2 7] s ∧
      s.opReplicatedEnough ⟨1, 5⟩ "everywhere" = some false ∧
      ∀ rule ∈ s.rules, EnoughReached threePlaces [reportOf 1 5, reportOf 2 7] rule.2 ⟨1, 5⟩ := by
  have run : Run (AnyReport threePlaces) (.start everywhereRules) [reportOf 1 5, reportOf 2 7] _ :=
    .cons rfl (.cons rfl (.nil _))
  refine ⟨_, run, by decide +kernel, ?_⟩
  unfold EnoughReached
  decide +kernel

end TokuMX.Repl
