import TokuMX.Collection.Capped

/-!
The journals of the clients of a capped collection.

* `Sound.step` — no two clients ever hold one row (`System.Sound`). This needs no unique check: a
  key from `getNextPK` is new, and every other write is of a row the client may write.
-/

namespace TokuMX.Collection.Capped

open TokuMX.Lib OrderedMap

variable {C Key : Type} [LinearOrder C]

variable {doc : Doc Key} {after : Client Key} {phase : Phase Key} {next : Nat} {r : Rollback}

namespace Client

variable {cl : Client Key} {a : Active Key} {docs : OrderedMap Nat (Doc Key)} {nextPK : Nat}

theorem changes_active (a : Active Key) :
    (active a).changes = a.parents.reverse.flatMap CappedTxn.changes ++ a.top.changes := by
  simp [changes, stack, Active.stack]

@[simp] theorem changes_write (change : Change Nat (Doc Key)) (r : Rollback) (phase : Phase Key) :
    (active (a.write change r phase)).changes = (active a).changes ++ [change] := by
  simp [changes_active, Active.write]

@[simp] theorem changes_throwing (r : Rollback) (weight : ℤ × ℤ) :
    (active (a.throwing r weight)).changes = (active a).changes := by
  simp [changes_active, Active.throwing]

@[simp] theorem changes_begin : (active a.begin).changes = (active a).changes := by
  simp [changes, stack, Active.begin, Active.stack, CappedTxn.fresh]

theorem holds_iff {pk : Nat} :
    cl.holds pk ↔ (∃ change ∈ cl.changes, change.key = pk) ∨ cl.allocated = some pk := by
  simp [holds]

theorem allocated_of_phase {pk objsize : Nat} (phase : a.phase = .allocated pk doc objsize) :
    (active a).allocated = some pk := by
  obtain ⟨top, parents, _⟩ := a
  cases phase
  rfl

/-- A client that is gone or has written no more, and that has allocated nothing. -/
def Within (after : Option (Client Key)) (cl : Client Key) : Prop :=
  ∀ next, after = some next → next.changes <+: cl.changes ∧ next.allocated = none

theorem within_some :
    Within (some after) cl ↔ after.changes <+: cl.changes ∧ after.allocated = none := by
  simp [Within]

/-- Only the phase is another. -/
theorem within_phase (idle : (active { a with phase }).allocated = none) :
    Within (some (active { a with phase })) (active a) :=
  within_some.mpr ⟨List.prefix_refl _, idle⟩

theorem within_pop {parents : List (CappedTxn Key)} {completion : Completion} :
    Within (pop parents) (completing parents completion) := by
  intro next popped
  cases parents with
  | nil => cases popped
  | cons parent parents =>
    cases popped
    exact ⟨List.prefix_refl _, rfl⟩

/-- A client's journal fits, its keys have been handed out, and nothing is yet under the
key it is about to insert. -/
structure Sound (docs : OrderedMap Nat (Doc Key)) (nextPK : Nat) (cl : Client Key) : Prop where
  fits : docs.Fits cl.changes
  below : ∀ change ∈ cl.changes, change.key < nextPK
  reserved : ∀ pk, cl.allocated = some pk →
    pk < nextPK ∧ docs.find? pk = none ∧ ∀ change ∈ cl.changes, change.key ≠ pk

/-- A client that has written no more and allocated nothing. -/
theorem Sound.of_prefix (sound : cl.Sound docs nextPK) (writes : after.changes <+: cl.changes)
    (idle : after.allocated = none) (up : nextPK ≤ next) : after.Sound docs next where
  fits := by
    obtain ⟨rest, split⟩ := writes
    have fits := sound.fits
    rw [← split, fits_append] at fits
    exact fits.1
  below change mem := (sound.below change (writes.subset mem)).trans_le up
  reserved pk taken := by
    rw [idle] at taken
    cases taken

theorem Sound.write {change : Change Nat (Doc Key)} (sound : (active a).Sound docs nextPK)
    (found : (docs.apply (active a).changes).find? change.key = change.old)
    (idle : (active (a.write change r phase)).allocated = none) (up : nextPK ≤ next)
    (key : change.key < next) :
    (active (a.write change r phase)).Sound docs next where
  fits := by
    rw [changes_write, fits_concat]
    exact ⟨sound.fits, found⟩
  below later mem := by
    rw [changes_write, List.mem_append, List.mem_singleton] at mem
    rcases mem with mem | rfl
    · exact (sound.below later mem).trans_le up
    · exact key
  reserved pk taken := by
    rw [idle] at taken
    cases taken

end Client

namespace System

variable {s t : System C Key} {c : C} {cl : Client Key} {a : Active Key} {pk : Nat}

theorem free_iff :
    s.free c pk ↔ ∀ d other, d ≠ c → s.clients.find? d = some other → ¬ other.holds pk := by
  simp only [free, List.all_eq_true, Bool.or_eq_true, decide_eq_true_eq, Bool.not_eq_true',
    find?_eq_some, Bool.not_eq_true]
  constructor
  · intro all d other ne mem
    exact (all (d, other) mem).resolve_left ne
  · rintro all ⟨d, other⟩ mem
    by_cases same : d = c
    · exact .inl same
    · exact .inr (all d other same mem)

/-- The journals fit, no two clients hold a row, and the keys of all rows have been handed
out. -/
structure Sound (s : System C Key) : Prop where
  client : ∀ c cl, s.clients.find? c = some cl → cl.Sound s.docs s.coll.nextPK
  apart : ∀ c cl, s.clients.find? c = some cl → ∀ pk, cl.holds pk → s.free c pk
  docs : ∀ pk doc, s.docs.find? pk = some doc → pk < s.coll.nextPK

open Client

theorem Sound.holds_below (sound : s.Sound) (present : s.clients.find? c = some cl)
    (holds : cl.holds pk) : pk < s.coll.nextPK := by
  rcases holds_iff.mp holds with ⟨change, mem, rfl⟩ | taken
  · exact (sound.client c cl present).below change mem
  · exact ((sound.client c cl present).reserved pk taken).1

theorem Sound.view_below (sound : s.Sound) (present : s.clients.find? c = some (.active a))
    (found : (s.view a).find? pk = some doc) : pk < s.coll.nextPK := by
  rcases find?_apply_cases found with old | ⟨change, mem, rfl, -⟩
  · exact sound.docs pk doc old
  · exact (sound.client c _ present).below change mem

/-- The next key is that of no row, and nobody holds it. -/
theorem Sound.nextPK_new (sound : s.Sound) : s.docs.find? s.coll.nextPK = none := by
  cases found : s.docs.find? s.coll.nextPK with
  | none => rfl
  | some doc => exact absurd (sound.docs _ doc found) (lt_irrefl _)

theorem Sound.nextPK_free (sound : s.Sound) (c : C) : s.free c s.coll.nextPK :=
  free_iff.mpr fun _ _ _ found holds => absurd (sound.holds_below found holds) (lt_irrefl _)

/-- A collection as it is when it is opened: nothing is open, every key has been handed out,
and the documents have been counted. -/
structure Opened (s : System C Key) : Prop where
  clients : s.clients = .empty
  keys : ∀ pk doc, s.docs.find? pk = some doc → pk < s.coll.nextPK
  firstKeys : s.coll.uncommittedMinPKs = ∅
  exact : s.coll.currentObjects = s.docs.entries.length ∧
    s.coll.currentSize = (s.docs.entries.map fun e => e.2.size).sum

theorem Opened.sound (opened : s.Opened) : s.Sound where
  client c cl found := by simp [opened.clients] at found
  apart c cl found := by simp [opened.clients] at found
  docs := opened.keys

/-- A step that changes one client and no committed row. -/
theorem Sound.put (sound : s.Sound) (c : C) (after : Option (Client Key)) (docs : t.docs = s.docs)
    (clients : t.clients = s.clients.put c after) (up : s.coll.nextPK ≤ t.coll.nextPK)
    (client : ∀ cl ∈ after, cl.Sound s.docs t.coll.nextPK)
    (held : ∀ cl ∈ after, ∀ pk, cl.holds pk → s.free c pk) : t.Sound where
  client d cl found := by
    rw [clients, find?_put] at found
    rw [docs]
    split_ifs at found with same
    · exact client cl found
    · have old := sound.client d cl found
      exact ⟨old.fits, fun change mem => (old.below change mem).trans_le up, fun pk taken =>
        ⟨(old.reserved pk taken).1.trans_le up, (old.reserved pk taken).2⟩⟩
  apart d cl found pk holds := by
    rw [free_iff]
    intro e other ne foundOther holdsOther
    rw [clients, find?_put] at found foundOther
    split_ifs at found foundOther with same sameOther sameOther
    · exact ne (sameOther.trans same.symm)
    · exact free_iff.mp (held cl found pk holds) e other sameOther foundOther holdsOther
    · exact free_iff.mp (held other foundOther pk holdsOther) d cl same found holds
    · exact free_iff.mp (sound.apart d cl found pk holds) e other ne foundOther holdsOther
  docs pk doc found := by
    rw [docs] at found
    exact (sound.docs pk doc found).trans_le up

/-- The same for a client that has written no more. -/
theorem Sound.putWithin (sound : s.Sound) (present : s.clients.find? c = some cl)
    {after : Option (Client Key)} (docs : t.docs = s.docs)
    (clients : t.clients = s.clients.put c after) (up : s.coll.nextPK ≤ t.coll.nextPK)
    (within : Client.Within after cl) : t.Sound := by
  have old := sound.client c cl present
  refine sound.put c _ docs clients up ?_ ?_
  · intro next same
    obtain ⟨writes, idle⟩ := within next same
    exact old.of_prefix writes idle up
  · intro next same pk holds
    obtain ⟨writes, idle⟩ := within next same
    refine sound.apart c cl present pk ?_
    rw [holds_iff] at holds ⊢
    rcases holds with ⟨change, mem, key⟩ | taken
    · exact .inl ⟨change, writes.subset mem, key⟩
    · rw [idle] at taken
      cases taken

/-- The same for a client that has written one row more. -/
theorem Sound.putWrite (sound : s.Sound) (present : s.clients.find? c = some (.active a))
    {change : Change Nat (Doc Key)} (docs : t.docs = s.docs)
    (clients : t.clients = s.clients.put c (some (.active (a.write change r phase))))
    (up : s.coll.nextPK ≤ t.coll.nextPK) (found : (s.view a).find? change.key = change.old)
    (idle : (active (a.write change r phase)).allocated = none)
    (free : s.free c change.key) (key : change.key < t.coll.nextPK) : t.Sound := by
  have old := sound.client c _ present
  refine sound.put c _ docs clients up ?_ ?_
  · intro other same
    obtain rfl := Option.some.inj same
    exact old.write found idle up key
  · intro other same pk holds
    obtain rfl := Option.some.inj same
    rw [holds_iff, changes_write] at holds
    rcases holds with ⟨later, mem, rfl⟩ | taken
    · rw [List.mem_append, List.mem_singleton] at mem
      rcases mem with mem | rfl
      · exact sound.apart c _ present _ (holds_iff.mpr (.inl ⟨later, mem, rfl⟩))
      · exact free
    · rw [idle] at taken
      cases taken

/-- A root's commit. -/
theorem Sound.commit (sound : s.Sound) (present : s.clients.find? c = some cl)
    (docs : t.docs = s.docs.apply cl.changes) (clients : t.clients = s.clients.put c (some after))
    (next : t.coll.nextPK = s.coll.nextPK) (writes : after.changes = [])
    (idle : after.allocated = none) : t.Sound where
  client d other found := by
    rw [clients, find?_put] at found
    rw [docs, next]
    split_ifs at found with same
    · obtain rfl := Option.some.inj found
      refine ⟨by rw [writes]; trivial, by simp [writes], fun pk taken => ?_⟩
      rw [idle] at taken
      cases taken
    · have old := sound.client d other found
      -- what the other client holds is under no key of the journal that is applied
      have apart : ∀ pk, other.holds pk → ∀ change ∈ cl.changes, change.key ≠ pk := by
        rintro pk holds change mem rfl
        exact free_iff.mp (sound.apart d other found _ holds) c cl (Ne.symm same) present
          (holds_iff.mpr (.inl ⟨change, mem, rfl⟩))
      refine ⟨old.fits.apply_other fun change mem => ?_, old.below, fun pk taken => ?_⟩
      · exact apart _ (holds_iff.mpr (.inl ⟨change, mem, rfl⟩))
      · obtain ⟨below, none, own⟩ := old.reserved pk taken
        rw [find?_apply_of_ne (apart pk (holds_iff.mpr (.inr taken)))]
        exact ⟨below, none, own⟩
  apart d other found pk holds := by
    rw [free_iff]
    intro e third ne foundThird holdsThird
    have nothing : ¬ after.holds pk := by
      rw [holds_iff, writes, idle]
      simp
    rw [clients, find?_put] at found foundThird
    split_ifs at found foundThird with same sameThird sameThird
    · exact ne (sameThird.trans same.symm)
    · exact nothing (Option.some.inj found ▸ holds)
    · exact nothing (Option.some.inj foundThird ▸ holdsThird)
    · exact free_iff.mp (sound.apart d other found pk holds) e third ne foundThird holdsThird
  docs pk doc found := by
    rw [docs] at found
    rw [next]
    rcases find?_apply_cases found with old | ⟨change, mem, rfl, -⟩
    · exact sound.docs pk doc old
    · exact (sound.client c cl present).below change mem

/-- A write of a row the client sees. -/
theorem Sound.rewrite (sound : s.Sound) (present : s.clients.find? c = some (.active a))
    {old : Doc Key} {new : Option (Doc Key)} (docs : t.docs = s.docs)
    (clients : t.clients = s.clients.put c (some (.active (a.write ⟨pk, some old, new⟩ r phase))))
    (next : t.coll.nextPK = s.coll.nextPK) (free : s.free c pk)
    (found : (s.view a).find? pk = some old)
    (idle : (active (a.write ⟨pk, some old, new⟩ r phase)).allocated = none) : t.Sound :=
  sound.putWrite present docs clients next.ge found idle free
    (next ▸ sound.view_below present found)

section Steps

variable [DecidableEq Key] {limits : Limits} {e : Event C Key}

@[simp] theorem nextPK_noteUncommittedPK (coll : CappedCollection) (r : Rollback) (pk : Nat) :
    (coll.noteUncommittedPK r pk).nextPK = coll.nextPK := by
  unfold CappedCollection.noteUncommittedPK
  split_ifs <;> rfl

@[simp] theorem nextPK_count (coll : CappedCollection) (n size : Int) :
    (coll.count n size).nextPK = coll.nextPK := rfl

theorem nextPK_noteComplete {coll coll' : CappedCollection} {minPK : Option Nat}
    (done : coll.noteComplete minPK = some coll') : coll'.nextPK = coll.nextPK := by
  rw [(CappedCollection.noteComplete_spec done).2]

/-- An insert under a key that nobody else holds. -/
theorem Sound.insert (sound : s.Sound) (present : s.clients.find? c = some (.active a))
    {checkPk fails : Bool} (coll : CappedCollection) (up : s.coll.nextPK ≤ coll.nextPK)
    (free : s.free c pk) (key : pk < coll.nextPK)
    (idle : ∀ r, (active (a.write ⟨pk, (s.view a).find? pk, some doc⟩ r phase)).allocated = none) :
    ({ s with coll }.checkUniqueAndInsert c a pk doc checkPk fails phase).Sound := by
  unfold checkUniqueAndInsert
  dsimp only
  split_ifs
  · exact sound.putWithin present rfl rfl up (within_some.mpr ⟨by simp, rfl⟩)
  · exact sound.putWrite present rfl rfl up rfl (idle _) free key

theorem Sound.step (sound : s.Sound) (step : Step limits s e t) : t.Sound := by
  cases step.move with
  | beginRoot absent =>
    refine sound.put _ (some _) rfl rfl le_rfl ?_ ?_
    · rintro - ⟨⟩
      exact ⟨trivial, nofun, nofun⟩
    · rintro - ⟨⟩ pk ⟨⟩
  | beginChild present idle =>
    exact sound.putWithin present rfl rfl le_rfl (within_some.mpr ⟨by simp, rfl⟩)
  | @getNextPK c a doc objsize present idle fits =>
    have old := sound.client _ _ present
    have next : (s.getNextPK c a doc objsize).coll.nextPK = s.coll.nextPK + 1 := by
      simp [System.getNextPK]
    refine sound.put c (some _) rfl rfl (by omega) ?_ ?_
    · rintro - ⟨⟩
      refine ⟨old.fits, fun change mem => ?_, ?_⟩
      · rw [next]
        exact (old.below change mem).trans (Nat.lt_succ_self _)
      · rintro - ⟨⟩
        refine ⟨by omega, sound.nextPK_new, fun change mem => (old.below change mem).ne⟩
    · rintro - ⟨⟩ pk holds
      rcases holds_iff.mp holds with written | taken
      · exact sound.apart c _ present pk (holds_iff.mpr (.inl written))
      · cases taken
        exact sound.nextPK_free c
  | checkUniqueAndInsert present phase =>
    have allocated := allocated_of_phase phase
    have held := holds_iff.mpr (.inr allocated)
    exact sound.insert present s.coll le_rfl (sound.apart _ _ present _ held)
      ((sound.client _ _ present).reserved _ allocated).1 fun _ => rfl
  | insertObjectWithPK present idle free =>
    refine sound.insert present _ ?_ free ?_ fun _ => rfl
    · rw [nextPK_noteUncommittedPK]
      split_ifs with above
      · exact above.trans (Nat.le_succ _)
      · exact le_rfl
    · rw [nextPK_noteUncommittedPK]
      split_ifs with above
      · exact Nat.lt_succ_self _
      · exact not_le.mp above
  | phase _ present _ after => exact sound.putWithin present rfl rfl le_rfl (within_phase after)
  | trimNext present _ free found after =>
    exact sound.rewrite present rfl rfl rfl free found after
  | updateObject present idle free found noGrow =>
    refine sound.rewrite present rfl rfl ?_ free found rfl
    unfold System.updateObject
    dsimp only
    split_ifs <;> rfl
  | deleteObjectWithPK present idle free found =>
    exact sound.rewrite present rfl rfl rfl free found rfl
  | deleteThrows present found =>
    exact sound.putWithin present rfl rfl le_rfl (within_some.mpr ⟨by simp, rfl⟩)
  | commitChild present idle nested =>
    refine sound.putWithin present rfl rfl le_rfl (within_some.mpr ⟨?_, rfl⟩)
    simp [changes_active, nested]
  | storageCommit present idle root =>
    refine sound.commit present ?_ rfl rfl rfl rfl
    simp [changes_active, root, System.storageCommit]
  | noteCommit present done =>
    exact sound.putWithin present rfl rfl (nextPK_noteComplete done).ge within_pop
  | storageAbort present idle =>
    refine sound.putWithin present rfl rfl le_rfl (within_some.mpr ⟨?_, rfl⟩)
    rw [changes_active]
    exact List.prefix_append _ _
  | noteAbort present done =>
    refine sound.putWithin present rfl rfl (nextPK_noteComplete done).ge ?_
    split_ifs
    · exact within_some.mpr ⟨List.prefix_refl _, rfl⟩
    · exact within_pop
  | forgetLastDeleted present mutex =>
    exact sound.putWithin present rfl rfl le_rfl within_pop
  | minUnsafeKey => exact sound

end Steps

/-! ### Short runs -/

/-- An empty collection. -/
def created : System ℕ ℕ := ⟨⟨0, 0, none, ∅, 0⟩, .empty, .empty, none⟩

theorem opened_created : created.Opened := ⟨rfl, nofun, rfl, rfl, rfl⟩

/-- An insert that is not followed by a trim. -/
def inserting (c : ℕ) (doc : Doc ℕ) : List (Event ℕ ℕ) :=
  [.getNextPK c doc doc.size, .checkUniqueAndInsert c false, .checkGorged c]

def committing (c : ℕ) (threw : ℤ × ℤ) : List (Event ℕ ℕ) :=
  [.storageCommit c threw, .noteCommit c]

/-- The end of a run of an empty collection, if nothing is open there. -/
def closing (events : List (Event ℕ ℕ)) : Option (System ℕ ℕ) := do
  let t ← events.foldlM (perform ⟨1000, 0⟩) created
  if t.clients.entries.isEmpty then some t else none

/-- What is seen at the end of a run, and the run. -/
theorem run_of_closing {α : Type} {f : System ℕ ℕ → α} {events : List (Event ℕ ℕ)} {x : α}
    (seen : (closing events).map f = some x) :
    ∃ t, Run (Step ⟨1000, 0⟩) created events t ∧ t.clients = .empty ∧ f t = x := by
  obtain ⟨t, closed, rfl⟩ := Option.map_eq_some_iff.mp seen
  simp only [closing, Option.bind_eq_bind, Option.bind_eq_some_iff] at closed
  obtain ⟨t, done, closed⟩ := closed
  split_ifs at closed with none
  cases closed
  exact ⟨t, run_of_foldlM done, eq_empty (List.isEmpty_iff.mp none), rfl⟩

end System

end TokuMX.Collection.Capped
