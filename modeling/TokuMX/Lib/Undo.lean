import Mathlib.Data.Finmap
import Mathlib.Logic.Function.Basic

/-!
Undoing operations by writing recorded values back.

The undo of an operation is a guard and a list of writes that do not depend on what is
there. Operations are undone last to first.

* `undone` — what is left under each key; `Passes` — every guard holds where its operation
  is undone.
* `foldrM_undo_iff` — undoing succeeds with a store exactly when all guards pass and the
  store holds what is left.
* `undone_of_inverts` — if each undo takes its own operation back, all of them together
  take all the operations back, and `passes_iff_of_inverts` — each guard is checked on what
  its operation left.
-/

namespace TokuMX.Lib

variable {K V Op : Type}

variable {ops : List Op}

/-- Each operation of a run was applied to something. -/
theorem applied_of_mem {M : Type} {apply : Op → M → Option M} {m m' : M}
    (applied : ops.foldlM (fun m op => apply op m) m = some m') :
    ∀ op ∈ ops, ∃ m₁ m₂, apply op m₁ = some m₂ := by
  induction ops generalizing m with
  | nil => simp
  | cons op ops ih =>
    rw [List.foldlM_cons, Option.bind_eq_bind, Option.bind_eq_some_iff] at applied
    obtain ⟨mid, first, rest⟩ := applied
    rw [List.forall_mem_cons]
    exact ⟨⟨m, mid, first⟩, ih rest⟩

variable [DecidableEq K]

/-- A finite map; two with the same lookups are equal. -/
abbrev Store (K V : Type) := Finmap fun _ : K => V

/-- What is under each key. -/
def view (m : Store K V) (k : K) : Option V := m.lookup k

/-- What is under each key after some writes; `none` removes. -/
def overlay (writes : List (K × Option V)) (view : K → Option V) : K → Option V :=
  writes.foldl (fun view w => Function.update view w.1 w.2) view

/-- A guard on what is there, and writes. -/
structure Undo (K V : Type) where
  guard : (K → Option V) → Prop
  writes : List (K × Option V)

/-- An undo that is refused whatever is there. -/
def Undo.refused : Undo K V := ⟨fun _ => False, []⟩

/-- What is left when the undos have run, last to first. -/
def undone : List (Undo K V) → (K → Option V) → K → Option V
  | [], view => view
  | u :: rest, view => overlay u.writes (undone rest view)

/-- Every guard holds where its undo runs. -/
def Passes : List (Undo K V) → (K → Option V) → Prop
  | [], _ => True
  | u :: rest, view => Passes rest view ∧ u.guard (undone rest view)

@[simp] theorem overlay_nil (view : K → Option V) : overlay [] view = view := rfl

@[simp] theorem overlay_cons (w : K × Option V) (writes : List (K × Option V))
    (view : K → Option V) :
    overlay (w :: writes) view = overlay writes (Function.update view w.1 w.2) := rfl

variable {m m' : Store K V}

theorem view_injective (same : view m = view m') : m = m' := Finmap.ext_lookup (congrFun same)

theorem view_insert (m : Store K V) (k : K) (v : V) :
    view (m.insert k v) = Function.update (view m) k (some v) := by
  funext j
  by_cases same : j = k
  · subst same
    simp [view]
  · rw [Function.update_of_ne same]
    exact Finmap.lookup_insert_of_ne m same

theorem view_erase (m : Store K V) (k : K) :
    view (m.erase k) = Function.update (view m) k none := by
  funext j
  by_cases same : j = k
  · subst same
    simp [view]
  · rw [Function.update_of_ne same]
    exact Finmap.lookup_erase_ne same

theorem insert_eq_iff {k : K} {v : V} :
    m.insert k v = m' ↔ view m' = Function.update (view m) k (some v) := by
  rw [← view_insert]
  exact ⟨fun same => same ▸ rfl, fun same => view_injective same.symm⟩

theorem erase_eq_iff {k : K} : m.erase k = m' ↔ view m' = Function.update (view m) k none := by
  rw [← view_erase]
  exact ⟨fun same => same ▸ rfl, fun same => view_injective same.symm⟩

theorem exists_view_overlay (writes : List (K × Option V)) (m : Store K V) :
    ∃ m', view m' = overlay writes (view m) := by
  induction writes generalizing m with
  | nil => exact ⟨m, rfl⟩
  | cons w writes ih =>
    obtain ⟨k, value⟩ := w
    cases value with
    | none =>
      obtain ⟨m', result⟩ := ih (m.erase k)
      exact ⟨m', by rw [result, view_erase, overlay_cons]⟩
    | some v =>
      obtain ⟨m', result⟩ := ih (m.insert k v)
      exact ⟨m', by rw [result, view_insert, overlay_cons]⟩

theorem exists_view_undone (undos : List (Undo K V)) (m : Store K V) :
    ∃ m', view m' = undone undos (view m) := by
  induction undos with
  | nil => exact ⟨m, rfl⟩
  | cons u undos ih =>
    obtain ⟨mid, left⟩ := ih
    obtain ⟨m', result⟩ := exists_view_overlay u.writes mid
    exact ⟨m', by rw [result, left, undone]⟩

variable {apply undo : Op → Store K V → Option (Store K V)} {plan : Op → Undo K V}

/-- If every operation is undone by its plan, all of them are, last to first. -/
theorem foldrM_undo_iff
    (follows : ∀ op ∈ ops, ∀ m m', undo op m = some m' ↔ (plan op).guard (view m) ∧ view m' =
      overlay (plan op).writes (view m)) :
    ops.foldrM undo m = some m' ↔
      Passes (ops.map plan) (view m) ∧ view m' = undone (ops.map plan) (view m) := by
  induction ops generalizing m' with
  | nil =>
    simp only [List.foldrM_nil, List.map_nil, Passes, undone, true_and]
    constructor
    · rintro ⟨⟩
      rfl
    · intro same
      rw [view_injective same]
      rfl
  | cons op ops ih =>
    have ih : ∀ m', ops.foldrM undo m = some m' ↔ _ := fun _ =>
      ih fun o mem => follows o (List.mem_cons_of_mem op mem)
    rw [List.foldrM_cons, Option.bind_eq_bind, Option.bind_eq_some_iff]
    constructor
    · rintro ⟨mid, later, last⟩
      obtain ⟨passes, left⟩ := (ih mid).mp later
      obtain ⟨guard, result⟩ := (follows op List.mem_cons_self mid m').mp last
      rw [left] at guard result
      exact ⟨⟨passes, guard⟩, result⟩
    · rintro ⟨⟨passes, guard⟩, result⟩
      obtain ⟨mid, left⟩ := exists_view_undone (ops.map plan) m
      refine ⟨mid, (ih mid).mpr ⟨passes, left⟩, (follows op List.mem_cons_self mid m').mpr ?_⟩
      rw [left]
      exact ⟨guard, result⟩

/-- Each undo takes its operation back, in the run of the operations from `m`. -/
def Inverts (apply : Op → Store K V → Option (Store K V)) (plan : Op → Undo K V) :
    List Op → Store K V → Prop
  | [], _ => True
  | op :: rest, m => ∀ m₁, apply op m = some m₁ →
      overlay (plan op).writes (view m₁) = view m ∧ Inverts apply plan rest m₁

theorem undone_of_inverts (applied : ops.foldlM (fun m op => apply op m) m = some m')
    (inverts : Inverts apply plan ops m) : undone (ops.map plan) (view m') = view m := by
  induction ops generalizing m with
  | nil =>
    cases applied
    rfl
  | cons op ops ih =>
    rw [List.foldlM_cons, Option.bind_eq_bind, Option.bind_eq_some_iff] at applied
    obtain ⟨mid, first, rest⟩ := applied
    obtain ⟨here, later⟩ := inverts mid first
    rw [List.map_cons, undone, ih rest later, here]

/-- Each guard holds on what its operation left, in the run of the operations from `m`. -/
def GuardsHold (apply : Op → Store K V → Option (Store K V)) (plan : Op → Undo K V) :
    List Op → Store K V → Prop
  | [], _ => True
  | op :: rest, m => ∀ m₁, apply op m = some m₁ →
      (plan op).guard (view m₁) ∧ GuardsHold apply plan rest m₁

theorem passes_iff_of_inverts (applied : ops.foldlM (fun m op => apply op m) m = some m')
    (inverts : Inverts apply plan ops m) :
    Passes (ops.map plan) (view m') ↔ GuardsHold apply plan ops m := by
  induction ops generalizing m with
  | nil => simp [Passes, GuardsHold]
  | cons op ops ih =>
    rw [List.foldlM_cons, Option.bind_eq_bind, Option.bind_eq_some_iff] at applied
    obtain ⟨mid, first, rest⟩ := applied
    obtain ⟨-, later⟩ := inverts mid first
    rw [List.map_cons, Passes, undone_of_inverts rest later, ih rest later, GuardsHold]
    constructor
    · rintro ⟨laterGuards, here⟩ m₁ first'
      cases first.symm.trans first'
      exact ⟨here, laterGuards⟩
    · intro guards
      exact (guards mid first).symm

end TokuMX.Lib
