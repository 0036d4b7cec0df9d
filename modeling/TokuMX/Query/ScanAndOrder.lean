import Mathlib.Algebra.Order.BigOperators.Group.List
import Mathlib.Algebra.Order.Ring.Nat
import TokuMX.Lib.Checked
import TokuMX.Lib.Comparison
import TokuMX.Lib.StableSort

/-!
Sorting in memory (`ScanAndOrder` in `db/scanandorder.h`, `db/scanandorder.cpp`).

The documents that a query finds are put into an ordered multimap by their sort keys. With
a limit only as many are kept as are to be skipped and returned.

* `fill_iff` — what is returned are the documents at the places asked for in the stable sort,
  unless the number of documents to keep does not fit into an `int`.
* `fill_fails` — such a number.

The keys are compared by `woCompare` with the sort pattern, which need not be an order of all
BSON objects; here they are of a type that it orders.
-/

namespace TokuMX.Query

open TokuMX.Lib

inductive SortError where
  | uassert (code : Nat)
  | verifyFailed
deriving DecidableEq

/-- `KeyType`: the sort key of a document, if it has one within the bounds of the query, and how
keys are compared; and the sizes of both. -/
structure KeyType (Doc Key : Type) where
  getKeyFromObject : Doc → Except SortError (Option Key)
  woCompare : Key → Key → Int
  keySize : Key → Nat
  objsize : Doc → Nat
  objsize_pos : ∀ o, 0 < objsize o

structure ScanAndOrder (Doc Key : Type) where
  best : List (Key × Doc)
  startFrom : BitVec 32
  limit : BitVec 32
  approxSize : BitVec 32

def maxScanAndOrderBytes : Nat := 32 * 1024 * 1024

namespace ScanAndOrder

variable {Doc Key : Type} (order : KeyType Doc Key)

/-- The constructor. The sum may overflow. -/
def new (startFrom limit : BitVec 32) : ScanAndOrder Doc Key :=
  ⟨[], startFrom, if 0 < limit.toInt then limit + startFrom else 0x7fffffff, 0⟩

/-- The first entry of the multimap is not behind the second. -/
def NotBehind (a b : Key × Doc) : Prop := order.woCompare a.1 b.1 ≤ 0

instance : DecidableRel (NotBehind order) := fun _ _ => inferInstanceAs (Decidable (_ ≤ _))

/-- `_validateAndUpdateApproxSize`. -/
def validateAndUpdateApproxSize (s : ScanAndOrder Doc Key) (approxSizeDelta : Int) :
    Except SortError (ScanAndOrder Doc Key) := do
  let newApproxSize := s.approxSize + BitVec.ofInt 32 approxSizeDelta
  ensure (0 ≤ newApproxSize.toInt) .verifyFailed
  ensure (newApproxSize.toNat < maxScanAndOrderBytes) (.uassert 10128)
  return { s with approxSize := newApproxSize }

/-- The bytes of an entry. -/
def entrySize (e : Key × Doc) : Nat := order.keySize e.1 + order.objsize e.2

/-- `_add`. -/
def addEntry (s : ScanAndOrder Doc Key) (e : Key × Doc) :
    Except SortError (ScanAndOrder Doc Key) := do
  let s ← s.validateAndUpdateApproxSize (entrySize order e)
  return { s with best := insertLast (NotBehind order) e s.best }

/-- `_addIfBetter`, with the worst of the best entries. -/
def addIfBetter (s : ScanAndOrder Doc Key) (e worst : Key × Doc) :
    Except SortError (ScanAndOrder Doc Key) :=
  if 0 < order.woCompare worst.1 e.1 then do
    let s ← s.validateAndUpdateApproxSize (-(entrySize order worst))
    { s with best := s.best.dropLast }.addEntry order e
  else pure s

/-- `add` of a document whose key has been found. -/
def addKeyed (s : ScanAndOrder Doc Key) (e : Key × Doc) :
    Except SortError (ScanAndOrder Doc Key) :=
  if (BitVec.ofNat 32 s.best.length).toInt < s.limit.toInt then s.addEntry order e
  else
    match s.best.getLast? with
    | none => .error .verifyFailed
    | some worst => s.addIfBetter order e worst

/-- `add`. Parallel arrays have an error code of their own here. -/
def add (s : ScanAndOrder Doc Key) (o : Doc) : Except SortError (ScanAndOrder Doc Key) := do
  match ← (order.getKeyFromObject o).mapError fun e =>
    if e = .uassert 10888 then .uassert 15925 else e with
  | none => return s
  | some k => s.addKeyed order (k, o)

/-- The loop of `fill` over the entries, with the numbers of those seen and of those filled in. -/
def fillLoop (s : ScanAndOrder Doc Key) (n nFilled : Int) : List (Key × Doc) → List Doc
  | [] => []
  | e :: rest =>
    if n + 1 ≤ s.startFrom.toInt then s.fillLoop (n + 1) nFilled rest
    else e.2 :: if nFilled + 1 ≥ s.limit.toInt then [] else s.fillLoop (n + 1) (nFilled + 1) rest

/-- `fill`: the documents that are put into the result. -/
def fill (s : ScanAndOrder Doc Key) : List Doc := s.fillLoop 0 0 s.best

/-- All documents are added, then the result is filled. -/
def run (startFrom limit : BitVec 32) (docs : List Doc) : Except SortError (List Doc) := do
  return (← docs.foldlM (add order) (new startFrom limit)).fill

/-- The documents that have a sort key. -/
def keyed (docs : List Doc) : List (Key × Doc) :=
  docs.filterMap fun o =>
    match order.getKeyFromObject o with
    | .ok (some k) => some (k, o)
    | _ => none

/-- The bytes of all entries. -/
def totalSize (entries : List (Key × Doc)) : Nat := (entries.map (entrySize order)).sum

/-- The documents at the places asked for. -/
def page (skip limit : Nat) (entries : List (Key × Doc)) : List Doc :=
  ((if limit = 0 then entries.drop skip else (entries.drop skip).take limit).map Prod.snd)

section

variable {order} {s t : ScanAndOrder Doc Key} {e : Key × Doc} {past : List (Key × Doc)}

theorem totalSize_perm {l l' : List (Key × Doc)} (perm : l.Perm l') :
    totalSize order l = totalSize order l' := (perm.map _).sum_eq

theorem length_le_totalSize (order : KeyType Doc Key) (l : List (Key × Doc)) :
    l.length ≤ totalSize order l := by
  induction l with
  | nil => exact Nat.zero_le _
  | cons e l ih =>
    have := order.objsize_pos e.2
    simp only [totalSize, List.map_cons, List.sum_cons, List.length_cons, entrySize] at ih ⊢
    omega

theorem toNat_ofNat_small {m : Nat} (small : m < maxScanAndOrderBytes) :
    (BitVec.ofNat 32 m).toNat = m ∧ (BitVec.ofNat 32 m).toInt = m := by
  have bound : m < 2 ^ 25 := small
  have toNat : (BitVec.ofNat 32 m).toNat = m := by
    rw [BitVec.toNat_ofNat]
    exact Nat.mod_eq_of_lt (by omega)
  exact ⟨toNat, by rw [BitVec.toInt_eq_toNat_of_lt (by omega), toNat]⟩

theorem validateAndUpdateApproxSize_ok {delta : Int} {m n : Nat}
    (size : s.approxSize = BitVec.ofNat 32 m) (sum : m + delta = n)
    (small : n < maxScanAndOrderBytes) :
    s.validateAndUpdateApproxSize delta = .ok { s with approxSize := BitVec.ofNat 32 n } := by
  have new : s.approxSize + BitVec.ofInt 32 delta = BitVec.ofNat 32 n := by
    rw [size, ← BitVec.ofInt_natCast, ← BitVec.ofInt_natCast, ← sum, BitVec.ofInt_add]
  obtain ⟨toNat, toInt⟩ := toNat_ofNat_small small
  simp only [validateAndUpdateApproxSize, new, toNat, toInt]
  rw [ensure_bind_of (by omega), ensure_bind_of small]
  rfl

theorem addEntry_ok {m : Nat} (size : s.approxSize = BitVec.ofNat 32 m)
    (room : m + entrySize order e < maxScanAndOrderBytes) :
    s.addEntry order e = .ok { s with
      best := insertLast (NotBehind order) e s.best
      approxSize := BitVec.ofNat 32 (m + entrySize order e) } := by
  rw [addEntry, validateAndUpdateApproxSize_ok size (by push_cast; rfl) room]
  rfl

/-- The best of the entries added so far are held, and their bytes counted. -/
structure Holds (order : KeyType Doc Key) (startFrom limit : BitVec 32) (s : ScanAndOrder Doc Key)
    (past : List (Key × Doc)) : Prop where
  best : s.best = (past.insertionSort (NotBehind order)).take limit.toInt.toNat
  size : s.approxSize = BitVec.ofNat 32 (totalSize order s.best)
  startFrom : s.startFrom = startFrom
  limit : s.limit = limit

variable {startFrom limit : BitVec 32}

theorem Holds.totalSize_le (holds : Holds order startFrom limit s past) :
    totalSize order s.best ≤ totalSize order past := by
  rw [← totalSize_perm (List.perm_insertionSort (NotBehind order) past), holds.best]
  exact (List.take_sublist _ _ |>.map _).sum_le_sum fun _ _ => Nat.zero_le _

section

variable [Std.Total (NotBehind order)] [IsTrans _ (NotBehind order)]

theorem addKeyed_ok (positive : 0 < limit.toInt) (holds : Holds order startFrom limit s past)
    (small : totalSize order (past ++ [e]) < maxScanAndOrderBytes) :
    ∃ t, s.addKeyed order e = .ok t ∧ Holds order startFrom limit t (past ++ [e]) := by
  have fits := holds.totalSize_le
  obtain ⟨best, size, start, rfl⟩ := holds
  have grown : totalSize order (past ++ [e]) = totalSize order past + entrySize order e := by
    simp [totalSize]
  have length : s.best.length = min s.limit.toInt.toNat past.length := by
    rw [best, List.length_take, List.length_insertionSort]
  have counted := (toNat_ofNat_small ((length_le_totalSize order s.best).trans_lt (by omega))).2
  have inserted : ∀ l : List (Key × Doc), totalSize order (insertLast (NotBehind order) e l) =
      totalSize order l + entrySize order e := fun l => by
    rw [totalSize_perm (perm_insertLast _ _)]
    simp [totalSize, Nat.add_comm]
  obtain ⟨free, full⟩ := take_insertionSort_concat (r := NotBehind order) s.limit.toInt.toNat past e
  rw [addKeyed, counted]
  split_ifs with room
  · refine ⟨_, addEntry_ok size (by omega), ?_, ?_, start, rfl⟩
    · rw [free (by omega), ← best]
    · rw [inserted]
  · have nonempty : s.best ≠ [] := List.length_pos_iff.mp (by omega)
    obtain ⟨init, worst, split⟩ := (List.eq_nil_or_concat' s.best).resolve_left nonempty
    have sum : totalSize order s.best = totalSize order init + entrySize order worst := by
      simp [split, totalSize]
    have kept := full init worst (by omega) (best.symm.trans split)
    have last : s.best.getLast? = some worst := by simp [split]
    simp only [last, addIfBetter]
    split_ifs with better
    · rw [if_neg (show ¬ NotBehind order worst e from not_le.mpr better)] at kept
      rw [validateAndUpdateApproxSize_ok (n := totalSize order init) size (by omega) (by omega)]
      refine ⟨_, addEntry_ok rfl (by omega), ?_, ?_, start, rfl⟩
      · simp only [split, List.dropLast_concat, kept]
      · simp only [split, List.dropLast_concat, inserted]
    · rw [if_pos (show NotBehind order worst e from not_lt.mp better)] at kept
      exact ⟨s, rfl, split.trans kept.symm, size, start, rfl⟩

theorem foldlM_addKeyed_ok (entries : List (Key × Doc)) (positive : 0 < limit.toInt)
    (holds : Holds order startFrom limit s past)
    (small : totalSize order (past ++ entries) < maxScanAndOrderBytes) :
    ∃ t, entries.foldlM (addKeyed order) s = .ok t ∧
      Holds order startFrom limit t (past ++ entries) := by
  induction entries generalizing s past with
  | nil => exact ⟨s, rfl, by simpa using holds⟩
  | cons e entries ih =>
    rw [List.append_cons] at small ⊢
    have here : totalSize order (past ++ [e]) < maxScanAndOrderBytes :=
      lt_of_le_of_lt (by simp [totalSize]) small
    obtain ⟨t, added, holds⟩ := addKeyed_ok positive holds here
    rw [List.foldlM_cons, added]
    exact ih holds small

end

/-- Only the documents with keys are added. -/
theorem foldlM_add_eq {docs : List Doc} (keys : ∀ o ∈ docs, ∃ k, order.getKeyFromObject o = .ok k) :
    docs.foldlM (add order) s = (keyed order docs).foldlM (addKeyed order) s := by
  induction docs generalizing s with
  | nil => rfl
  | cons o docs ih =>
    obtain ⟨⟨k, key⟩, later⟩ := List.forall_mem_cons.mp keys
    rw [List.foldlM_cons, add, keyed, List.filterMap_cons, key]
    cases k with
    | none => exact ih later
    | some k => exact bind_congr fun t => ih later

/-- Documents can only be added if their keys can be found. -/
theorem keys_of_foldlM {docs : List Doc} (added : docs.foldlM (add order) s = .ok t) :
    ∀ o ∈ docs, ∃ k, order.getKeyFromObject o = .ok k := by
  induction docs generalizing s with
  | nil => simp
  | cons o docs ih =>
    rw [List.foldlM_cons, except_bind_eq_ok] at added
    obtain ⟨u, here, later⟩ := added
    refine List.forall_mem_cons.mpr ⟨?_, ih later⟩
    cases key : order.getKeyFromObject o with
    | ok k => exact ⟨k, rfl⟩
    | error => simp [add, key, Except.mapError, bind, Except.bind] at here

/-- With a limit that is not positive the first key fails. -/
theorem addKeyed_ne_ok (empty : s.best = []) (nonpos : s.limit.toInt ≤ 0) :
    s.addKeyed order e ≠ .ok t := by
  simp [addKeyed, empty, nonpos.not_gt]

/-- The loop of `fill` skips, then takes. -/
theorem fillLoop_eq {skip limit : Nat} (n nFilled : Nat) (start : s.startFrom.toInt = skip)
    (most : s.limit.toInt = limit) (more : nFilled < limit) (l : List (Key × Doc)) :
    s.fillLoop n nFilled l = ((l.drop (skip - n)).take (limit - nFilled)).map Prod.snd := by
  induction l generalizing n nFilled with
  | nil => simp [fillLoop]
  | cons e l ih =>
    rw [fillLoop, start, most]
    split_ifs with skipped last
    · have := ih (n + 1) nFilled more
      push_cast at this
      rw [this, show skip - n = skip - (n + 1) + 1 by omega, List.drop_succ_cons]
    · rw [show skip - n = 0 by omega, show limit - nFilled = 1 by omega]
      simp
    · have := ih (n + 1) (nFilled + 1) (by omega)
      push_cast at this
      rw [this, show skip - n = 0 by omega, show skip - (n + 1) = 0 by omega,
        show limit - nFilled = limit - (nFilled + 1) + 1 by omega]
      simp

/-- How many documents are to be kept. -/
def keeps (skip limit : Nat) : Int := if limit = 0 then 2 ^ 31 - 1 else skip + limit

theorem new_limit {skip limit : BitVec 32} (nonneg : 0 ≤ skip.toInt) (nonneg' : 0 ≤ limit.toInt) :
    if limit = 0 ∨ skip.toInt + limit.toInt < 2 ^ 31 then
      (new skip limit : ScanAndOrder Doc Key).limit.toInt = keeps skip.toInt.toNat limit.toInt.toNat
    else (new skip limit : ScanAndOrder Doc Key).limit.toInt ≤ 0 := by
  have bound := BitVec.toInt_lt (x := skip)
  have bound' := BitVec.toInt_lt (x := limit)
  rcases nonneg'.eq_or_lt with zero | positive
  · have none : limit = 0 := BitVec.toInt_inj.mp zero.symm
    subst none
    rfl
  · have some : limit ≠ 0 := fun zero => by simp [zero] at positive
    have count : limit.toInt.toNat ≠ 0 := by omega
    simp only [new, if_pos positive, BitVec.toInt_add, Int.bmod_def, keeps, some, count, false_or,
      if_false]
    split_ifs <;> omega

/-- What is filled in of the best entries. -/
theorem Holds.fill_eq (positive : 0 < limit.toInt) (holds : Holds order startFrom limit t past)
    (skip count : Nat) (start : startFrom.toInt = skip) (most : limit.toInt = keeps skip count)
    (few : past.length < 2 ^ 31) :
    t.fill = page skip count (past.insertionSort (NotBehind order)) := by
  obtain ⟨best, -, rfl, rfl⟩ := holds
  have loop := fillLoop_eq 0 0 start (Int.toNat_of_nonneg positive.le).symm (by omega) t.best
  rw [fill, show t.fillLoop 0 0 t.best = _ from loop, best, Nat.sub_zero, Nat.sub_zero, page,
    List.drop_take, List.take_take]
  rw [keeps] at most
  split_ifs at most ⊢ with none
  · congr
    refine List.take_of_length_le ?_
    rw [List.length_drop, List.length_insertionSort]
    omega
  · rw [show t.limit.toInt.toNat - skip = count by omega]
    congr
    omega

/-- The documents returned are those at the places asked for in the stable sort, if and only if
the keys of all documents can be found and the number of documents to keep fits into an `int`, or
there is no document to sort. -/
theorem fill_iff (order : KeyType Doc Key) (law : ComparesOn order.woCompare Set.univ)
    (skip limit : BitVec 32) (nonneg : 0 ≤ skip.toInt) (nonneg' : 0 ≤ limit.toInt) (docs : List Doc)
    (small : totalSize order (keyed order docs) < maxScanAndOrderBytes) :
    run order skip limit docs = .ok (page skip.toInt.toNat limit.toInt.toNat
        ((keyed order docs).insertionSort (NotBehind order))) ↔
      (∀ o ∈ docs, ∃ k, order.getKeyFromObject o = .ok k) ∧
        (limit = 0 ∨ skip.toInt + limit.toInt < 2 ^ 31 ∨ keyed order docs = []) := by
  have total : Std.Total (NotBehind order) := ⟨fun a b => by
    have := law.flip b.1 trivial a.1 trivial
    show order.woCompare a.1 b.1 ≤ 0 ∨ order.woCompare b.1 a.1 ≤ 0
    omega⟩
  have trans : IsTrans _ (NotBehind order) :=
    ⟨fun a b c => law.trans a.1 trivial b.1 trivial c.1 trivial⟩
  have keep := @new_limit Doc Key skip limit nonneg nonneg'
  rw [← or_assoc]
  constructor
  · intro result
    obtain ⟨t, added, -⟩ := except_bind_eq_ok.mp result
    have keys := keys_of_foldlM added
    refine ⟨keys, ?_⟩
    split_ifs at keep with fits
    · exact .inl fits
    · rw [foldlM_add_eq keys] at added
      cases entries : keyed order docs with
      | nil => exact .inr rfl
      | cons e rest =>
        rw [entries, List.foldlM_cons, except_bind_eq_ok] at added
        obtain ⟨u, first, -⟩ := added
        exact absurd first (addKeyed_ne_ok rfl keep)
  · rintro ⟨keys, fits | none⟩
    · rw [run, foldlM_add_eq keys]
      rw [if_pos fits] at keep
      have bytes : maxScanAndOrderBytes = 2 ^ 25 := rfl
      have few := (length_le_totalSize order (keyed order docs)).trans_lt small
      have positive : 0 < (new skip limit : ScanAndOrder Doc Key).limit.toInt := by
        rw [keep, keeps]
        split_ifs <;> omega
      have holds : Holds order skip (new skip limit : ScanAndOrder Doc Key).limit
          (new skip limit) [] := ⟨List.take_nil.symm, rfl, rfl, rfl⟩
      obtain ⟨t, added, holds⟩ := foldlM_addKeyed_ok (keyed order docs) positive holds small
      rw [added]
      exact congrArg Except.ok (holds.fill_eq positive _ _ (Int.toNat_of_nonneg nonneg).symm keep
        (by rw [List.nil_append]; omega))
    · rw [run, foldlM_add_eq keys, none]
      simp [page, fill, fillLoop, new, pure, Except.pure, bind, Except.bind]

/-- Numbers sorted by themselves. -/
def numbers : KeyType Nat Nat where
  getKeyFromObject n := .ok (some n)
  woCompare m n := m - n
  keySize _ := 8
  objsize _ := 8
  objsize_pos _ := by decide

theorem numbers_ordered : ComparesOn numbers.woCompare Set.univ where
  flip a _ b _ := by
    simp only [numbers]
    omega
  trans a _ b _ c _ := by
    simp only [numbers]
    omega

/-- The second and third of four numbers. -/
theorem fill_iff_second :
    run numbers 1 2 [4, 2, 3, 1] = .ok [2, 3] := by
  have iff := fill_iff numbers numbers_ordered 1 2 (by decide) (by decide) [4, 2, 3, 1] (by decide)
  exact iff.mpr ⟨fun o _ => ⟨some o, rfl⟩, .inr (.inl (by decide))⟩

/-- To skip one document and return as many as can be asked for fails. -/
theorem fill_fails : run numbers 1 0x7fffffff [1, 2] = .error .verifyFailed ∧
    page 1 0x7fffffff ((keyed numbers [1, 2]).insertionSort (NotBehind numbers)) = [2] := by
  decide

end

end ScanAndOrder

end TokuMX.Query
