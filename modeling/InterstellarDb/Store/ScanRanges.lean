import InterstellarDb.Store.Open

/-!
# The ranges of the rebuild scan

`checkedScanRanges` is the loop of `unsealed_scan_ranges` as the source writes it: a cursor that is
missing once the last epoch is passed, and an `expect` on it in every round.

* The cursor is there whenever it is asked for (`checkedScanRanges_eq`).
* The ranges partition the keys of the epochs that are not sealed
  (`unsealedScanRanges_partition`).
-/

namespace InterstellarDb

open Std (ExtTreeSet)

/-- The loop over the sealed epochs: the cursor and the ranges so far. No result where the source
expects a cursor and there is none. -/
def scanRangesLoop (cursor : Option Epoch) (ranges : List (Bytes × Bytes)) :
    List Epoch → Option (Option Epoch × List (Bytes × Bytes))
  | [] => some (cursor, ranges)
  | e :: rest => do
    let start ← cursor
    let ranges := if start < e then ranges ++ [(epochStart start, epochStart e)] else ranges
    match checkedSucc e with
    -- `break`
    | none => some (none, ranges)
    | some next => scanRangesLoop (some next) ranges rest

/-- `unsealed_scan_ranges` with its cursor checked. -/
def checkedScanRanges (sealed : ExtTreeSet Epoch) : Option (List (Bytes × Bytes)) := do
  let (cursor, ranges) ← scanRangesLoop (some 0) [] sealed.toList
  match cursor with
  | some start => return ranges ++ [(epochStart start, List.replicate 21 0xFF)]
  | none => return ranges

/-- From a cursor on, the loop adds the ranges of `scanRangesFrom`, the tail apart. -/
theorem scanRangesLoop_some (start : Epoch) (ranges : List (Bytes × Bytes)) (l : List Epoch) :
    ∃ cursor more, scanRangesLoop (some start) ranges l = some (cursor, more) ∧
      ranges ++ scanRangesFrom start l = match cursor with
        | some last => more ++ [(epochStart last, List.replicate 21 0xFF)]
        | none => more := by
  induction l generalizing start ranges with
  | nil => exact ⟨some start, ranges, rfl, rfl⟩
  | cons e l ih =>
    have hhead : (if start < e then ranges ++ [(epochStart start, epochStart e)] else ranges) =
        ranges ++ if start < e then [(epochStart start, epochStart e)] else [] := by
      split_ifs
      · rfl
      · rw [List.append_nil]
    simp only [scanRangesLoop, scanRangesFrom, Option.bind_eq_bind, Option.bind_some, hhead]
    cases hc : checkedSucc e with
    | none => exact ⟨none, _, rfl, by rw [List.append_nil]⟩
    | some next =>
      obtain ⟨cursor, more, hloop, heq⟩ := ih next
        (ranges ++ if start < e then [(epochStart start, epochStart e)] else [])
      exact ⟨cursor, more, hloop, by rw [← heq, List.append_assoc]⟩

/-- **The cursor is there whenever it is asked for**, and the epoch counter never overflows. -/
theorem checkedScanRanges_eq (sealed : ExtTreeSet Epoch) :
    checkedScanRanges sealed = some (unsealedScanRanges sealed) := by
  obtain ⟨cursor, ranges, hloop, heq⟩ := scanRangesLoop_some 0 [] sealed.toList
  rw [List.nil_append] at heq
  rw [checkedScanRanges, hloop, unsealedScanRanges, heq]
  cases cursor with
  | none => rfl
  | some start => rfl

/-- **The scanned ranges partition the keyspace.** The loop returns ranges that are not empty and
lie in ascending order without overlap, and a key is in exactly one of them when its epoch is not
sealed, in none when it is. -/
theorem unsealedScanRanges_partition (sealed : ExtTreeSet Epoch) :
    let ranges := unsealedScanRanges sealed
    checkedScanRanges sealed = some ranges ∧
      (∀ k : Key, ranges.countP (fun r => HalfOpen.Mem r k.bytes) =
        if k.epoch ∈ sealed then 0 else 1) ∧
      (∀ r ∈ ranges, compare r.1 r.2 = .lt) ∧
      (ranges.Pairwise fun a b => compare a.2 b.1 = .lt) ∧
      (ranges.Pairwise fun a b => ∀ x, HalfOpen.Mem a x → ¬ HalfOpen.Mem b x) := by
  have hsorted := pairwise_toList sealed
  have hzero : ∀ e ∈ sealed.toList, (0 : Epoch) ≤ e := fun e _ => Fin.zero_le e
  have hordered : HalfOpen.Ordered (unsealedScanRanges sealed) :=
    ordered_scanRangesFrom hsorted hzero
  refine ⟨checkedScanRanges_eq sealed, fun k => ?_, hordered.proper, hordered.ascending,
    hordered.disjoint⟩
  have hex : (∃ r ∈ unsealedScanRanges sealed, HalfOpen.Mem r k.bytes) ↔ k.epoch ∉ sealed := by
    have h := exists_inScan hsorted hzero k
    rw [ExtTreeSet.mem_toList] at h
    exact h.trans (and_iff_right (Fin.zero_le _))
  have : Decidable (∃ r ∈ unsealedScanRanges sealed, HalfOpen.Mem r k.bytes) :=
    decidable_of_iff _ hex.symm
  rw [hordered.countP_mem k.bytes]
  split_ifs with h₁ h₂ h₂
  · exact absurd h₂ (hex.1 h₁)
  · rfl
  · rfl
  · exact absurd (hex.2 h₂) h₁

end InterstellarDb
