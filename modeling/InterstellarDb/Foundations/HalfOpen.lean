import Mathlib.Data.List.Basic

/-!
# Half-open ranges in order

A list of half-open ranges `(start, end)` over an ordered type that lie one after the other. A point
is in at most one of them (`Ordered.disjoint`), so the number of ranges that have a point is one or
zero (`Ordered.countP_mem`).
-/

namespace InterstellarDb.HalfOpen

open Std

variable {α : Type*} [Ord α]

/-- The point is in the range: not before the start, and before the end. -/
def Mem (r : α × α) (x : α) : Prop := (compare r.1 x).isLE ∧ compare x r.2 = .lt

instance (r : α × α) (x : α) : Decidable (Mem r x) := inferInstanceAs (Decidable (_ ∧ _))

/-- The ranges are not empty, and each ends before the later ones start. -/
structure Ordered (ranges : List (α × α)) : Prop where
  proper : ∀ r ∈ ranges, compare r.1 r.2 = .lt
  ascending : ranges.Pairwise fun a b => compare a.2 b.1 = .lt

theorem ordered_singleton {r : α × α} (h : compare r.1 r.2 = .lt) : Ordered [r] :=
  ⟨fun a ha => by rwa [List.mem_singleton.1 ha], List.pairwise_singleton _ _⟩

theorem ordered_nil : Ordered ([] : List (α × α)) :=
  ⟨fun _ hr => absurd hr List.not_mem_nil, List.Pairwise.nil⟩

/-- Ordered ranges after others that end before they start. -/
theorem Ordered.append {l m : List (α × α)} (hl : Ordered l) (hm : Ordered m)
    (h : ∀ a ∈ l, ∀ b ∈ m, compare a.2 b.1 = .lt) : Ordered (l ++ m) := by
  refine ⟨fun r hr => ?_, List.pairwise_append.2 ⟨hl.ascending, hm.ascending, h⟩⟩
  rcases List.mem_append.1 hr with hr | hr
  · exact hl.proper r hr
  · exact hm.proper r hr

variable [TransOrd α]

/-- **No point is in two ranges.** -/
theorem Ordered.disjoint {ranges : List (α × α)} (h : Ordered ranges) :
    ranges.Pairwise fun a b => ∀ x, Mem a x → ¬ Mem b x := by
  refine h.ascending.imp fun {a b} hab x ha hb => ?_
  have hlt : compare x x = .lt :=
    TransCmp.lt_of_lt_of_isLE (TransCmp.lt_trans ha.2 hab) hb.1
  rw [show compare x x = .eq from ReflCmp.compare_self] at hlt
  cases hlt

/-- **The number of ranges that have a point.** -/
theorem Ordered.countP_mem {ranges : List (α × α)} (h : Ordered ranges) (x : α)
    [Decidable (∃ r ∈ ranges, Mem r x)] :
    ranges.countP (fun r => Mem r x) = if ∃ r ∈ ranges, Mem r x then 1 else 0 := by
  have hle : (ranges.filter fun r => Mem r x).length ≤ 1 := by
    have hpair := h.disjoint.filter fun r => decide (Mem r x)
    have hmem : ∀ r ∈ ranges.filter fun r => decide (Mem r x), Mem r x :=
      fun r hr => of_decide_eq_true (List.mem_filter.1 hr).2
    match ranges.filter fun r => decide (Mem r x), hpair, hmem with
    | [], _, _ => exact Nat.zero_le _
    | [a], _, _ => exact Nat.le_refl _
    | a :: b :: rest, hpair, hmem =>
      have hab := (List.pairwise_cons.1 hpair).1 b (by simp) x (hmem a (by simp))
      exact absurd (hmem b (by simp)) hab
  rw [← List.countP_eq_length_filter] at hle
  have hpos : 0 < ranges.countP (fun r => Mem r x) ↔ ∃ r ∈ ranges, Mem r x := by
    simp only [List.countP_pos_iff, decide_eq_true_eq]
  split_ifs with hex
  · have := hpos.2 hex
    omega
  · have := mt hpos.1 hex
    omega

end InterstellarDb.HalfOpen
