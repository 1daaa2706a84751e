import Mathlib.Algebra.BigOperators.Group.Finset.Piecewise
import Mathlib.Data.Finset.Powerset
import Mathlib.Data.Finset.SymmDiff

/-!
# Folding sets into a group where every element is its own inverse

The fold of a finite set `s` of items is the sum of the digests `f a`, `a ∈ s`, in a commutative
group in which `h + h = 0` (bit strings under exclusive or). The fold does not depend on the
order in which items come and go, and two folds differ by the fold of the symmetric difference
(`sum_symmDiff`).

A family of digests is *independent* on `U` when no non-empty finite subset of `U` folds to `0`.
There a fold determines its set: equal folds are folds of equal sets
(`Independent.sum_eq_iff`).
-/

namespace InterstellarDb

/-- Groups in which every element is its own inverse. -/
class SelfInverse (H : Type*) [AddCommGroup H] : Prop where
  add_self : ∀ h : H, h + h = 0

namespace SetFold

variable {H : Type*} [AddCommGroup H] [SelfInverse H] {α : Type*}

@[simp] theorem add_self (h : H) : h + h = 0 := SelfInverse.add_self h

@[simp] theorem neg_eq (h : H) : -h = h := neg_eq_of_add_eq_zero_left (add_self h)

theorem sub_eq_add (g h : H) : g - h = g + h := by rw [sub_eq_add_neg, neg_eq]

theorem add_eq_zero {g h : H} : g + h = 0 ↔ g = h := by rw [add_eq_zero_iff_eq_neg, neg_eq]

variable [DecidableEq α] {f : α → H} {s t : Finset α} {U : Set α}

theorem sum_symmDiff (f : α → H) (s t : Finset α) :
    ∑ a ∈ symmDiff s t, f a = ∑ a ∈ s, f a + ∑ a ∈ t, f a := by
  have hs := Finset.sum_inter_add_sum_sdiff s t f
  have ht := Finset.sum_inter_add_sum_sdiff t s f
  rw [Finset.inter_comm] at ht
  rw [symmDiff, Finset.sup_eq_union, Finset.sum_union disjoint_sdiff_sdiff, ← hs, ← ht,
    add_add_add_comm, add_self, zero_add]

/-- No non-empty finite subset of `U` folds to `0`. -/
def Independent (f : α → H) (U : Set α) : Prop :=
  ∀ s : Finset α, (s : Set α) ⊆ U → s.Nonempty → ∑ a ∈ s, f a ≠ 0

omit [SelfInverse H] [DecidableEq α] in
/-- A finite set is independent when the folds of its non-empty subsets are not `0`. -/
theorem independent_coe {u : Finset α} (h : ∀ s ∈ u.powerset, s.Nonempty → ∑ a ∈ s, f a ≠ 0) :
    Independent f (u : Set α) :=
  fun s hs => h s (Finset.mem_powerset.2 (Finset.coe_subset.1 hs))

omit [SelfInverse H] [DecidableEq α] in
theorem Independent.mono {V : Set α} (h : Independent f U) (hV : V ⊆ U) : Independent f V :=
  fun s hs => h s (hs.trans hV)

omit [SelfInverse H] [DecidableEq α] in
/-- The fold of a subset of an independent set is `0` only when the subset is empty. -/
theorem Independent.sum_eq_zero_iff (h : Independent f U) (hs : (s : Set α) ⊆ U) :
    ∑ a ∈ s, f a = 0 ↔ s = ∅ := by
  constructor
  · intro h₀
    by_contra hne
    exact h s hs (Finset.nonempty_iff_ne_empty.2 hne) h₀
  · rintro rfl
    rfl

/-- **Equal folds are folds of equal sets.** -/
theorem Independent.sum_eq_iff (h : Independent f U) (hs : (s : Set α) ⊆ U)
    (ht : (t : Set α) ⊆ U) : ∑ a ∈ s, f a = ∑ a ∈ t, f a ↔ s = t := by
  have hst : ((symmDiff s t : Finset α) : Set α) ⊆ U := by
    intro a ha
    rcases Finset.mem_symmDiff.1 ha with ⟨ha, -⟩ | ⟨ha, -⟩
    · exact hs ha
    · exact ht ha
  rw [← add_eq_zero, ← sum_symmDiff, h.sum_eq_zero_iff hst]
  exact symmDiff_eq_bot

/-- Different items of an independent set have different digests. -/
theorem Independent.injOn (h : Independent f U) : Set.InjOn f U := by
  intro a ha b hb hab
  have := (h.sum_eq_iff (s := {a}) (t := {b}) (by simpa) (by simpa)).1 (by simpa)
  simpa using this

end SetFold

end InterstellarDb
