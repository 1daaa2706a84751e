import Std.Data.ExtTreeMap
import Mathlib.Algebra.BigOperators.Group.Finset.Basic
import Mathlib.Data.List.Perm.Basic

/-!
# Entries of ordered maps

The entries of an ordered map, in ascending key order, as a list: sums over them are sums over
the keys (`sum_toList`), from which terms that are `0` may be left out (`sum_map_filter`), and two
lists of entries in strictly ascending order with the same members are equal (`eq_of_ascending`).
-/

namespace InterstellarDb.MapList

open Std

variable {κ ν : Type*} {cmp : κ → κ → Ordering} [TransCmp cmp]

/-- The keys of a list of entries strictly ascend. -/
def Ascending (cmp : κ → κ → Ordering) (l : List (κ × ν)) : Prop :=
  l.Pairwise fun a b => cmp a.1 b.1 = .lt

theorem ascending_toList (m : ExtTreeMap κ ν cmp) : Ascending cmp m.toList :=
  ExtTreeMap.ordered_keys_toList

omit [TransCmp cmp] in
theorem Ascending.filter {l : List (κ × ν)} (h : Ascending cmp l) (q : κ × ν → Bool) :
    Ascending cmp (l.filter q) :=
  List.Pairwise.filter q h

theorem Ascending.nodup {l : List (κ × ν)} (h : Ascending cmp l) : l.Nodup := by
  refine List.Pairwise.imp (fun {a b} hab heq => ?_) h
  rw [heq, show cmp b.1 b.1 = .eq from ReflCmp.compare_self] at hab
  cases hab

/-- **Ascending lists with the same members are equal.** -/
theorem eq_of_ascending {l m : List (κ × ν)} (hl : Ascending cmp l) (hm : Ascending cmp m)
    (h : ∀ x, x ∈ l ↔ x ∈ m) : l = m := by
  refine List.Perm.eq_of_pairwise (fun a b _ _ hab hba => ?_) hl hm
    ((List.perm_ext_iff_of_nodup hl.nodup hm.nodup).2 h)
  exact absurd hba (OrientedCmp.not_lt_of_lt hab)

/-- Terms that are `0` may be left out of a sum. -/
theorem sum_map_filter {α M : Type*} [AddMonoid M] {p : α → Prop} [DecidablePred p] {f : α → M}
    {l : List α} (h : ∀ x ∈ l, ¬ p x → f x = 0) :
    ((l.filter fun x => p x).map f).sum = (l.map f).sum := by
  induction l with
  | nil => rfl
  | cons x l ih =>
    have hrest := ih fun y hy => h y (List.mem_cons_of_mem _ hy)
    rw [List.filter_cons, List.map_cons, List.sum_cons, ← hrest]
    by_cases hx : p x
    · rw [if_pos (decide_eq_true hx), List.map_cons, List.sum_cons]
    · rw [if_neg (by simpa using hx), h x (List.mem_cons_self ..) hx, zero_add]

variable [LawfulEqCmp cmp] {M : Type*} [AddCommMonoid M]

/-- A sum over the entries is a sum over any set of keys that has those of its terms. -/
theorem sum_toList (m : ExtTreeMap κ ν cmp) (g : κ → ν → M) {K : Finset κ}
    (hK : ∀ k v, m[k]? = some v → g k v ≠ 0 → k ∈ K) :
    (m.toList.map fun x => g x.1 x.2).sum = ∑ k ∈ K, (m[k]?).elim 0 (g k) := by
  classical
  rw [← List.sum_toFinset _ (ascending_toList m).nodup]
  have hmem : ∀ {x : κ × ν}, x ∈ m.toList.toFinset ↔ m[x.1]? = some x.2 := by
    intro x
    rw [List.mem_toFinset, ExtTreeMap.mem_toList_iff_getElem?_eq_some]
  refine Finset.sum_bij_ne_zero (fun x _ _ => x.1) ?_ ?_ ?_ ?_
  · intro x hx hne
    exact hK x.1 x.2 (hmem.1 hx) hne
  · intro x hx _ y hy _ hxy
    have hx' := hmem.1 hx
    rw [hxy, hmem.1 hy] at hx'
    exact Prod.ext hxy (Option.some.inj hx').symm
  · intro k _ hne
    cases hk : m[k]? with
    | none => simp [hk] at hne
    | some v =>
      rw [hk] at hne
      exact ⟨(k, v), hmem.2 hk, hne, rfl⟩
  · intro x hx _
    rw [hmem.1 hx]
    rfl

end InterstellarDb.MapList
