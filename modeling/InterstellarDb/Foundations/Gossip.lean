import Mathlib.Data.Fintype.Card
import Mathlib.Logic.Relation

/-!
# Knowledge that spreads in rounds

Nodes know facts, and `E i j` says that `i` learns from `j`. In a round nobody forgets, and every
node learns all that the nodes it learns from knew before the round (`Round`). After `k` rounds a
node knows what all nodes within `k` hops of it knew at the start (`Rounds.spreads`).

Among finitely many nodes, whatever can be reached at all is reached within as many hops as there
are other nodes (`within_card`).
-/

namespace InterstellarDb.Gossip

variable {N α σ : Type*} {E : N → N → Prop} {i j m : N} {k : ℕ}

/-! ## Hops -/

/-- There is a chain of at most `k` edges from `i` to `j`. -/
def Within (E : N → N → Prop) : ℕ → N → N → Prop
  | 0, i, j => i = j
  | k + 1, i, j => Within E k i j ∨ ∃ m, E i m ∧ Within E k m j

theorem Within.succ (h : Within E k i j) : Within E (k + 1) i j := .inl h

theorem within_self (k : ℕ) : Within E k i i := by
  induction k with
  | zero => rfl
  | succ k ih => exact ih.succ

/-- Where a further hop reaches no new node, all that is reachable is reached. -/
theorem within_of_closed (hclosed : ∀ i, Within E (k + 1) i j → Within E k i j)
    (h : Relation.ReflTransGen E i j) : Within E k i j := by
  induction h using Relation.ReflTransGen.head_induction_on with
  | refl => exact within_self k
  | head hedge _ ih => exact hclosed _ (.inr ⟨_, hedge, ih⟩)

section Finite

variable [Fintype N]

open Classical in
/-- The nodes from which `j` is at most `k` hops away. -/
noncomputable def ball (E : N → N → Prop) (k : ℕ) (j : N) : Finset N :=
  Finset.univ.filter fun i => Within E k i j

theorem mem_ball : i ∈ ball E k j ↔ Within E k i j := by
  simp [ball]

/-- Every further hop reaches a new node, until all that is reachable is reached. -/
theorem lt_card_ball (k : ℕ) (j : N) :
    k < (ball E k j).card ∨ ∀ i, Relation.ReflTransGen E i j → i ∈ ball E k j := by
  induction k with
  | zero => exact .inl (Finset.card_pos.2 ⟨j, mem_ball.2 rfl⟩)
  | succ k ih =>
    have hsub : ball E k j ⊆ ball E (k + 1) j := fun i hi => mem_ball.2 (mem_ball.1 hi).succ
    rcases ih with ih | ih
    · rcases hsub.eq_or_ssubset with heq | hlt
      · refine .inr fun i hi => ?_
        rw [← heq, mem_ball]
        refine within_of_closed (fun m hm => ?_) hi
        rw [← mem_ball, heq, mem_ball]
        exact hm
      · exact .inl (lt_of_le_of_lt ih (Finset.card_lt_card hlt))
    · exact .inr fun i hi => hsub (ih i hi)

/-- **Among `n` nodes** all that is reachable is reached within `n - 1` hops. -/
theorem within_card (h : Relation.ReflTransGen E i j) : Within E (Fintype.card N - 1) i j := by
  rw [← mem_ball]
  rcases lt_card_ball (E := E) (Fintype.card N - 1) j with hlt | hall
  · have hcard : (ball E (Fintype.card N - 1) j).card = Fintype.card N := by
      have := Finset.card_le_univ (ball E (Fintype.card N - 1) j)
      omega
    rw [(Finset.card_eq_iff_eq_univ _).1 hcard]
    exact Finset.mem_univ i
  · exact hall i h

end Finite

/-! ## Rounds -/

/-- A round: nobody forgets, and who learns from a node knows all that this node knew. -/
structure Round (E : N → N → Prop) (known known' : N → Set α) : Prop where
  keeps : ∀ i, known i ⊆ known' i
  learns : ∀ i j, E i j → known j ⊆ known' i

/-- `k` steps of `r`, one after another. -/
inductive Rounds (r : σ → σ → Prop) : ℕ → σ → σ → Prop
  | zero (s : σ) : Rounds r 0 s s
  | succ {k : ℕ} {s s₁ s' : σ} (h : Rounds r k s s₁) (h' : r s₁ s') : Rounds r (k + 1) s s'

variable {r : σ → σ → Prop} {s s' : σ} {I : σ → Prop} {known : σ → N → Set α}

/-- **Knowledge spreads** one hop in every round. -/
theorem Rounds.spreads (hr : ∀ s s', r s s' → I s → I s' ∧ Round E (known s) (known s'))
    (h : Rounds r k s s') (hs : I s) :
    I s' ∧ ∀ i j, Within E k i j → known s j ⊆ known s' i := by
  induction h with
  | zero s =>
    refine ⟨hs, ?_⟩
    rintro i _ rfl
    exact subset_rfl
  | succ _ hround ih =>
    obtain ⟨hI, hspread⟩ := ih hs
    obtain ⟨hI', hlast⟩ := hr _ _ hround hI
    refine ⟨hI', fun i j hw => ?_⟩
    rcases hw with hw | ⟨m, hedge, hw⟩
    · exact (hspread i j hw).trans (hlast.keeps i)
    · exact (hspread m j hw).trans (hlast.learns i m hedge)

end InterstellarDb.Gossip
