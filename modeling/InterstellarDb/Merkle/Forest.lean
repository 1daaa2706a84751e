import Mathlib.Algebra.BigOperators.Ring.Finset
import InterstellarDb.Foundations.GreatestWins
import InterstellarDb.Foundations.MapList
import InterstellarDb.Merkle.Tree

/-!
# The Merkle forest

A Merkle octree per macro epoch. `insert` folds a row in and `remove` folds one out of a tree
that is present; each changes the cells of its key by one digest (`nodeHash_insert`,
`nodeHash_remove`) and the count of its epoch by one (`count_insert`, `count_remove`).

`FoldOf f rows` says that the forest `f` is the fold of a set of rows: its node hashes are the
folds of the cells and its counts the numbers of rows. Such forests have the length and the epoch
roots that the rows give (`FoldOf.len`, `epochRoots_congr`).
-/

namespace InterstellarDb

open Std

/-- `MerkleForest`: a Merkle octree per macro epoch. -/
structure MerkleForest (L : LeafDepth) where
  trees : ExtTreeMap Epoch (EpochTree L)

namespace MerkleForest

variable {L : LeafDepth}

/-- `MerkleForest::new`. -/
def new (L : LeafDepth) : MerkleForest L := ⟨∅⟩

/-- `MerkleForest::leaf_depth_bits`. -/
def leafDepthBits (_ : MerkleForest L) : ℕ := L.bits

/-- `MerkleForest::len`: the counts of all epochs, added up in `u64`. -/
def len (f : MerkleForest L) : BitVec 64 := (f.trees.toList.map fun x => x.2.count).sum

/-- `MerkleForest::epochs`: all epochs with a tree present. -/
def epochs (f : MerkleForest L) : List Epoch := f.trees.toList.map Prod.fst

/-- `MerkleForest::epoch_roots`: the root hash of each epoch that has a non-zero one. -/
def epochRoots (f : MerkleForest L) : List (Epoch × NodeHash) :=
  (f.trees.toList.filter fun x => x.2.root ≠ 0).map fun x => (x.1, x.2.root)

/-- `MerkleForest::node_hash`; the source refuses other depths than the valid ones. -/
def nodeHash (f : MerkleForest L) (epoch : Epoch) (depthBits p : ℕ) : NodeHash :=
  (f.trees[epoch]?).elim 0 fun t => t.nodeHash depthBits p

/-- `MerkleForest::child_hashes`: the non-empty children of a cell. -/
def childHashes (f : MerkleForest L) (epoch : Epoch) (depthBits p : ℕ) : List (ℕ × NodeHash) :=
  (List.range 8).filterMap fun c =>
    let q := childPrefix depthBits p c
    let h := f.nodeHash epoch (depthBits + 3) q
    if h ≠ 0 then some (q, h) else none

section Fold

variable [Sha256]

/-- `MerkleForest::insert`: fold an item in. -/
def insert (f : MerkleForest L) (key : Key) (payload : Bytes) : MerkleForest L :=
  let (epoch, morton) := splitKey key
  let digest := itemDigest key payload
  let tree := (f.trees.getD epoch (.new L)).toggle morton digest
  ⟨f.trees.insert epoch (tree.setCount (tree.count + 1))⟩

/-- `MerkleForest::remove`: fold an item back out, when its epoch has a tree. -/
def remove (f : MerkleForest L) (key : Key) (payload : Bytes) : MerkleForest L :=
  let (epoch, morton) := splitKey key
  let digest := itemDigest key payload
  match f.trees[epoch]? with
  | none => f
  | some tree =>
    let tree := tree.toggle morton digest
    -- `saturating_sub`
    ⟨f.trees.insert epoch (tree.setCount (if tree.count = 0 then 0 else tree.count - 1))⟩

end Fold

/-! ## The tree of an epoch -/

/-- The tree of an epoch, an empty one when there is none. -/
def tree (f : MerkleForest L) (e : Epoch) : EpochTree L := f.trees.getD e (.new L)

/-- The number of items folded in for an epoch. -/
def count (f : MerkleForest L) (e : Epoch) : BitVec 64 := (f.tree e).count

theorem nodeHash_eq (f : MerkleForest L) (e : Epoch) (d p : ℕ) :
    f.nodeHash e d p = (f.tree e).nodeHash d p := by
  rw [nodeHash, tree, ExtTreeMap.getD_eq_getD_getElem?]
  cases f.trees[e]? with
  | none => simp
  | some t => rfl

theorem tree_of_getElem? {f : MerkleForest L} {e : Epoch} {t : EpochTree L}
    (h : f.trees[e]? = some t) : f.tree e = t := by
  rw [tree, ExtTreeMap.getD_eq_getD_getElem?, h, Option.getD_some]

theorem tree_insert_trees (f : MerkleForest L) (e e' : Epoch) (t : EpochTree L) :
    (MerkleForest.mk (f.trees.insert e t)).tree e' = if e = e' then t else f.tree e' := by
  simp only [tree, ExtTreeMap.getD_insert, LawfulEqCmp.compare_eq_iff_eq]

@[simp] theorem nodeHash_new (e : Epoch) (d p : ℕ) : (new L).nodeHash e d p = 0 := by
  simp [nodeHash, new]

@[simp] theorem count_new (e : Epoch) : (new L).count e = 0 := by
  simp [count, tree, new]

/-- An epoch with a non-zero count has a tree. -/
theorem exists_tree_of_count_ne_zero {f : MerkleForest L} {e : Epoch} (h : f.count e ≠ 0) :
    ∃ t, f.trees[e]? = some t := by
  cases ht : f.trees[e]? with
  | none => exact absurd (by simp [count, tree, ExtTreeMap.getD_eq_getD_getElem?, ht]) h
  | some t => exact ⟨t, rfl⟩

/-- An epoch with a non-zero node hash has a tree. -/
theorem exists_tree_of_nodeHash_ne_zero {f : MerkleForest L} {e : Epoch} {d p : ℕ}
    (h : f.nodeHash e d p ≠ 0) : ∃ t, f.trees[e]? = some t := by
  cases ht : f.trees[e]? with
  | none => exact absurd (by simp [nodeHash, ht]) h
  | some t => exact ⟨t, rfl⟩

theorem mem_epochs {f : MerkleForest L} {e : Epoch} : e ∈ f.epochs ↔ ∃ t, f.trees[e]? = some t := by
  simp only [epochs, List.mem_map, Prod.exists, ExtTreeMap.mem_toList_iff_getElem?_eq_some]
  constructor
  · rintro ⟨_, t, h, rfl⟩
    exact ⟨t, h⟩
  · rintro ⟨t, h⟩
    exact ⟨e, t, h, rfl⟩

/-- The epochs come in ascending order. -/
theorem pairwise_epochs (f : MerkleForest L) : f.epochs.Pairwise (· < ·) := by
  rw [epochs, List.pairwise_map]
  exact (MapList.ascending_toList f.trees).imp fun h => compare_lt_iff_lt.1 h

/-! ## Roots and children -/

theorem mem_epochRoots {f : MerkleForest L} {e : Epoch} {h : NodeHash} :
    (e, h) ∈ f.epochRoots ↔ h ≠ 0 ∧ f.nodeHash e 0 0 = h := by
  simp only [epochRoots, List.mem_map, List.mem_filter, decide_eq_true_eq, Prod.exists,
    Prod.mk.injEq, ExtTreeMap.mem_toList_iff_getElem?_eq_some]
  constructor
  · rintro ⟨_, t, ⟨ht, h₀⟩, rfl, rfl⟩
    exact ⟨h₀, by rw [nodeHash, ht, Option.elim_some, EpochTree.nodeHash_zero]⟩
  · rintro ⟨h₀, rfl⟩
    obtain ⟨t, ht⟩ := exists_tree_of_nodeHash_ne_zero h₀
    have hr : f.nodeHash e 0 0 = t.root := by
      rw [nodeHash, ht, Option.elim_some, EpochTree.nodeHash_zero]
    rw [hr] at h₀
    exact ⟨e, t, ⟨ht, h₀⟩, rfl, hr.symm⟩

theorem ascending_epochRoots (f : MerkleForest L) : MapList.Ascending compare f.epochRoots := by
  unfold epochRoots MapList.Ascending
  rw [List.pairwise_map]
  exact (MapList.ascending_toList f.trees).filter _

/-- Forests with the same root hashes have the same epoch roots. -/
theorem epochRoots_congr {L' : LeafDepth} {f : MerkleForest L} {g : MerkleForest L'}
    (h : ∀ e, f.nodeHash e 0 0 = g.nodeHash e 0 0) : f.epochRoots = g.epochRoots := by
  refine MapList.eq_of_ascending f.ascending_epochRoots g.ascending_epochRoots fun x => ?_
  obtain ⟨e, r⟩ := x
  rw [mem_epochRoots, mem_epochRoots, h]

theorem childHashes_eq (f : MerkleForest L) (e : Epoch) (d p : ℕ) :
    f.childHashes e d p = (((List.range 8).map (childPrefix d p)).filter fun q =>
      f.nodeHash e (d + 3) q ≠ 0).map fun q => (q, f.nodeHash e (d + 3) q) := by
  rw [childHashes]
  induction List.range 8 with
  | nil => rfl
  | cons c l ih =>
    rw [List.filterMap_cons, ih, List.map_cons, List.filter_cons]
    by_cases h₀ : f.nodeHash e (d + 3) (childPrefix d p c) = 0
    · simp [h₀]
    · simp [h₀]

theorem mem_childHashes {f : MerkleForest L} {e : Epoch} {d p q : ℕ} {h : NodeHash} :
    (q, h) ∈ f.childHashes e d p ↔
      ∃ c < 8, q = childPrefix d p c ∧ h ≠ 0 ∧ f.nodeHash e (d + 3) q = h := by
  simp only [childHashes, List.mem_filterMap, List.mem_range, Option.ite_none_right_eq_some,
    Option.some.injEq, Prod.mk.injEq]
  constructor
  · rintro ⟨c, hc, h₀, rfl, rfl⟩
    exact ⟨c, hc, rfl, h₀, rfl⟩
  · rintro ⟨c, hc, rfl, h₀, rfl⟩
    exact ⟨c, hc, h₀, rfl, rfl⟩

/-- **A parent is the exclusive or of its children.** -/
theorem sum_childHashes (f : MerkleForest L) (e : Epoch) {d p : ℕ} (hd : L.Valid (d + 3))
    (hp : IsPrefix d p) : ((f.childHashes e d p).map Prod.snd).sum = f.nodeHash e d p := by
  have hzero : ∀ q ∈ (List.range 8).map (childPrefix d p), ¬ f.nodeHash e (d + 3) q ≠ 0 →
      f.nodeHash e (d + 3) q = 0 := fun q _ hq => not_not.1 hq
  rw [childHashes_eq, List.map_map]
  apply (MapList.sum_map_filter hzero).trans
  rw [List.map_map, nodeHash_eq, ← EpochTree.sum_nodeHash_childPrefix _ hd hp, Finset.sum,
    Finset.range_val, Multiset.range, Multiset.map_coe, Multiset.sum_coe]
  simp only [Function.comp_def, nodeHash_eq]

theorem len_eq_sum (f : MerkleForest L) : f.len = ∑ e, f.count e := by
  rw [len, MapList.sum_toList f.trees (fun _ t => t.count) (K := Finset.univ) (by simp)]
  refine Finset.sum_congr rfl fun e _ => ?_
  rw [count, tree, ExtTreeMap.getD_eq_getD_getElem?]
  cases f.trees[e]? with
  | none => rfl
  | some t => rfl

/-! ## What `insert` and `remove` change -/

variable [Sha256]

theorem tree_insert (f : MerkleForest L) (k : Key) (v : Bytes) (e : Epoch) :
    (f.insert k v).tree e =
      if k.epoch = e then
        ((f.tree e).toggle (splitKey k).2 (itemDigest k v)).setCount ((f.tree e).count + 1)
      else f.tree e := by
  unfold insert
  rw [tree_insert_trees]
  by_cases h : k.epoch = e
  · subst h
    rfl
  · rw [if_neg h]
    exact if_neg h

theorem nodeHash_insert (f : MerkleForest L) (k : Key) (v : Bytes) (e : Epoch) {d p : ℕ}
    (hd : L.Valid d) (hp : IsPrefix d p) :
    (f.insert k v).nodeHash e d p =
      f.nodeHash e d p + if InCell e d p k then itemDigest k v else 0 := by
  rw [nodeHash_eq, nodeHash_eq, tree_insert]
  by_cases h : k.epoch = e
  · rw [if_pos h, EpochTree.nodeHash_setCount, EpochTree.nodeHash_toggle _ _ _ hd hp]
    simp only [InCell, h, true_and, splitKey]
  · simp [InCell, h]

theorem count_insert (f : MerkleForest L) (k : Key) (v : Bytes) (e : Epoch) :
    (f.insert k v).count e = f.count e + if k.epoch = e then 1 else 0 := by
  rw [count, count, tree_insert]
  by_cases h : k.epoch = e
  · rw [if_pos h, if_pos h, EpochTree.count_setCount]
  · rw [if_neg h, if_neg h, add_zero]

theorem tree_remove {f : MerkleForest L} {k : Key} (hk : ∃ t, f.trees[k.epoch]? = some t)
    (v : Bytes) (e : Epoch) :
    (f.remove k v).tree e =
      if k.epoch = e then
        ((f.tree e).toggle (splitKey k).2 (itemDigest k v)).setCount
          (if (f.tree e).count = 0 then 0 else (f.tree e).count - 1)
      else f.tree e := by
  obtain ⟨t, ht⟩ := hk
  have hr : f.remove k v = ⟨f.trees.insert k.epoch
      ((t.toggle (splitKey k).2 (itemDigest k v)).setCount
        (if t.count = 0 then 0 else t.count - 1))⟩ := by
    simp only [remove, splitKey, ht, EpochTree.count_toggle]
    rfl
  rw [hr, tree_insert_trees]
  by_cases h : k.epoch = e
  · rw [if_pos h, if_pos h, ← h, tree_of_getElem? ht]
  · rw [if_neg h, if_neg h]

/-- Without a tree for its epoch, `remove` does nothing. -/
theorem remove_of_none {f : MerkleForest L} {k : Key} (hk : f.trees[k.epoch]? = none) (v : Bytes) :
    f.remove k v = f := by
  simp only [remove, splitKey, hk]

theorem nodeHash_remove {f : MerkleForest L} {k : Key} (hk : ∃ t, f.trees[k.epoch]? = some t)
    (v : Bytes) (e : Epoch) {d p : ℕ} (hd : L.Valid d) (hp : IsPrefix d p) :
    (f.remove k v).nodeHash e d p =
      f.nodeHash e d p + if InCell e d p k then itemDigest k v else 0 := by
  rw [nodeHash_eq, nodeHash_eq, tree_remove hk]
  by_cases h : k.epoch = e
  · rw [if_pos h, EpochTree.nodeHash_setCount, EpochTree.nodeHash_toggle _ _ _ hd hp]
    simp only [InCell, h, true_and, splitKey]
  · simp [InCell, h]

theorem count_remove {f : MerkleForest L} {k : Key} (hk : f.count k.epoch ≠ 0) (v : Bytes)
    (e : Epoch) : (f.remove k v).count e = f.count e - if k.epoch = e then 1 else 0 := by
  rw [count, count, tree_remove (exists_tree_of_count_ne_zero hk)]
  by_cases h : k.epoch = e
  · subst h
    rw [if_pos rfl, if_pos rfl, EpochTree.count_setCount]
    exact if_neg hk
  · rw [if_neg h, if_neg h, sub_zero]

/-- Fold in a list of rows. -/
def insertAll (f : MerkleForest L) (l : List Row) : MerkleForest L :=
  l.foldl (fun f r => f.insert r.1 r.2) f

theorem nodeHash_insertAll (f : MerkleForest L) {l : List Row} (hl : l.Nodup) (e : Epoch) {d p : ℕ}
    (hd : L.Valid d) (hp : IsPrefix d p) :
    (f.insertAll l).nodeHash e d p = f.nodeHash e d p + cellHash l.toFinset e d p := by
  induction l generalizing f with
  | nil => simp [insertAll, cellHash]
  | cons r l ih =>
    obtain ⟨hr, hl⟩ := List.nodup_cons.1 hl
    have hcons : f.insertAll (r :: l) = (f.insert r.1 r.2).insertAll l := rfl
    have hmem : r ∉ l.toFinset := by simpa using hr
    rw [hcons, ih _ hl, f.nodeHash_insert r.1 r.2 e hd hp, List.toFinset_cons, cellHash, cellHash,
      Finset.sum_filter, Finset.sum_filter, Finset.sum_insert hmem, add_assoc]

theorem count_insertAll (f : MerkleForest L) {l : List Row} (hl : l.Nodup) (e : Epoch) :
    (f.insertAll l).count e =
      f.count e + ((l.toFinset.filter fun r => r.1.epoch = e).card : BitVec 64) := by
  induction l generalizing f with
  | nil => simp [insertAll]
  | cons r l ih =>
    obtain ⟨hr, hl⟩ := List.nodup_cons.1 hl
    have hcons : f.insertAll (r :: l) = (f.insert r.1 r.2).insertAll l := rfl
    have hmem : r ∉ l.toFinset.filter fun r => r.1.epoch = e := by simp [hr]
    rw [hcons, ih _ hl, f.count_insert, List.toFinset_cons, Finset.filter_insert, add_assoc]
    congr 1
    by_cases h : r.1.epoch = e
    · rw [if_pos h, if_pos h, Finset.card_insert_of_notMem hmem, Nat.cast_add, add_comm]
      rfl
    · rw [if_neg h, if_neg h, zero_add]

end MerkleForest

/-! ## Folds of rows -/

/-- The number of rows of an epoch. -/
def epochCount (rows : Finset Row) (e : Epoch) : ℕ := (rows.filter fun r => r.1.epoch = e).card

variable {L : LeafDepth} [Sha256]

/-- The forest has the node hashes of the rows. -/
def Hashes (f : MerkleForest L) (rows : Finset Row) : Prop :=
  ∀ e d p, L.Valid d → IsPrefix d p → f.nodeHash e d p = cellHash rows e d p

/-- The forest has the item counts of the rows. -/
def Counts (f : MerkleForest L) (rows : Finset Row) : Prop :=
  ∀ e, f.count e = (epochCount rows e : BitVec 64)

/-- The forest is the fold of the rows: it has their node hashes and their counts. -/
structure FoldOf (f : MerkleForest L) (rows : Finset Row) : Prop where
  hashes : Hashes f rows
  counts : Counts f rows

omit [Sha256] in
/-- The length of a forest with the counts of the rows is their number. -/
theorem Counts.len {f : MerkleForest L} {rows : Finset Row} (h : Counts f rows) :
    f.len = (rows.card : BitVec 64) := by
  rw [f.len_eq_sum, Finset.sum_congr rfl fun e _ => h e, ← Nat.cast_sum]
  unfold epochCount
  rw [← Finset.card_eq_sum_card_fiberwise]
  intro r _
  simp

theorem cellHash_eq_sum (rows : Finset Row) (e : Epoch) (d p : ℕ) :
    cellHash rows e d p = ∑ r ∈ rows, if InCell e d p r.1 then rowDigest r else 0 :=
  Finset.sum_filter _ _

omit [Sha256] in
theorem cast_epochCount (rows : Finset Row) (e : Epoch) :
    (epochCount rows e : BitVec 64) = ∑ r ∈ rows, if r.1.epoch = e then 1 else 0 := by
  rw [epochCount, Finset.card_filter, Nat.cast_sum]
  exact Finset.sum_congr rfl fun r _ => by split_ifs <;> rfl

/-- Inserting rows one by one gives their fold. -/
theorem foldOf_insertAll {l : List Row} (hl : l.Nodup) :
    FoldOf ((MerkleForest.new L).insertAll l) l.toFinset := by
  constructor
  · intro e d p hd hp
    rw [MerkleForest.nodeHash_insertAll _ hl e hd hp, MerkleForest.nodeHash_new, zero_add]
  · intro e
    rw [MerkleForest.count_insertAll _ hl e, MerkleForest.count_new, zero_add, epochCount]

section Write

open GreatestWins

variable {f : MerkleForest L} {m : Key → Option Bytes} {s t : Finset Row} {k : Key} {v c : Bytes}

theorem cellHash_update (hs : Rows m s) (ht : Rows (Function.update m k (some v)) t) (e : Epoch)
    (d p : ℕ) :
    cellHash t e d p = cellHash s e d p +
      if InCell e d p k then (m k).elim 0 (itemDigest k) + itemDigest k v else 0 := by
  rw [cellHash_eq_sum, cellHash_eq_sum, hs.sum_update ht, SetFold.sub_eq_add, add_assoc]
  congr 1
  by_cases h : InCell e d p k
  · simp only [if_pos h]
  · simp only [if_neg h, add_zero]
    cases m k <;> rfl

omit [Sha256] in
theorem cast_epochCount_update (hs : Rows m s) (ht : Rows (Function.update m k (some v)) t)
    (e : Epoch) :
    (epochCount t e : BitVec 64) = (epochCount s e : BitVec 64) +
      if k.epoch = e ∧ m k = none then 1 else 0 := by
  rw [cast_epochCount, cast_epochCount, hs.sum_update ht, sub_add_eq_add_sub, add_sub_assoc]
  congr 1
  by_cases h : k.epoch = e
  · cases m k <;> simp [h]
  · cases m k <;> simp [h]

/-- Folding a row in under a fresh key. -/
theorem Hashes.insert (hf : Hashes f s) (hs : Rows m s)
    (ht : Rows (Function.update m k (some v)) t) (hk : m k = none) : Hashes (f.insert k v) t := by
  intro e d p hd hp
  rw [f.nodeHash_insert k v e hd hp, hf e d p hd hp, cellHash_update hs ht, hk, Option.elim_none,
    zero_add]

/-- Folding the row of a key out and another one in, when the epoch has a tree. -/
theorem Hashes.replace (hf : Hashes f s) (hs : Rows m s)
    (ht : Rows (Function.update m k (some v)) t) (hk : m k = some c)
    (htree : ∃ t, f.trees[k.epoch]? = some t) : Hashes ((f.remove k c).insert k v) t := by
  intro e d p hd hp
  rw [MerkleForest.nodeHash_insert _ k v e hd hp, MerkleForest.nodeHash_remove htree c e hd hp,
    hf e d p hd hp, cellHash_update hs ht, hk, Option.elim_some, add_assoc]
  congr 1
  split_ifs
  · rfl
  · rfl

theorem Counts.insert (hf : Counts f s) (hs : Rows m s)
    (ht : Rows (Function.update m k (some v)) t) (hk : m k = none) : Counts (f.insert k v) t := by
  intro e
  rw [f.count_insert, hf e, cast_epochCount_update hs ht]
  simp only [hk, and_true]

theorem Counts.replace (hf : Counts f s) (hs : Rows m s)
    (ht : Rows (Function.update m k (some v)) t) (hk : m k = some c)
    (hc : f.count k.epoch ≠ 0) : Counts ((f.remove k c).insert k v) t := by
  intro e
  rw [MerkleForest.count_insert, MerkleForest.count_remove hc, hf e, cast_epochCount_update hs ht]
  simp [hk]

theorem FoldOf.insert (hf : FoldOf f s) (hs : Rows m s)
    (ht : Rows (Function.update m k (some v)) t) (hk : m k = none) : FoldOf (f.insert k v) t :=
  ⟨hf.hashes.insert hs ht hk, hf.counts.insert hs ht hk⟩

theorem FoldOf.replace (hf : FoldOf f s) (hs : Rows m s)
    (ht : Rows (Function.update m k (some v)) t) (hk : m k = some c)
    (hc : f.count k.epoch ≠ 0) : FoldOf ((f.remove k c).insert k v) t :=
  ⟨hf.hashes.replace hs ht hk (MerkleForest.exists_tree_of_count_ne_zero hc),
    hf.counts.replace hs ht hk hc⟩

end Write

end InterstellarDb
