import InterstellarDb.Index.Fanout
import InterstellarDb.Index.RangeOrder
import InterstellarDb.Store.Query

/-!
# Scans

A scan of a key range gives its rows in ascending key order (`ascending_scanRange`).

* Stores with the same rows answer every query alike (`checkedQueryWindow_congr`).
* A scan of the ranges of a plan, one after the other, visits no row twice
  (`scansOnce_of_ordered`).
* A scan of the key range of a cell gives the rows of the cell (`leafScan_leafKeyRange`): their
  digests fold to the hash of the cell in a forest of the same rows, and the scans of all cells of
  one depth partition the rows of the epoch.
-/

namespace InterstellarDb

open GreatestWins HybridSpatioTemporalIndexer

/-- The keys of the rows strictly ascend in byte order. -/
def AscendingRows (rows : List Row) : Prop :=
  rows.Pairwise fun a b => compare a.1.bytes b.1.bytes = .lt

theorem AscendingRows.nodup_keys {rows : List Row} (h : AscendingRows rows) :
    (rows.map Prod.fst).Nodup := by
  unfold List.Nodup
  rw [List.pairwise_map]
  refine h.imp fun {a b} hab heq => ?_
  rw [Key.compare_bytes, heq, Nat.compare_eq_lt] at hab
  omega

theorem ascending_scanRange (kv : KvTree) (start stop : Key) :
    AscendingRows (scanRange kv start stop) := by
  refine List.Pairwise.filterMap _ (fun x y hxy a ha b hb => ?_)
    ((MapList.ascending_toList kv.data).filter _)
  rw [KvTree.rowOf_eq_some] at ha hb
  rwa [ha, hb] at hxy

/-- Scans of the same rows give the same list. -/
theorem scanRange_congr {kv kv' : KvTree} (h : kv.rows = kv'.rows) (start stop : Key) :
    scanRange kv start stop = scanRange kv' start stop := by
  refine List.Perm.eq_of_pairwise (fun a b _ _ hab hba => ?_) (ascending_scanRange kv start stop)
    (ascending_scanRange kv' start stop) ?_
  · rw [Key.compare_bytes, Nat.compare_eq_lt] at hab hba
    omega
  · rw [List.perm_ext_iff_of_nodup (nodup_scanRange kv start stop) (nodup_scanRange kv' start stop)]
    intro r
    rw [mem_scanRange, mem_scanRange, h]

/-! ## Queries of a checked planner -/

section Checked

variable {L L' : LeafDepth} {s : SpatioTemporalStore L} {s' : SpatioTemporalStore L'}

/-- `query_window` with the checked planner: a query whose planner panics has no answer. -/
def checkedQueryWindow (s : SpatioTemporalStore L) (cx cy cz radius : ℚ)
    (startSecs endSecs : ℕ) : Option (List Observation) := do
  let depth := s.indexer.calculateOptimalDepth radius
  let ranges ← s.indexer.checkedTimeWindow cx cy cz radius startSecs endSecs depth
  return collect s.tree s.indexer ranges cx cy cz radius startSecs endSecs

/-- **Stores with the same rows and indexers answer every query alike.** -/
theorem checkedQueryWindow_congr (hrows : s.rows = s'.rows) (hix : s.indexer = s'.indexer)
    (cx cy cz radius : ℚ) (startSecs endSecs : ℕ) :
    checkedQueryWindow s cx cy cz radius startSecs endSecs =
      checkedQueryWindow s' cx cy cz radius startSecs endSecs := by
  unfold checkedQueryWindow
  simp only [hix, collect_eq, scanRange_congr hrows]

end Checked

/-! ## Scans of a plan -/

/-- What the ranges of a plan are: in byte order, no key in two of them, and a scan of all of them
visits each row once. -/
structure ScansOnce (ranges : List (Key × Key)) : Prop where
  ordered : OrderedRanges ranges
  at_most_one : ∀ k, (ranges.filter fun range => Covers range k).length ≤ 1
  ascending : ∀ kv, AscendingRows (ranges.flatMap fun range => scanRange kv range.1 range.2)
  once : ∀ kv, ((ranges.flatMap fun range => scanRange kv range.1 range.2).map Prod.fst).Nodup

/-- A scan of ranges in byte order visits no row twice. -/
theorem scansOnce_of_ordered {ranges : List (Key × Key)} (h : OrderedRanges ranges) :
    ScansOnce ranges := by
  have hasc : ∀ kv, AscendingRows (ranges.flatMap fun range => scanRange kv range.1 range.2) := by
    intro kv
    apply List.pairwise_flatMap.2
    refine ⟨fun range _ => ascending_scanRange kv range.1 range.2, ?_⟩
    refine h.ascending.imp fun {a b} hab r hr r' hr' => ?_
    have h₁ := (mem_scanRange.1 hr).2.2
    have h₂ := (mem_scanRange.1 hr').2.1
    rw [Key.compare_bytes, Nat.compare_eq_lt] at hab ⊢
    exact h₁.trans_lt (hab.trans_le h₂)
  exact ⟨h, h.length_filter_covers, hasc, fun kv => (hasc kv).nodup_keys⟩

/-- **Planned ranges are ordered and disjoint**, for one epoch and for a time window. -/
theorem scansOnce_plannedRanges (ix : HybridSpatioTemporalIndexer) (cx cy cz radius : ℚ)
    {depthBits : ℕ} (hd : depthBits ≤ 63) :
    (∀ timestampSecs,
      ScansOnce (ix.getBoundaryProtectedRanges cx cy cz radius timestampSecs depthBits)) ∧
    ∀ startSecs endSecs, ScansOnce (ix.getBoundaryProtectedRangesTimeWindow cx cy cz radius
      startSecs endSecs depthBits) := by
  constructor
  · intro timestampSecs
    exact scansOnce_of_ordered (ix.ordered_boundaryRanges cx cy cz radius timestampSecs hd)
  · intro startSecs endSecs
    exact scansOnce_of_ordered (ix.ordered_timeWindowRanges cx cy cz radius startSecs endSecs hd)

/-- A window that starts later in its first epoch than it ends in its last. -/
theorem scansOnce_testIndexer :
    ScansOnce (testIndexer.getBoundaryProtectedRangesTimeWindow 0 0 0 1 7199 7300 15) :=
  (scansOnce_plannedRanges testIndexer 0 0 0 1 (by norm_num)).2 7199 7300

/-! ## Scans of a cell -/

/-- What a scan of the key range of the cell `(d, p)` of the epoch `e` gives. -/
structure LeafScan [Sha256] (kv : KvTree) (e : Epoch) (d p : ℕ) (rows : List Row) : Prop where
  /-- The data rows of the cell, in ascending key order, so each once. -/
  mem_iff : ∀ r, r ∈ rows ↔
    r ∈ kv.rows ∧ (splitKey r.1).1 = e ∧ prefixAt (splitKey r.1).2 d = p
  ascending : AscendingRows rows
  /-- None of them is a seal record. -/
  no_seal : ∀ r ∈ rows, ∀ e', r.1.bytes ≠ sealKey e'
  /-- Their digests fold to the hash of the cell in every forest built from the same rows. -/
  fold : ∀ L : LeafDepth, L.Valid d → ∀ l : List Row, l.Nodup → (∀ r, r ∈ l ↔ r ∈ kv.rows) →
    (rows.map rowDigest).sum = ((MerkleForest.new L).insertAll l).nodeHash e d p

variable [Sha256]

/-- **A cell and its key range name the same rows.** -/
theorem leafScan_leafKeyRange (kv : KvTree) (e : Epoch) {d p : ℕ} (hp : IsPrefix d p) :
    LeafScan kv e d p (scanRange kv (leafKeyRange e p d).1 (leafKeyRange e p d).2) := by
  have hmem : ∀ r, r ∈ scanRange kv (leafKeyRange e p d).1 (leafKeyRange e p d).2 ↔
      r ∈ kv.rows ∧ InCell e d p r.1 := fun r => by
    rw [mem_scanRange, ← mem_leafKeyRange hp]
    rfl
  refine ⟨hmem, ascending_scanRange kv _ _, fun r _ e' h => sealKey_ne_bytes e' r.1 h.symm,
    fun L hd l hl hrows => ?_⟩
  have hset : l.toFinset = kv.rows := by
    ext r
    rw [List.mem_toFinset]
    exact hrows r
  rw [(foldOf_insertAll hl).hashes e d p hd hp, hset, cellHash,
    ← List.sum_toFinset _ (nodup_scanRange kv _ _)]
  apply Finset.sum_congr _ fun _ _ => rfl
  ext r
  rw [List.mem_toFinset, hmem, Finset.mem_filter]

/-- **Cells and their key ranges name the same rows**, and the scans of the cells of one depth
partition the rows of the epoch: each row is in the scan of one cell. -/
theorem leafScan_partition (kv : KvTree) (e : Epoch) (d : ℕ) :
    (∀ p, IsPrefix d p →
      LeafScan kv e d p (scanRange kv (leafKeyRange e p d).1 (leafKeyRange e p d).2)) ∧
    ∀ r ∈ kv.rows, r.1.epoch = e → ∃! p, IsPrefix d p ∧
      r ∈ scanRange kv (leafKeyRange e p d).1 (leafKeyRange e p d).2 := by
  refine ⟨fun p hp => leafScan_leafKeyRange kv e hp, fun r hr he => ?_⟩
  have hp := isPrefix_prefixAt r.1.morton_lt d
  refine ⟨prefixAt r.1.morton d, ⟨hp, ?_⟩, ?_⟩
  · exact ((leafScan_leafKeyRange kv e hp).mem_iff r).2 ⟨hr, he, rfl⟩
  · rintro q ⟨hq, hrow⟩
    exact (((leafScan_leafKeyRange kv e hq).mem_iff r).1 hrow).2.2.symm

section Sample

local instance scanSha : Sha256 := sampleDigests

/-- The greatest cell of the greatest epoch, on a disk that holds its greatest key. -/
theorem leafScan_greatest :
    LeafScan (KvTree.empty.commit [.set (List.replicate 20 0xFF) [0x61]]) (Fin.last _) 15
      (prefixAt (2 ^ 64 - 1) 15) (scanRange
        (KvTree.empty.commit [.set (List.replicate 20 0xFF) [0x61]])
        (leafKeyRange (Fin.last _) (prefixAt (2 ^ 64 - 1) 15) 15).1
        (leafKeyRange (Fin.last _) (prefixAt (2 ^ 64 - 1) 15) 15).2) :=
  (leafScan_partition _ _ 15).1 _ (isPrefix_prefixAt (by norm_num) 15)

end Sample

end InterstellarDb
