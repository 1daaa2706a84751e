import InterstellarDb.Store.Accepted
import InterstellarDb.Store.Trust

/-!
# Writes that merge

A write *merges* into a store when it can only add a row or replace a payload by one of a greater
digest: an `ingest`, or a `store` under a key that is not stored yet. Merging writes keep what the
store dominates (`merge_below`), invent nothing (`mem_rows_of_call`), and keep the node hashes of
the forest those of the rows as long as the digests are independent (`merge_hashes`): a replaced
row then has a non-zero root hash over it, so `remove` finds its tree.
-/

namespace InterstellarDb

open Atomic GreatestWins SetFold KvTree

section Merging

variable [Sha256]

/-! ## Cells of independent rows -/

section Cells

variable {U : Set Row} {s t : Finset Row} {e : Epoch} {d p : ℕ} {r : Row}

omit [Sha256] in
theorem coe_filter_subset (hs : (s : Set Row) ⊆ U) :
    ((s.filter fun r => InCell e d p r.1 : Finset Row) : Set Row) ⊆ U := fun _ hr =>
  hs (Finset.mem_filter.1 hr).1

/-- A cell that holds a row has a non-zero hash. -/
theorem cellHash_ne_zero (hU : Independent rowDigest U) (hs : (s : Set Row) ⊆ U) (hr : r ∈ s)
    (hc : InCell e d p r.1) : cellHash s e d p ≠ 0 := by
  have hmem : r ∈ s.filter fun r => InCell e d p r.1 := Finset.mem_filter.2 ⟨hr, hc⟩
  intro h
  rw [cellHash, hU.sum_eq_zero_iff (coe_filter_subset hs)] at h
  rw [h] at hmem
  exact Finset.notMem_empty r hmem

/-- Cells of the same hash hold the same rows. -/
theorem mem_of_cellHash_eq (hU : Independent rowDigest U) (hs : (s : Set Row) ⊆ U)
    (ht : (t : Set Row) ⊆ U) (h : cellHash s e d p = cellHash t e d p) (hr : r ∈ s)
    (hc : InCell e d p r.1) : r ∈ t := by
  have heq := (hU.sum_eq_iff (coe_filter_subset hs) (coe_filter_subset ht)).1 h
  have hmem : r ∈ s.filter fun r => InCell e d p r.1 := Finset.mem_filter.2 ⟨hr, hc⟩
  rw [heq] at hmem
  exact (Finset.mem_filter.1 hmem).1

end Cells

/-! ## Consistent stores -/

variable {L : LeafDepth} {U : Set Row} {s s' : SpatioTemporalStore L} {c : StoreCall}
  {pol : KvPolicy} {r : Except String Bool}

/-- The forest has the node hashes of the rows, and the rows are in `U`. -/
structure Consistent (U : Set Row) (s : SpatioTemporalStore L) : Prop where
  hashes : Hashes s.merkle s.rows
  rows : (s.rows : Set Row) ⊆ U

/-- A stored row has a tree for its epoch. -/
theorem Consistent.exists_tree (h : Consistent U s) (hU : Independent rowDigest U) {x : Row}
    (hx : x ∈ s.rows) : ∃ t, s.merkle.trees[x.1.epoch]? = some t := by
  apply MerkleForest.exists_tree_of_nodeHash_ne_zero (d := 0) (p := 0)
  rw [h.hashes x.1.epoch 0 0 L.valid_zero isPrefix_zero]
  exact cellHash_ne_zero hU h.rows hx (inCell_zero.2 rfl)

/-! ## Merging writes -/

/-- The call is an `ingest`, or a `store` under a key that is not stored yet. -/
def StoreCall.Merges (s : SpatioTemporalStore L) : StoreCall → Prop
  | .store x => s.table (x.row s.indexer).1 = none
  | .ingest _ _ => True
  | _ => False

instance (c : StoreCall) : Decidable (c.Merges s) :=
  match c with
  | .store x => inferInstanceAs (Decidable (s.table (x.row s.indexer).1 = none))
  | .ingest _ _ => .isTrue trivial
  | .storeBatch _ => .isFalse id
  | .sealSettledEpochs _ _ => .isFalse id

theorem StoreCall.Merges.rising (hm : c.Merges s) (hc : c.IsStore) :
    Rising s.table (c.rows s.indexer) := by
  cases c with
  | store x =>
    refine ⟨fun v hv => ?_, trivial⟩
    rw [show s.table (x.row s.indexer).1 = none from hm] at hv
    cases hv
  | storeBatch xs => exact hm.elim
  | ingest k v => exact hc.elim
  | sealSettledEpochs now grace => exact hc.elim

/-- **A merging write loses no row** to one of a smaller digest. -/
theorem merge_below (hm : c.Merges s) (h : Alone (storeSem L pol) (c.prog s.indexer) s r s') :
    Below itemDigest s.table s'.table := by
  rcases alone_call h with ⟨-, _, -, hu⟩ | ⟨-, hu⟩ | ⟨-, hw⟩
  · rw [hu.table]
    exact .refl _
  · rw [hu.table]
    exact .refl _
  · rw [hw.table]
    exact below_writeAll (hw.rising hm.rising)

/-- A call stores no other rows than those it is given. -/
theorem mem_rows_of_call (h : Alone (storeSem L pol) (c.prog s.indexer) s r s') {x : Row}
    (hx : x ∈ s'.rows) : x ∈ s.rows ∨ x ∈ c.rows s.indexer := by
  rcases alone_call h with ⟨-, _, -, hu⟩ | ⟨-, hu⟩ | ⟨-, hw⟩
  · exact .inl (hu.rows ▸ hx)
  · exact .inl (hu.rows ▸ hx)
  · rw [mem_rows, hw.table] at hx
    rcases mem_or_of_writeAll hx with hx | hx
    · exact .inr hx
    · exact .inl (mem_rows.2 hx)

/-- **An `ingest` that succeeds offers its row** to the table of the store. -/
theorem table_ingest {k : Key} {v : Bytes} {b : Bool}
    (h : Alone (storeSem L pol) (ingest k v) s (.ok b) s') :
    s'.table = offer itemDigest s.table k v := by
  rcases alone_ingest h with ⟨⟨_, hr⟩, -⟩ | ⟨-, hk, rfl⟩ | ⟨-, hk, s₁, hu, hw⟩
  · cases hr
  · rw [offer_of_dominates (keepsExisting_iff.1 hk)]
  · rw [offer_of_not_dominates (keepsExisting_eq_false.1 hk), ← hu.table]
    show s'.tree.table = _
    rw [hw.tree, table_setRows]
    rfl

theorem ingest_dominates {k : Key} {v : Bytes} {b : Bool}
    (h : Alone (storeSem L pol) (ingest k v) s (.ok b) s') : Dominates itemDigest s'.table k v := by
  rw [table_ingest h]
  exact dominates_offer ..

/-- **A merging write keeps the node hashes those of the rows.** -/
theorem merge_hashes (hU : Independent rowDigest U) (hs : Consistent U s) (hm : c.Merges s)
    (h : Alone (storeSem L pol) (c.prog s.indexer) s r s') : Hashes s'.merkle s'.rows := by
  rcases alone_call h with ⟨-, _, -, hu⟩ | ⟨-, hu⟩ | ⟨-, hw⟩
  · rw [hu.merkle, hu.rows]
    exact hs.hashes
  · rw [hu.merkle, hu.rows]
    exact hs.hashes
  · have ht := hw.rows_writeAll
    rw [hw.merkle]
    cases c with
    | store x => exact hs.hashes.insert s.tree.rows_table ht hm
    | ingest k v =>
      show Hashes (s.merkle.editAll (ingestEdits k v (s.table k))) s'.rows
      cases hk : s.table k with
      | none => exact hs.hashes.insert s.tree.rows_table ht hk
      | some current =>
        have hx : (k, current) ∈ s.rows := mem_rows.2 hk
        exact hs.hashes.replace s.tree.rows_table ht hk (hs.exists_tree hU hx)
    | storeBatch xs => exact hm.elim
    | sealSettledEpochs now grace => exact hm.elim

/-! ## Concrete stores -/

/-- A concrete merging write keeps a store consistent. -/
theorem Consistent.after (hs : Consistent U s) (hU : Independent rowDigest U) (hm : c.Merges s)
    (hr : (s.perform c).map Prod.fst = some r) (hrows : ((s.after c).rows : Set Row) ⊆ U) :
    Consistent U (s.after c) :=
  ⟨merge_hashes hU hs hm (alone_after hr), hrows⟩

end Merging

section Sample

local instance mergeSha : Sha256 := sampleDigests

/-- The rows of the concrete stores: two payloads for one key, and a row under the next key. -/
def sampleRows : Finset Row :=
  {(zeroKey, [0x61]), (zeroKey, [0x62]), (.ofFields 0 0 1, [0x62])}

theorem independent_sampleRows : Independent rowDigest (sampleRows : Set Row) :=
  independent_coe (by decide +kernel)

theorem consistent_sampleStore : Consistent (sampleRows : Set Row) sampleStore where
  hashes := (trusted_empty (D := Set.univ) testIndexer trivial).fold.hashes
  rows := Finset.coe_subset.2 (by decide +kernel)

theorem consistent_storedOnce : Consistent (sampleRows : Set Row) storedOnce :=
  consistent_sampleStore.after (c := storeCorner 0 [0x61]) (r := .ok true) independent_sampleRows
    (by decide +kernel) (by decide +kernel) (Finset.coe_subset.2 (by decide +kernel))

/-- A store with the other payload under the key of zeros, and the row under the next key. -/
def rivalStore : SpatioTemporalStore merkleLeafDepth :=
  (sampleStore.after (storeCorner 0 [0x62])).after (storeCorner 1 [0x62])

theorem consistent_rivalStore : Consistent (sampleRows : Set Row) rivalStore := by
  have hfirst : Consistent (sampleRows : Set Row) (sampleStore.after (storeCorner 0 [0x62])) :=
    consistent_sampleStore.after (c := storeCorner 0 [0x62]) (r := .ok true)
      independent_sampleRows (by decide +kernel) (by decide +kernel)
      (Finset.coe_subset.2 (by decide +kernel))
  exact hfirst.after (c := storeCorner 1 [0x62]) (r := .ok true) independent_sampleRows
    (by decide +kernel) (by decide +kernel) (Finset.coe_subset.2 (by decide +kernel))

end Sample

end InterstellarDb
