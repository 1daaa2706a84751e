import InterstellarDb.Store.Restart
import InterstellarDb.Sync.Merge

/-!
# Calls and restarts that join

A call *joins* rows of `U` into a store when its rows are among them and a `store` or `store_batch`
writes them under fresh keys (`StoreCall.Joins`); a call that seals epochs joins none. Whether the
call runs to its end or the process dies while it runs and the store is opened again (`Called`), the
store stays consistent and durable, loses nothing, and gets no other rows than those of the call
(`Called.joined`).
-/

namespace InterstellarDb

open Atomic GreatestWins SetFold

section Called

variable [Sha256] {L : LeafDepth} {pol : KvPolicy} {U : Set Row} {s s' : SpatioTemporalStore L}
  {c : StoreCall}

/-- The rows, and one more, can be counted in 64 bits. -/
def Few (U : Set Row) : Prop := ∀ F : Finset Row, (F : Set Row) ⊆ U → F.card + 1 < 2 ^ 64

/-- The rows of the call are in `U`, and a `store` or `store_batch` writes under fresh keys. -/
structure StoreCall.Joins (U : Set Row) (s : SpatioTemporalStore L) (c : StoreCall) : Prop where
  fresh : Fresh s c
  rows : ∀ x ∈ c.rows s.indexer, x ∈ U

omit [Sha256] in
/-- The rows of a `store` or `store_batch` come on top of the stored ones. -/
theorem StoreCall.Joins.card_union (h : c.Joins U s) (hstore : c.IsStore) :
    (s.rows ∪ (c.rows s.indexer).toFinset).card = s.rows.card + (c.rows s.indexer).length := by
  obtain ⟨hnd, hnone⟩ := h.fresh hstore
  rw [Finset.card_union_of_disjoint, List.toFinset_card_of_nodup hnd.of_map]
  rw [Finset.disjoint_left]
  intro x hx hmem
  have hsome := mem_rows.1 hx
  rw [hnone x (List.mem_toFinset.1 hmem)] at hsome
  cases hsome

omit [Sha256] in
theorem StoreCall.Joins.fits (h : c.Joins U s) (hfew : Few U) (hs : (s.rows : Set Row) ⊆ U) :
    Fits s c := by
  have hone := hfew s.rows hs
  have hmany : c.IsStore → Fits s c := by
    intro hstore
    have hunion := hfew (s.rows ∪ (c.rows s.indexer).toFinset) fun x hx => by
      rcases Finset.mem_union.1 (Finset.mem_coe.1 hx) with hx | hx
      · exact hs hx
      · exact h.rows x (List.mem_toFinset.1 hx)
    rw [h.card_union hstore] at hunion
    unfold Fits
    omega
  cases c with
  | store x => exact hmany trivial
  | storeBatch xs => exact hmany trivial
  | ingest k v => exact hone
  | sealSettledEpochs now grace => exact (Nat.lt_succ_self _).trans hone

/-- Rows under fresh keys replace nothing. -/
theorem rising_of_fresh {m : Key → Option Bytes} {l : List Row} (hnd : (l.map Prod.fst).Nodup)
    (hnone : ∀ x ∈ l, m x.1 = none) : Rising m l := by
  induction l generalizing m with
  | nil => trivial
  | cons x l ih =>
    rw [List.map_cons, List.nodup_cons] at hnd
    refine ⟨fun v hv => ?_, ih hnd.2 fun y hy => ?_⟩
    · rw [hnone x (List.mem_cons_self ..)] at hv
      cases hv
    · have hne : y.1 ≠ x.1 := fun heq => hnd.1 (heq ▸ List.mem_map_of_mem hy)
      rw [Function.update_of_ne hne]
      exact hnone y (List.mem_cons_of_mem _ hy)

/-- A call that joins loses no row to one of a smaller digest. -/
theorem StoreCall.Joins.below (hc : c.Joins U s) {r : Except String Bool}
    (h : Alone (storeSem L pol) (c.prog s.indexer) s r s') : Below itemDigest s.table s'.table := by
  rcases alone_call h with ⟨-, _, -, hu⟩ | ⟨-, hu⟩ | ⟨-, hw⟩
  · rw [hu.table]
    exact .refl _
  · rw [hu.table]
    exact .refl _
  · rw [hw.table]
    apply below_writeAll
    apply hw.rising
    intro hstore
    obtain ⟨hnd, hnone⟩ := hc.fresh hstore
    exact rising_of_fresh hnd hnone

/-- What a call, or a restart while it runs, makes of a store. -/
inductive Called (pol : KvPolicy) (c : StoreCall) (s : SpatioTemporalStore L) :
    SpatioTemporalStore L → Prop
  | ended {r : Except String Bool} {s' : SpatioTemporalStore L}
      (h : Alone (storeSem L pol) (c.prog s.indexer) s r s') : Called pol c s s'
  | torn {kv : KvTree} (ix : HybridSpatioTemporalIndexer) (h : Torn pol c s kv) :
      Called pol c s (openStore L ix kv)

/-- What such a step does. -/
structure Joined (U : Set Row) (c : StoreCall) (s s' : SpatioTemporalStore L) : Prop where
  consistent : Consistent U s'
  durable : Durable s'
  below : Below itemDigest s.table s'.table
  rows : ∀ y ∈ s'.rows, y ∈ s.rows ∨ y ∈ c.rows s.indexer

/-- **A call that ends.** -/
theorem joined_of_alone (hfew : Few U) (hd : Durable s) (hs : (s.rows : Set Row) ⊆ U)
    (hc : c.Joins U s) {r : Except String Bool}
    (h : Alone (storeSem L pol) (c.prog s.indexer) s r s') : Joined U c s s' := by
  have hrows : ∀ y ∈ s'.rows, y ∈ s.rows ∨ y ∈ c.rows s.indexer := fun y hy =>
    mem_rows_of_call h hy
  have hdurable := hd.call hc.fresh (hc.fits hfew hs) h
  refine ⟨⟨hdurable.trusted.fold.hashes, fun y hy => ?_⟩, hdurable, hc.below h, hrows⟩
  exact (hrows y hy).elim (fun hy => hs hy) (hc.rows y)

/-- **A call that ends, or a restart while it runs.** -/
theorem Called.joined (h : Called pol c s s') (hfew : Few U) (hd : Durable s)
    (hs : (s.rows : Set Row) ⊆ U) (hc : c.Joins U s) : Joined U c s s' := by
  cases h with
  | ended h => exact joined_of_alone hfew hd hs hc h
  | torn ix h =>
    -- the disk is that of a call in which operations of the key-value tree fail
    obtain ⟨r, t, hrun, rfl⟩ := h.exists_alone hd.sealIo
    have ht := joined_of_alone hfew hd hs hc hrun
    obtain ⟨hopen, hfold⟩ := ht.durable.reopen ix
    exact ⟨⟨hfold.hashes, ht.consistent.rows⟩, hopen, ht.below, ht.rows⟩

/-! ## Concrete stores -/

/-- A concrete call keeps a store durable. -/
theorem Durable.after (h : Durable s) (hfew : Few U) (hs : (s.rows : Set Row) ⊆ U)
    (hc : c.Joins U s) {r : Except String Bool} (hr : (s.perform c).map Prod.fst = some r) :
    Durable (s.after c) :=
  h.call hc.fresh (hc.fits hfew hs) (alone_after hr)

end Called

section Sample

local instance restartSha : Sha256 := sampleDigests

theorem few_sampleRows : Few (sampleRows : Set Row) := by
  intro F hF
  have hle := Finset.card_le_card (Finset.coe_subset.1 hF)
  have hcard : sampleRows.card = 3 := by decide +kernel
  omega

theorem durable_storedOnce : Durable storedOnce :=
  (durable_empty testIndexer).after (c := storeCorner 0 [0x61]) (r := .ok true)
    few_sampleRows consistent_sampleStore.rows
    ⟨fun _ => ⟨by decide +kernel, by decide +kernel⟩, by decide +kernel⟩ (by decide +kernel)

end Sample

end InterstellarDb
