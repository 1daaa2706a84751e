import InterstellarDb.Merkle.Diff
import InterstellarDb.Store.Scan
import InterstellarDb.Sync.Converge
import InterstellarDb.Sync.Delivery

/-!
# The exchange of a plan

`sync_plan` lists the key ranges where the forest of a store and that of a peer disagree. The plan
is the same from both sides, and its ranges lie in byte order one after the other. Where none of
them lies the two tables agree, so shipping the rows of the ranges both ways is enough: both stores
end with the join of their tables, and the plans of both sides are then empty
(`converged_of_exchange`).
-/

namespace InterstellarDb

open Atomic GreatestWins SetFold HybridSpatioTemporalIndexer

variable {L L' : LeafDepth}

/-! ## The plan -/

/-- `sync_plan`. -/
def SpatioTemporalStore.syncPlan (s : SpatioTemporalStore L) (remote : MerkleForest L') :
    List (Key × Key) :=
  (diffForests s.merkle remote).map fun x => (x.startKey, x.endKey)

/-- **The plan is symmetric.** -/
theorem syncPlan_comm (A : SpatioTemporalStore L) (B : SpatioTemporalStore L') :
    A.syncPlan B.merkle = B.syncPlan A.merkle := by
  rw [SpatioTemporalStore.syncPlan, SpatioTemporalStore.syncPlan, diffForests_comm]

/-- The ranges of a plan are those of cells, in byte order. -/
theorem ordered_syncPlan (A : SpatioTemporalStore L) (B : SpatioTemporalStore L') :
    OrderedRanges (A.syncPlan B.merkle) := by
  have hD := min_bits_le L L'
  have hcell : ∀ x ∈ diffForests A.merkle B.merkle, IsPrefix (min L.bits L'.bits) x.nodePrefix ∧
      (x.startKey, x.endKey) = cellRange (min L.bits L'.bits) x.epoch x.nodePrefix 0
        (2 ^ 64 - 1) := by
    intro x hx
    obtain ⟨e, q, hq, -, -, rfl⟩ := mem_diffForests.1 hx
    exact ⟨hq, rfl⟩
  constructor
  · intro range hrange
    obtain ⟨x, hx, rfl⟩ := List.mem_map.1 hrange
    obtain ⟨hp, heq⟩ := hcell x hx
    rw [heq]
    exact cellRange_proper hD hp (by norm_num) (by norm_num)
  · refine List.pairwise_map.2 ((pairwise_diffForests _ _).imp_of_mem fun {x y} hx hy h => ?_)
    obtain ⟨hp, heq⟩ := hcell x hx
    obtain ⟨hp', heq'⟩ := hcell y hy
    rw [heq, heq']
    exact cellRange_endsBefore hp hp' (by norm_num) (by norm_num) h

/-- A store where the root hashes of a peer are the own ones has no plan with it. -/
theorem syncPlan_eq_nil {A : SpatioTemporalStore L} {B : SpatioTemporalStore L'}
    (h : ∀ e, A.merkle.nodeHash e 0 0 = B.merkle.nodeHash e 0 0) : A.syncPlan B.merkle = [] := by
  refine List.map_eq_nil_iff.2 (List.eq_nil_iff_forall_not_mem.2 fun x hx => ?_)
  obtain ⟨e, _, -, hne, -⟩ := mem_diffForests.1 hx
  exact hne (h e)

/-! ## The exchange -/

section Exchange

variable [Sha256]

/-- The rows are ingested one after another. -/
def Ships (pol : KvPolicy) (rows : List Row) (s s' : SpatioTemporalStore L) : Prop :=
  ∃ ds, ds.map Delivery.row = rows ∧ Ingests pol s ds s'

/-- The exchange of the ranges of a plan: of each range, first the peer ingests the rows of the own
store, then the own store those of the peer. -/
def Exchange (pol : KvPolicy) : List (Key × Key) → Peers L L' → Peers L L' → Prop
  | [], s, s' => s' = s
  | range :: plan, s, s' => ∃ B A,
      Ships pol (scanRange s.own.tree range.1 range.2) s.peer B ∧
        Ships pol (scanRange B.tree range.1 range.2) s.own A ∧ Exchange pol plan ⟨A, B⟩ s'

variable {pol : KvPolicy} {s s' : Peers L L'}

/-- The forest of a consistent store folds its rows. -/
theorem Consistent.folds {U : Set Row} {t : SpatioTemporalStore L} (h : Consistent U t)
    (hU : Independent rowDigest U) : t.Folds where
  hashes := fun e d p hd hp => (h.hashes e d p hd hp).trans (bagHash_val ..).symm
  trees := fun _ hr => h.exists_tree hU hr

/-- What a shipment does. -/
theorem Ships.spec {rows : List Row} {t t' : SpatioTemporalStore L} (h : Ships pol rows t t') :
    (t.Folds → t'.Folds) ∧ Below itemDigest t.table t'.table ∧
      (∀ y ∈ rows, Dominates itemDigest t'.table y.1 y.2) ∧
        ∀ k v, t'.table k = some v → t.table k = some v ∨ (k, v) ∈ rows := by
  obtain ⟨ds, rfl, hing⟩ := h
  obtain ⟨htable, hfolds, -⟩ := hing.spec
  rw [htable]
  exact ⟨hfolds, below_offerAll _ _, fun y hy => dominates_offerAll (.inr hy),
    fun k v hv => candidate_of_offerAll hv⟩

/-- Both stores fold their rows and have only grown, by rows of either of them. -/
structure Exchanged (s s' : Peers L L') : Prop where
  own : s'.own.Folds
  peer : s'.peer.Folds
  ownGrew : Below itemDigest s.own.table s'.own.table
  peerGrew : Below itemDigest s.peer.table s'.peer.table
  ownOnly : ∀ k v, s'.own.table k = some v → s.own.table k = some v ∨ s.peer.table k = some v
  peerOnly : ∀ k v, s'.peer.table k = some v → s.own.table k = some v ∨ s.peer.table k = some v

theorem Exchanged.refl (hown : s.own.Folds) (hpeer : s.peer.Folds) : Exchanged s s :=
  ⟨hown, hpeer, .refl _, .refl _, fun _ _ => .inl, fun _ _ => .inr⟩

theorem Exchanged.trans {s₁ : Peers L L'} (h : Exchanged s s₁) (h' : Exchanged s₁ s') :
    Exchanged s s' where
  own := h'.own
  peer := h'.peer
  ownGrew := h.ownGrew.trans h'.ownGrew
  peerGrew := h.peerGrew.trans h'.peerGrew
  ownOnly := fun k v hv => (h'.ownOnly k v hv).elim (h.ownOnly k v) (h.peerOnly k v)
  peerOnly := fun k v hv => (h'.peerOnly k v hv).elim (h.ownOnly k v) (h.peerOnly k v)

/-- Each store dominates what the other held under the keys of the ranges. -/
def Shared (plan : List (Key × Key)) (s s' : Peers L L') : Prop :=
  ∀ range ∈ plan, ∀ k v, Covers range k →
    (s.own.table k = some v → Dominates itemDigest s'.peer.table k v) ∧
      (s.peer.table k = some v → Dominates itemDigest s'.own.table k v)

/-- **The exchange of a range** shares its rows. -/
theorem exchanged_of_ships {range : Key × Key} {B : SpatioTemporalStore L'}
    {A : SpatioTemporalStore L} (hown : s.own.Folds) (hpeer : s.peer.Folds)
    (hB : Ships pol (scanRange s.own.tree range.1 range.2) s.peer B)
    (hA : Ships pol (scanRange B.tree range.1 range.2) s.own A) :
    Exchanged s ⟨A, B⟩ ∧ Shared [range] s ⟨A, B⟩ := by
  obtain ⟨hBfolds, hBgrew, hBdom, hBonly⟩ := hB.spec
  obtain ⟨hAfolds, hAgrew, hAdom, hAonly⟩ := hA.spec
  have hBrows : ∀ k v, B.table k = some v → s.own.table k = some v ∨ s.peer.table k = some v := by
    intro k v hv
    rcases hBonly k v hv with h | h
    · exact .inr h
    · exact .inl (mem_rows.1 (mem_scanRange.1 h).1)
  refine ⟨⟨hAfolds hown, hBfolds hpeer, hAgrew, hBgrew, fun k v hv => ?_, hBrows⟩, ?_⟩
  · rcases hAonly k v hv with h | h
    · exact .inl h
    · exact hBrows k v (mem_rows.1 (mem_scanRange.1 h).1)
  · intro r hr k v hc
    obtain rfl := List.mem_singleton.1 hr
    refine ⟨fun hv => hBdom (k, v) (mem_scanRange.2 ⟨mem_rows.2 hv, hc⟩), fun hv => ?_⟩
    -- the peer ships what it holds by then, of at least the digest
    obtain ⟨w, hw, hle⟩ := hBgrew k v hv
    exact (hAdom (k, w) (mem_scanRange.2 ⟨mem_rows.2 hw, hc⟩)).of_le hle

theorem exchanged_of_exchange {plan : List (Key × Key)} (hown : s.own.Folds)
    (hpeer : s.peer.Folds) (h : Exchange pol plan s s') : Exchanged s s' ∧ Shared plan s s' := by
  induction plan generalizing s with
  | nil =>
    obtain rfl : s' = s := h
    exact ⟨.refl hown hpeer, fun _ hr => (List.not_mem_nil hr).elim⟩
  | cons range plan ih =>
    obtain ⟨B, A, hB, hA, hrest⟩ := h
    obtain ⟨hone, hshared⟩ := exchanged_of_ships hown hpeer hB hA
    obtain ⟨hothers, hshared'⟩ := ih hone.own hone.peer hrest
    refine ⟨hone.trans hothers, fun r hr k v hc => ?_⟩
    rcases List.mem_cons.1 hr with rfl | hr
    · obtain ⟨hto, hfrom⟩ := hshared r (List.mem_singleton_self _) k v hc
      exact ⟨fun hv => (hto hv).mono hothers.peerGrew, fun hv => (hfrom hv).mono hothers.ownGrew⟩
    · constructor
      · intro hv
        obtain ⟨w, hw, hle⟩ := hone.ownGrew k v hv
        exact ((hshared' r hr k w hc).1 hw).of_le hle
      · intro hv
        obtain ⟨w, hw, hle⟩ := hone.peerGrew k v hv
        exact ((hshared' r hr k w hc).2 hw).of_le hle

/-- Outside the plan the tables agree. -/
theorem table_eq_of_not_covered {A : SpatioTemporalStore L} {B : SpatioTemporalStore L'}
    (hA : A.Folds) (hB : B.Folds)
    (hU : Independent rowDigest (↑A.rows ∪ ↑B.rows)) {k : Key}
    (hk : ∀ range ∈ A.syncPlan B.merkle, ¬ Covers range k) : A.table k = B.table k := by
  by_contra hne
  have hdiff : ∃ y ∈ symmDiff A.rows B.rows, y.1 = k := by
    by_contra hnone
    push Not at hnone
    refine hne (Option.ext fun v => ?_)
    have hkv : (k, v) ∉ symmDiff A.rows B.rows := fun h => hnone (k, v) h rfl
    rw [Finset.mem_symmDiff, mem_rows, mem_rows] at hkv
    show A.tree.table k = some v ↔ B.tree.table k = some v
    tauto
  obtain ⟨y, hy, rfl⟩ := hdiff
  have hsub : ((symmDiff A.rows B.rows : Finset Row) : Set Row) ⊆ ↑A.rows ∪ ↑B.rows := by
    intro z hz
    rcases Finset.mem_symmDiff.1 hz with ⟨hz, -⟩ | ⟨hz, -⟩
    · exact .inl hz
    · exact .inr hz
  have hlisted := (mem_diffForests_iff_row (A := A.rows) (B := B.rows) hA.hashes hB.hashes
    (hU.mono hsub)).2 ⟨y, hy, rfl⟩
  refine hk _ (List.mem_map_of_mem hlisted) ?_
  exact (DivergentLeaf.covers_iff (isPrefix_prefixAt y.1.morton_lt _) y.1).2 (inCell_self _ _)

/-- When nothing fails and nobody holds `seal_io`, rows can be shipped. -/
theorem exists_ships (rows : List Row) {t : SpatioTemporalStore L} (hio : t.sealIo = false) :
    ∃ t', Ships .reliable rows t t' ∧ t'.sealIo = false := by
  induction rows generalizing t with
  | nil => exact ⟨t, ⟨[], rfl, rfl⟩, hio⟩
  | cons y rows ih =>
    rcases exec_ingest y.1 y.2 t with ⟨hheld, -⟩ | ⟨b, t₁, hexec, ht₁⟩
    · rw [hio] at hheld
      cases hheld
    · obtain ⟨t', ⟨ds, rfl, hing⟩, ht'⟩ := ih (ht₁.trans hio)
      have hcall : Alone (storeSem L .reliable) (ingest y.1 y.2) t (.ok b) t₁ :=
        alone_of_exec (fun _ _ _ _ => sem_reliable) hexec
      exact ⟨t', ⟨⟨t, y, b, t₁⟩ :: ds, rfl, rfl, hcall, hing⟩, ht'⟩

/-- The exchange of any plan comes to an end then. -/
theorem exists_exchange (plan : List (Key × Key)) (hown : s.own.sealIo = false)
    (hpeer : s.peer.sealIo = false) : ∃ s', Exchange .reliable plan s s' := by
  induction plan generalizing s with
  | nil => exact ⟨s, rfl⟩
  | cons range plan ih =>
    obtain ⟨B, hB, hBio⟩ := exists_ships (scanRange s.own.tree range.1 range.2) hpeer
    obtain ⟨A, hA, hAio⟩ := exists_ships (scanRange B.tree range.1 range.2) hown
    obtain ⟨s', hrest⟩ := ih (s := ⟨A, B⟩) hAio hBio
    exact ⟨s', B, A, hB, hA, hrest⟩

/-- **The exchange of a plan converges.** Whatever the two stores hold, the plan is the same from
both sides and lists key ranges in byte order, none of which overlap. Let the forests be those of
the rows, and let no non-empty set of rows of the two stores fold to `0`. When each side ships its
rows in these ranges to the other, both stores hold the join of their tables, agree on every node
hash, and have nothing left to plan or to pull. -/
theorem converged_of_exchange (A : SpatioTemporalStore L) (B : SpatioTemporalStore L') :
    (A.syncPlan B.merkle = B.syncPlan A.merkle ∧ OrderedRanges (A.syncPlan B.merkle)) ∧
    ∀ A' B', A.Folds → B.Folds → Independent rowDigest (↑A.rows ∪ ↑B.rows) →
      Exchange pol (A.syncPlan B.merkle) ⟨A, B⟩ ⟨A', B'⟩ →
      Converged pol A B A' B' ∧ A'.syncPlan B'.merkle = [] ∧ B'.syncPlan A'.merkle = [] := by
  refine ⟨⟨syncPlan_comm A B, ordered_syncPlan A B⟩, fun A' B' hA hB hU h => ?_⟩
  obtain ⟨hex, hshared⟩ := exchanged_of_exchange hA hB h
  -- what one side holds the other dominates: shipped under the ranges, and its own elsewhere
  have hcross : ∀ k v, (A.table k = some v → Dominates itemDigest B'.table k v) ∧
      (B.table k = some v → Dominates itemDigest A'.table k v) := by
    intro k v
    by_cases hk : ∃ range ∈ A.syncPlan B.merkle, Covers range k
    · obtain ⟨range, hrange, hc⟩ := hk
      exact hshared range hrange k v hc
    · push Not at hk
      have heq := table_eq_of_not_covered hA hB hU hk
      exact ⟨fun hv => hex.peerGrew k v (heq ▸ hv), fun hv => hex.ownGrew k v (heq ▸ hv)⟩
  have hjoin : IsJoin itemDigest A'.table A.table B.table :=
    ⟨hex.ownGrew, fun k v hv => (hcross k v).2 hv, hex.ownOnly⟩
  have hjoin' : IsJoin itemDigest B'.table A.table B.table :=
    ⟨fun k v hv => (hcross k v).1 hv, hex.peerGrew, hex.peerOnly⟩
  have hsame : A'.rows = B'.rows :=
    KvTree.rows_congr (hjoin.unique hjoin' (eq_of_itemDigest_eq hU))
  have hnode : ∀ e d p, L.Valid d → L'.Valid d → IsPrefix d p →
      A'.merkle.nodeHash e d p = B'.merkle.nodeHash e d p := by
    intro e d p hd hd' hp
    rw [hex.own.hashes e d p hd hp, hex.peer.hashes e d p hd' hp, hsame]
  have hroot := fun e => hnode e 0 0 L.valid_zero L'.valid_zero isPrefix_zero
  have hroot' := fun e => (hroot e).symm
  exact ⟨⟨hsame, hjoin, hnode, quiet_of_roots hroot, quiet_of_roots hroot'⟩,
    syncPlan_eq_nil hroot, syncPlan_eq_nil hroot'⟩

end Exchange

section Sample

local instance planSha : Sha256 := sampleDigests

theorem converged_of_exchange_rivals : ∃ A' B', A' ≠ storedOnce ∧
    Converged .reliable storedOnce rivalStore A' B' ∧ A'.syncPlan B'.merkle = [] := by
  have ha : storedOnce.sealIo = false := by decide +kernel
  have hb : rivalStore.sealIo = false := by decide +kernel
  obtain ⟨s', h⟩ := exists_exchange (s := (⟨storedOnce, rivalStore⟩ : Peers _ _))
    (storedOnce.syncPlan rivalStore.merkle) ha hb
  obtain ⟨A', B'⟩ := s'
  have hU : Independent rowDigest (↑storedOnce.rows ∪ ↑rivalStore.rows) :=
    independent_sampleRows.mono
      (Set.union_subset consistent_storedOnce.rows consistent_rivalStore.rows)
  obtain ⟨hconv, hplan, -⟩ := (converged_of_exchange storedOnce rivalStore).2 A' B'
    (consistent_storedOnce.folds independent_sampleRows)
    (consistent_rivalStore.folds independent_sampleRows) hU h
  -- the row under the next key comes from the other side
  have hrow : rivalStore.table (.ofFields 0 0 1) = some [0x62] := by decide +kernel
  have hnone : storedOnce.table (.ofFields 0 0 1) = none := by decide +kernel
  have hnew : A' ≠ storedOnce := by
    intro heq
    obtain ⟨w, hw, -⟩ := hconv.isJoin.right _ _ hrow
    rw [heq, hnone] at hw
    cases hw
  exact ⟨A', B', hnew, hconv, hplan⟩

end Sample

end InterstellarDb
