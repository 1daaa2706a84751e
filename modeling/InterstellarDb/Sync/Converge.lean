import InterstellarDb.Sync.Peers

/-!
# Two stores that pull from each other

A round that ends well leaves the store with the join of both tables: under every key the payload
of the greater digest (`isJoin_of_pull`). So when first one store pulls from the other and then
the other from the first, both hold the same rows and agree on every node hash; from then on every
round compares the roots and stops there (`Quiet`, `converged_of_pulls`).
-/

namespace InterstellarDb

open Atomic GreatestWins SetFold

section Converge

variable {L L' : LeafDepth} [Sha256] {pol : KvPolicy} {A A' : SpatioTemporalStore L}
  {B B' : SpatioTemporalStore L'}

/-! ## One pull -/

/-- **A pull joins the tables.** -/
theorem isJoin_of_pull (hA : Hashes A.merkle A.rows) (hB : Hashes B.merkle B.rows)
    (hU : Independent rowDigest (↑A.rows ∪ ↑B.rows)) {stats : SyncStats}
    (h : Alone (syncSem pol) (syncOnce L) ⟨A, B⟩ (.ok stats) ⟨A', B'⟩) :
    B' = B ∧ Hashes A'.merkle A'.rows ∧ IsJoin itemDigest A'.table A.table B.table := by
  have hs : BothConsistent (↑A.rows ∪ ↑B.rows) (⟨A, B⟩ : Peers L L') :=
    ⟨⟨hA, Set.subset_union_left⟩, ⟨hB, Set.subset_union_right⟩⟩
  obtain ⟨hadv, hdom⟩ := alone_syncOnce hU hs h
  refine ⟨peer_of_alone h, hadv.consistent.own.hashes, hadv.own, fun k v hv => ?_,
    fun k v hv => ?_⟩
  · exact hdom stats rfl (k, v) (mem_rows.2 hv)
  · have hmem : (k, v) ∈ A'.rows := mem_rows.2 hv
    rcases hadv.consistent.own.rows hmem with hin | hin
    · exact .inl (mem_rows.1 hin)
    · exact .inr (mem_rows.1 hin)

/-- The rows of a join are rows of the one store or of the other. -/
theorem mem_rows_of_isJoin (h : IsJoin itemDigest A'.table A.table B.table) {r : Row}
    (hr : r ∈ A'.rows) : r ∈ A.rows ∨ r ∈ B.rows := by
  rcases h.only r.1 r.2 (mem_rows.1 hr) with hin | hin
  · exact .inl (mem_rows.2 hin)
  · exact .inr (mem_rows.2 hin)

/-- Different payloads of a key have different digests, among independent rows. -/
theorem eq_of_itemDigest_eq (hU : Independent rowDigest (↑A.rows ∪ ↑B.rows)) (k : Key)
    (v w : Bytes) (hv : A.table k = some v ∨ B.table k = some v)
    (hw : A.table k = some w ∨ B.table k = some w) (h : itemDigest k v = itemDigest k w) :
    v = w := by
  have hmem : ∀ x, A.table k = some x ∨ B.table k = some x →
      ((k, x) : Row) ∈ (↑A.rows ∪ ↑B.rows : Set Row) := by
    rintro x (hx | hx)
    · exact .inl (mem_rows.2 hx)
    · exact .inr (mem_rows.2 hx)
  exact congrArg Prod.snd (hU.injOn (hmem v hv) (hmem w hw) h)

/-! ## Quiet rounds -/

/-- No leaf was fetched. -/
def NoFetch (log : List (SyncOp × Peers L L')) : Prop := ∀ x ∈ log, ∀ a b, x.1 ≠ .fetch a b

omit [Sha256] in
theorem NoFetch.concat {log : List (SyncOp × Peers L L')} (h : NoFetch log) {o : SyncOp}
    (ho : ∀ a b, o ≠ .fetch a b) (s : Peers L L') : NoFetch (log ++ [(o, s)]) := by
  intro x hx
  rcases List.mem_append.1 hx with hx | hx
  · exact h x hx
  · obtain rfl := List.mem_singleton.1 hx
    exact ho

/-- Every round of the store against the peer, whether it ends well or not, fetches no leaf,
receives and applies no row, and changes nothing. -/
def Quiet (pol : KvPolicy) (A : SpatioTemporalStore L) (B : SpatioTemporalStore L') : Prop :=
  ∀ r s' log, Alone (logged (syncSem pol)) (syncOnce L) (⟨A, B⟩, []) r (s', log) →
    s' = ⟨A, B⟩ ∧ NoFetch log ∧ ∀ stats, r = .ok stats → stats = .default

/-- A cell whose hash agrees with the own one is not divergent. -/
theorem run_diverges_quiet {d : ℕ} {c : Epoch × ChildHash}
    {x x' : Peers L L' × List (SyncOp × Peers L L')}
    (hc : c.2.hash = hashBytes (x.1.own.merkle.nodeHash c.1 d c.2.nodePrefix))
    (hlog : NoFetch x.2) {r : Except SyncError Bool}
    (h : Alone (logged (syncSem pol)) (diverges c.1 d c.2) x r x') :
    r = .ok false ∧ x'.1 = x.1 ∧ NoFetch x'.2 := by
  rw [diverges, hc, hashFromBytes_hashBytes] at h
  dsimp only at h
  split_ifs at h with hzero
  · obtain ⟨rfl, rfl⟩ := h
    exact ⟨rfl, rfl, hlog⟩
  · obtain ⟨_, ours, y, rfl, ⟨⟨hy, rfl⟩, hl⟩, rfl, rfl⟩ := h
    refine ⟨by simp, hy, ?_⟩
    rw [hl]
    exact hlog.concat (by simp) _

/-- Cells whose hashes agree with the own ones are not divergent. -/
theorem run_divergent_quiet {d : ℕ} {cells : List (Epoch × ChildHash)}
    {x x' : Peers L L' × List (SyncOp × Peers L L')}
    (hcells : ∀ c ∈ cells,
      c.2.hash = hashBytes (x.1.own.merkle.nodeHash c.1 d c.2.nodePrefix))
    (hlog : NoFetch x.2) {r : Except SyncError (List (Epoch × ℕ))}
    (h : Alone (logged (syncSem pol)) (divergent d cells) x r x') :
    r = .ok [] ∧ x'.1 = x.1 ∧ NoFetch x'.2 := by
  induction cells generalizing x r with
  | nil =>
    obtain ⟨rfl, rfl⟩ := h
    exact ⟨rfl, rfl, hlog⟩
  | cons c cells ih =>
    obtain ⟨b, y, hone, hrest⟩ := alone_bind.1 h
    obtain ⟨rfl, hy, hylog⟩ := run_diverges_quiet (hcells c (by simp)) hlog hone
    obtain ⟨r', z, hrun, rfl, rfl⟩ := alone_bind.1 hrest
    obtain ⟨rfl, hz, hzlog⟩ := ih (fun c' hc' => hy ▸ hcells c' (List.mem_cons_of_mem _ hc'))
      hylog hrun
    exact ⟨rfl, hz.trans hy, hzlog⟩

/-- **Stores with the same root hashes are quiet.** -/
theorem quiet_of_roots
    (h : ∀ e, A.merkle.nodeHash e 0 0 = B.merkle.nodeHash e 0 0) : Quiet pol A B := by
  intro r s' log hrun
  obtain ⟨_, response, x, rfl, ⟨⟨hx, hop⟩, hl⟩, hrest⟩ := hrun
  have hlog : NoFetch x.2 := by
    rw [hl]
    exact NoFetch.concat (by simp [NoFetch]) (by simp) _
  rcases hop with rfl | ⟨status, rfl⟩
  · change Alone (logged (syncSem pol)) (pullFrom L (SyncService.roots B)) x r (s', log) at hrest
    unfold pullFrom at hrest
    cases hD : descendTo L (SyncService.roots B).leafDepthBits with
    | none =>
      rw [hD] at hrest
      obtain ⟨rfl, rfl⟩ := hrest
      exact ⟨hx, hlog, fun _ h => nomatch h⟩
    | some D =>
      rw [hD] at hrest
      obtain ⟨r', y, hone, hloop⟩ := alone_bind.1 hrest
      have hcells : ∀ c ∈ (SyncService.roots B).roots.map fun root =>
          (root.epoch, (⟨0, root.hash⟩ : ChildHash)),
          c.2.hash = hashBytes (x.1.own.merkle.nodeHash c.1 0 c.2.nodePrefix) := by
        intro c hc
        obtain ⟨root, hin, rfl⟩ := List.mem_map.1 hc
        rw [hx, h]
        exact (SyncService.mem_roots.1 hin).2
      obtain ⟨rfl, hy, hylog⟩ := run_divergent_quiet hcells hlog hone
      change Alone (logged (syncSem pol)) (syncLoop (D := D) [] .default) y r (s', log) at hloop
      rw [syncLoop_nil] at hloop
      obtain ⟨rfl, rfl⟩ := hloop
      exact ⟨hy.trans hx, hylog, fun stats hr => (Except.ok.inj hr).symm⟩
  · obtain ⟨rfl, rfl⟩ := hrest
    exact ⟨hx, hlog, fun _ h => nomatch h⟩

/-! ## Mutual pulls -/

/-- Two stores have converged, from `A` and `B` on. -/
structure Converged (pol : KvPolicy) (A : SpatioTemporalStore L) (B : SpatioTemporalStore L')
    (A' : SpatioTemporalStore L) (B' : SpatioTemporalStore L') : Prop where
  sameRows : A'.rows = B'.rows
  /-- Under every key of either side, the payload of the greater digest. -/
  isJoin : IsJoin itemDigest A'.table A.table B.table
  nodeHash : ∀ e d p, L.Valid d → L'.Valid d → IsPrefix d p →
    A'.merkle.nodeHash e d p = B'.merkle.nodeHash e d p
  quiet : Quiet pol A' B' ∧ Quiet pol B' A'

/-- **Mutual pulls converge.** The forests are those of the rows, and no non-empty set of rows of
the two stores folds to `0`. When `A` pulls from `B` and then `B` from `A`, both without an error,
each pull leaves its peer as it is, and the stores have converged. -/
theorem converged_of_pulls (hA : Hashes A.merkle A.rows) (hB : Hashes B.merkle B.rows)
    (hU : Independent rowDigest (↑A.rows ∪ ↑B.rows)) {stats stats' : SyncStats}
    {B₁ : SpatioTemporalStore L'} {A₁ : SpatioTemporalStore L}
    (h : Alone (syncSem pol) (syncOnce L) ⟨A, B⟩ (.ok stats) ⟨A', B₁⟩)
    (h' : Alone (syncSem pol) (syncOnce L') ⟨B₁, A'⟩ (.ok stats') ⟨B', A₁⟩) :
    B₁ = B ∧ A₁ = A' ∧ Converged pol A B A' B' := by
  obtain ⟨rfl, hA', hjoin⟩ := isJoin_of_pull hA hB hU h
  have hrows : (A'.rows : Set Row) ⊆ ↑A.rows ∪ ↑B₁.rows := fun _ => mem_rows_of_isJoin hjoin
  obtain ⟨rfl, hB', hjoin'⟩ := isJoin_of_pull hB hA'
    (hU.mono (Set.union_subset Set.subset_union_right hrows)) h'
  have htable : A₁.table = B'.table := by
    refine hjoin.unique ⟨hjoin.left.trans hjoin'.right, hjoin'.left, fun k v hv => ?_⟩
      (eq_of_itemDigest_eq hU)
    rcases hjoin'.only k v hv with hv | hv
    · exact .inr hv
    · exact hjoin.only k v hv
  have hsame : A₁.rows = B'.rows := KvTree.rows_congr htable
  have hnode : ∀ e d p, L.Valid d → L'.Valid d → IsPrefix d p →
      A₁.merkle.nodeHash e d p = B'.merkle.nodeHash e d p := by
    intro e d p hd hd' hp
    rw [hA' e d p hd hp, hB' e d p hd' hp, hsame]
  have hroot := fun e => hnode e 0 0 L.valid_zero L'.valid_zero isPrefix_zero
  exact ⟨rfl, rfl, hsame, hjoin, hnode, quiet_of_roots hroot,
    quiet_of_roots fun e => (hroot e).symm⟩

end Converge

section Sample

local instance convergeSha : Sha256 := sampleDigests

/-- The stores after the pull of `storedOnce` from `rivalStore`. -/
def rivalPull : Peers merkleLeafDepth merkleLeafDepth := pull storedOnce rivalStore

/-- The stores after the pull back. -/
def rivalPullBack : Peers merkleLeafDepth merkleLeafDepth := pull rivalPull.peer rivalPull.own

theorem converged_of_pulls_rivals :
    Converged .reliable storedOnce rivalStore rivalPull.own rivalPullBack.own := by
  have h : Alone (syncSem .reliable) (syncOnce merkleLeafDepth) ⟨storedOnce, rivalStore⟩
      (.ok ⟨1, 2, 1⟩) ⟨rivalPull.own, rivalPull.peer⟩ := alone_pull (by decide +kernel)
  have h' : Alone (syncSem .reliable) (syncOnce merkleLeafDepth) ⟨rivalPull.peer, rivalPull.own⟩
      (.ok ⟨1, 2, 1⟩) ⟨rivalPullBack.own, rivalPullBack.peer⟩ := alone_pull (by decide +kernel)
  have hU : Independent rowDigest (↑storedOnce.rows ∪ ↑rivalStore.rows) :=
    independent_sampleRows.mono
      (Set.union_subset consistent_storedOnce.rows consistent_rivalStore.rows)
  exact (converged_of_pulls consistent_storedOnce.hashes consistent_rivalStore.hashes hU h h').2.2

end Sample

end InterstellarDb
