import InterstellarDb.Store.Calls

/-!
# Trustworthy seal records

A session is *trusted* for a set `D` of leaf depths when its forest is the fold of its rows, every
seal record on disk that some depth of `D` accepts is the record of the rows of its epoch, and the
epochs of the records that it accepts itself are marked as sealed (`Trusted`).

Unsealing, sealing and reopening keep that. So does a write, when the rows of a `store` are fresh
and the records of its epochs are the session's own: those are deleted before the rows land
(`Trusted.wrote`).
-/

namespace InterstellarDb

open Atomic GreatestWins

@[ext] theorem LeafDepth.ext {L L' : LeafDepth} (h : L.bits = L'.bits) : L = L' := by
  cases L
  cases L'
  congr

variable [Sha256] {L L' : LeafDepth}

/-! ## Records of an epoch -/

theorem exists_foldOf (L : LeafDepth) (rows : Finset Row) :
    ∃ f : MerkleForest L, FoldOf f rows := by
  refine ⟨(MerkleForest.new L).insertAll rows.toList, ?_⟩
  have := foldOf_insertAll (L := L) rows.nodup_toList
  rwa [Finset.toList_toFinset] at this

/-- The record of an epoch depends on the rows of that epoch only. -/
theorem IsRecordOf.congr {b : Bytes} {e : Epoch} {rows rows' : Finset Row}
    (h : IsRecordOf L b e rows) (he : ∀ r : Row, r.1.epoch = e → (r ∈ rows' ↔ r ∈ rows)) :
    IsRecordOf L b e rows' := by
  obtain ⟨f, hf, hb⟩ := h
  obtain ⟨g, hg⟩ := exists_foldOf L rows'
  refine ⟨g, hg, ?_⟩
  have hcell : ∀ d p, cellHash rows' e d p = cellHash rows e d p := by
    intro d p
    refine Finset.sum_congr (Finset.ext fun r => ?_) fun _ _ => rfl
    simp only [Finset.mem_filter]
    exact and_congr_left fun hr => he r hr.1
  have hcount : epochCount rows' e = epochCount rows e := by
    unfold epochCount
    congr 1
    ext r
    simp only [Finset.mem_filter]
    exact and_congr_left fun hr => he r hr
  rw [← hb, MerkleForest.serializeEpoch_eq, MerkleForest.serializeEpoch_eq]
  refine serializeTree_congr (fun p hp => ?_) ?_
  · rw [← MerkleForest.nodeHash_eq, ← MerkleForest.nodeHash_eq, hf.hashes e _ p L.valid_bits hp,
      hg.hashes e _ p L.valid_bits hp, hcell]
  · show g.count e = f.count e
    rw [hf.counts e, hg.counts e, hcount]

omit [Sha256] in
/-- A record that was serialized at one leaf depth is accepted at no other. -/
theorem eq_of_accepts_serializeEpoch {f : MerkleForest L} {e : Epoch} {b : Bytes}
    (hb : f.serializeEpoch e = some b) (ha : Accepts L' b) : L' = L := by
  rw [MerkleForest.serializeEpoch_eq] at hb
  obtain ⟨-, rfl⟩ := serializeTree_eq_some.1 hb
  apply LeafDepth.ext
  rw [← ha.depth]
  show (UInt8.ofNat L.bits).toNat = L.bits
  have := L.le_63
  rw [UInt8.toNat_ofNat']
  omega

/-! ## The fold of a write -/

section Fold

variable {f : MerkleForest L} {m : Key → Option Bytes} {s t : Finset Row} {l : List Row}

omit [Sha256] in
theorem exists_rows_writeAll (hs : Rows m s) (l : List Row) :
    ∃ t, Rows (KvTree.writeAll m l) t ∧ t.card ≤ s.card + l.length := by
  induction l generalizing m s with
  | nil => exact ⟨s, hs, le_rfl⟩
  | cons r l ih =>
    obtain ⟨t, ht, hc⟩ := ih (hs.update r.1 r.2)
    have hone := hs.card_update_le (hs.update r.1 r.2)
    refine ⟨t, ht, hc.trans ?_⟩
    rw [List.length_cons]
    omega

/-- Folding rows in under fresh keys, each once. -/
theorem FoldOf.insertRows (hf : FoldOf f s) (hs : Rows m s) (hl : (l.map Prod.fst).Nodup)
    (hfresh : ∀ r ∈ l, m r.1 = none) (ht : Rows (KvTree.writeAll m l) t) :
    FoldOf (f.editAll (l.map .insert)) t := by
  induction l generalizing f m s with
  | nil =>
    obtain rfl := hs.unique ht
    exact hf
  | cons r l ih =>
    obtain ⟨hr, hl⟩ := List.nodup_cons.1 hl
    have hone := hf.insert hs (hs.update r.1 r.2) (hfresh r (by simp))
    refine ih hone (hs.update r.1 r.2) hl (fun x hx => ?_) ht
    have hne : x.1 ≠ r.1 := fun h => hr (h ▸ List.mem_map_of_mem hx)
    rw [Function.update_of_ne hne]
    exact hfresh x (List.mem_cons_of_mem _ hx)

omit [Sha256] in
theorem count_ne_zero {k : Key} {c : Bytes} (hf : Counts f s) (hs : Rows m s) (hk : m k = some c)
    (hfits : s.card < 2 ^ 64) : f.count k.epoch ≠ 0 := by
  have hmem : (k, c) ∈ s.filter fun r => r.1.epoch = k.epoch := by simp [hs k c, hk]
  have hpos : 0 < epochCount s k.epoch := Finset.card_pos.2 ⟨_, hmem⟩
  have hle : epochCount s k.epoch ≤ s.card := Finset.card_filter_le _ _
  rw [hf k.epoch]
  intro h
  have := congrArg BitVec.toNat h
  simp only [BitVec.natCast_eq_ofNat, BitVec.toNat_ofNat] at this
  rw [Nat.mod_eq_of_lt (by omega)] at this
  simp at this
  omega

/-- Folding the row of a key out, if it has one, and another one in. -/
theorem FoldOf.ingest {k : Key} {v : Bytes} (hf : FoldOf f s) (hs : Rows m s)
    (hfits : s.card < 2 ^ 64) (ht : Rows (Function.update m k (some v)) t) :
    FoldOf (f.editAll (ingestEdits k v (m k))) t := by
  cases hk : m k with
  | none => exact hf.insert hs ht hk
  | some c => exact hf.replace hs ht hk (count_ne_zero hf.counts hs hk hfits)

end Fold

/-! ## The invariant -/

/-- The forest is the fold of the rows, and every record that a depth of `D` accepts describes the
rows of its epoch. -/
structure Trusted (D : Set LeafDepth) (s : SpatioTemporalStore L) : Prop where
  fold : FoldOf s.merkle s.rows
  record : ∀ L' ∈ D, ∀ e b, s.tree.record e = some b → Accepts L' b → IsRecordOf L' b e s.rows
  sealed : ∀ e b, s.tree.record e = some b → Accepts L b → e ∈ s.sealState.sealed
  fits : s.rows.card < 2 ^ 64

variable {D : Set LeafDepth} {s s' : SpatioTemporalStore L}

theorem trusted_openStore (ix : HybridSpatioTemporalIndexer) {kv : KvTree} (hL : L ∈ D)
    (h : ∀ L' ∈ D, ∀ e b, kv.record e = some b → Accepts L' b → IsRecordOf L' b e kv.rows)
    (hfits : kv.rows.card < 2 ^ 64) : Trusted D (openStore L ix kv) where
  fold := foldOf_openStore fun e b hb ha => h L hL e b hb ha
  record := h
  sealed := fun _ b hb ha => mem_sealed_openStore.2 ⟨b, hb, ha⟩
  fits := hfits

theorem trusted_empty (ix : HybridSpatioTemporalIndexer) (hL : L ∈ D) :
    Trusted D (openStore L ix .empty) := by
  refine trusted_openStore ix hL (fun L' _ e b hb _ => ?_) (by simp [KvTree.rows_empty])
  simp [KvTree.record, KvTree.get, KvTree.empty] at hb

theorem Trusted.reopen (h : Trusted D s) (hL : L' ∈ D) (ix : HybridSpatioTemporalIndexer) :
    Trusted D (openStore L' ix s.tree) :=
  trusted_openStore ix hL h.record h.fits

omit [Sha256] in
theorem Unsealed.record_eq {es : List Epoch} (h : Unsealed es s s') {e : Epoch} {b : Bytes}
    (hb : s'.tree.record e = some b) :
    s.tree.record e = some b ∧ ¬ (e ∈ es ∧ e ∈ s.sealState.sealed) := by
  rw [h.record] at hb
  split_ifs at hb with he
  exact ⟨hb, he⟩

theorem Trusted.unsealed (h : Trusted D s) {es : List Epoch} (hu : Unsealed es s s') :
    Trusted D s' where
  fold := by
    rw [hu.merkle, hu.rows]
    exact h.fold
  record := by
    intro L' hL' e b hb ha
    rw [hu.rows]
    exact h.record L' hL' e b (hu.record_eq hb).1 ha
  sealed := by
    intro e b hb ha
    obtain ⟨hb, hne⟩ := hu.record_eq hb
    have hs := h.sealed e b hb ha
    exact (hu.sealed e).2 ⟨hs, fun he => hne ⟨he, hs⟩⟩
  fits := by
    rw [hu.rows]
    exact h.fits

theorem Trusted.sealedSome (h : Trusted D s) (hu : SealedSome s s') : Trusted D s' where
  fold := by
    rw [hu.merkle, hu.rows]
    exact h.fold
  record := by
    intro L' hL' e b hb ha
    rw [hu.rows]
    rcases hu.epoch e with ⟨hr, -⟩ | ⟨-, -, c, hc, hr⟩
    · exact h.record L' hL' e b (hr ▸ hb) ha
    · obtain rfl : c = b := by simpa [hr] using hb
      -- a new record is one of this leaf depth
      obtain rfl := eq_of_accepts_serializeEpoch hc ha
      exact ⟨s.merkle, h.fold, hc⟩
  sealed := by
    intro e b hb ha
    rcases hu.epoch e with ⟨hr, hs⟩ | ⟨-, hs, -⟩
    · exact hs.2 (h.sealed e b (hr ▸ hb) ha)
    · exact hs
  fits := by
    rw [hu.rows]
    exact h.fits

/-! ## Writes -/

/-- The keys of a `store` or `store_batch` call are not stored yet, and each occurs once. -/
def Fresh (s : SpatioTemporalStore L) (c : StoreCall) : Prop :=
  c.IsStore → ((c.rows s.indexer).map Prod.fst).Nodup ∧ ∀ r ∈ c.rows s.indexer, s.table r.1 = none

/-- The number of rows stays below `2 ^ 64`. -/
def Fits (s : SpatioTemporalStore L) (c : StoreCall) : Prop :=
  s.rows.card + (c.rows s.indexer).length < 2 ^ 64

/-- The accepted calls write fresh keys, and fewer than `2 ^ 64` rows are stored. -/
def FreshWrites (x : Session) (c : StoreCall) (r : Except String Bool) : Prop :=
  r = .ok true → Fresh x.2 c ∧ Fits x.2 c

/-- The records of the epochs that a call writes to are those of this session's leaf depth. -/
def OwnRecords (D : Set LeafDepth) (s : SpatioTemporalStore L) (c : StoreCall) : Prop :=
  ∀ r ∈ c.rows s.indexer, ∀ b, s.tree.record r.1.epoch = some b → ∀ L' ∈ D, Accepts L' b → L' = L

variable {c : StoreCall}

theorem Trusted.fold_wrote (h : Trusted D s) (hw : CallWrote c s s') (hfresh : Fresh s c) :
    FoldOf s'.merkle s'.rows := by
  have ht := hw.rows_writeAll
  rw [hw.merkle]
  cases c with
  | store x =>
    obtain ⟨hnd, hnone⟩ := hfresh trivial
    exact h.fold.insertRows s.tree.rows_table hnd hnone ht
  | storeBatch xs =>
    obtain ⟨hnd, hnone⟩ := hfresh trivial
    exact h.fold.insertRows s.tree.rows_table hnd hnone ht
  | ingest k v => exact h.fold.ingest s.tree.rows_table h.fits ht
  | sealSettledEpochs now grace => exact absurd rfl (hw.writes now grace)

/-- **No record of an epoch survives a write to it**, among those that a depth of `D` accepts. -/
theorem Trusted.record_wrote (h : Trusted D s) (hL : L ∈ D) (hw : CallWrote c s s')
    (hown : OwnRecords D s c) {e : Epoch} {b : Bytes} (hb : s'.tree.record e = some b)
    (hL' : L' ∈ D) (ha : Accepts L' b) :
    s.tree.record e = some b ∧ (∀ r ∈ c.rows s.indexer, r.1.epoch ≠ e) ∧
      (e ∈ s.sealState.sealed → e ∈ s'.sealState.sealed) := by
  obtain ⟨es, s₁, hes, hu, hw⟩ := hw.run
  rw [hw.tree, KvTree.record_setRows] at hb
  obtain ⟨hb, hne⟩ := hu.record_eq hb
  have hnot : e ∉ es := by
    intro he
    obtain ⟨r, hr, hre⟩ := (hes e).1 he
    obtain rfl := hown r hr b (hre ▸ hb) L' hL' ha
    exact hne ⟨he, h.sealed e b hb ha⟩
  refine ⟨hb, fun r hr hre => hnot ((hes e).2 ⟨r, hr, hre⟩), fun hs => ?_⟩
  rw [hw.sealed]
  exact (hu.sealed e).2 ⟨hs, hnot⟩

theorem CallWrote.mem_rows_iff (hw : CallWrote c s s') {r : Row}
    (hr : ∀ x ∈ c.rows s.indexer, x.1 ≠ r.1) : r ∈ s'.rows ↔ r ∈ s.rows := by
  have hk : r.1 ∉ (c.rows s.indexer).map Prod.fst := by
    intro h
    obtain ⟨x, hx, hxr⟩ := List.mem_map.1 h
    exact hr x hx hxr
  rw [mem_rows, mem_rows, hw.table, writeAll_of_notMem hk]

/-- **A write keeps the records trustworthy.** -/
theorem Trusted.wrote (h : Trusted D s) (hL : L ∈ D) (hw : CallWrote c s s') (hfresh : Fresh s c)
    (hfits : Fits s c) (hown : OwnRecords D s c) : Trusted D s' where
  fold := h.fold_wrote hw hfresh
  record := by
    intro L' hL' e b hb ha
    obtain ⟨hb, hne, -⟩ := h.record_wrote hL hw hown hb hL' ha
    refine (h.record L' hL' e b hb ha).congr fun r hr => hw.mem_rows_iff fun x hx hxr => ?_
    exact hne x hx (hxr ▸ hr)
  sealed := by
    intro e b hb ha
    obtain ⟨hb, -, hs⟩ := h.record_wrote hL hw hown hb hL ha
    exact hs (h.sealed e b hb ha)
  fits := by
    obtain ⟨t, ht, hc⟩ := exists_rows_writeAll s.tree.rows_table (c.rows s.indexer)
    rw [hw.rows_writeAll.unique ht]
    exact hc.trans_lt hfits

/-- **A call keeps the records trustworthy.** -/
theorem Trusted.call {pol : KvPolicy} {r : Except String Bool} (h : Trusted D s) (hL : L ∈ D)
    (hrun : Alone (storeSem L pol) (c.prog s.indexer) s r s')
    (hc : r = .ok true → Fresh s c ∧ Fits s c ∧ OwnRecords D s c) : Trusted D s' := by
  rcases alone_call hrun with ⟨-, _, -, hu⟩ | ⟨-, hu⟩ | ⟨hr, hw⟩
  · exact h.unsealed hu
  · exact h.sealedSome hu
  · obtain ⟨hfresh, hfits, hown⟩ := hc hr
    exact h.wrote hL hw hfresh hfits hown

end InterstellarDb
