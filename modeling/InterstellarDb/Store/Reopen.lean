import InterstellarDb.Merkle.Canonical
import InterstellarDb.Store.Open

/-!
# Rebuilding from seals is rebuilding by scanning

The forest that `open` builds from seal records and scans of the remaining epochs is the forest
that scanning every row would build, whatever else is on the disk.

Which records are loaded is a matter of their frame (`loadSealedEpoch_frame`): the version, the leaf
depth and the length. The entries are taken as they are, and a record of no entries is loaded
(`not_loadSealedEpoch_canonical`).
-/

namespace InterstellarDb.Reopen

open GreatestWins

section Fold

variable {L : LeafDepth} [Sha256]

/-- The forest with every data row of the disk inserted. -/
def foldRows (L : LeafDepth) (kv : KvTree) : MerkleForest L :=
  (MerkleForest.new L).insertAll (kv.data.toList.filterMap KvTree.rowOf)

theorem foldOf_foldRows (kv : KvTree) : FoldOf (foldRows L kv) kv.rows := by
  refine foldOf_insertAll (List.Nodup.filterMap (fun x y z hx hy => ?_)
    (MapList.ascending_toList kv.data).nodup)
  rw [KvTree.rowOf_eq_some.1 hx, KvTree.rowOf_eq_some.1 hy]

/-- Two forests that look the same: node hashes, epoch roots, counts and length. -/
structure SameForest (f g : MerkleForest L) : Prop where
  nodeHash : ∀ e d p, L.Valid d → IsPrefix d p → f.nodeHash e d p = g.nodeHash e d p
  epochRoots : f.epochRoots = g.epochRoots
  count : ∀ e, f.count e = g.count e
  len : f.len = g.len

omit [Sha256] in
theorem sameForest {f g : MerkleForest L}
    (hn : ∀ e d p, L.Valid d → IsPrefix d p → f.nodeHash e d p = g.nodeHash e d p)
    (hc : ∀ e, f.count e = g.count e) : SameForest f g where
  nodeHash := hn
  epochRoots := MerkleForest.epochRoots_congr fun e => hn e 0 0 L.valid_zero isPrefix_zero
  count := hc
  len := by rw [f.len_eq_sum, g.len_eq_sum, Finset.sum_congr rfl fun e _ => hc e]

/-- The rebuilt forest depends on the rows and the accepted records only. -/
theorem sameForest_openStore {ix : HybridSpatioTemporalIndexer} {kv kv' : KvTree}
    (ht : kv'.table = kv.table)
    (hr : ∀ e b, Accepts L b → (kv'.record e = some b ↔ kv.record e = some b)) :
    SameForest (openStore L ix kv').merkle (openStore L ix kv).merkle := by
  have hrows : kv'.rows = kv.rows := KvTree.rows_congr ht
  refine sameForest (fun e d p hd hp => ?_) fun e => ?_
  · obtain ⟨h₁, h₂⟩ := nodeHash_openStore ix kv e hd hp
    obtain ⟨h₁', h₂'⟩ := nodeHash_openStore ix kv' e hd hp
    by_cases hb : ∃ b, kv.record e = some b ∧ Accepts L b
    · obtain ⟨b, hb, ha⟩ := hb
      rw [h₁ b hb ha, h₁' b ((hr e b ha).2 hb) ha]
    · rw [h₂ fun b hb' ha => hb ⟨b, hb', ha⟩,
        h₂' fun b hb' ha => hb ⟨b, (hr e b ha).1 hb', ha⟩, hrows]
  · obtain ⟨h₁, h₂⟩ := count_openStore L ix kv e
    obtain ⟨h₁', h₂'⟩ := count_openStore L ix kv' e
    by_cases hb : ∃ b, kv.record e = some b ∧ Accepts L b
    · obtain ⟨b, hb, ha⟩ := hb
      rw [h₁ b hb ha, h₁' b ((hr e b ha).2 hb) ha]
    · rw [h₂ fun b hb' ha => hb ⟨b, hb', ha⟩,
        h₂' fun b hb' ha => hb ⟨b, (hr e b ha).1 hb', ha⟩, hrows]

/-- **Rebuilding from seals is rebuilding by scanning.** When every accepted seal record is what
`serialize_epoch` gives for the rows of its epoch, the opened forest is that of all rows, each
counted once, and the rejected records have no influence on it. -/
theorem openStore_sameForest (ix : HybridSpatioTemporalIndexer) (kv : KvTree)
    (hseal : ∀ e b, kv.record e = some b → ((MerkleForest.new L).loadSealedEpoch e b).isOk = true →
      (foldRows L kv).serializeEpoch e = some b) :
    SameForest (openStore L ix kv).merkle (foldRows L kv) ∧
      (∀ e, (openStore L ix kv).merkle.count e = (epochCount kv.rows e : BitVec 64)) ∧
      (openStore L ix kv).merkle.len = (kv.rows.card : BitVec 64) ∧
      ∀ kv' : KvTree, kv'.table = kv.table →
        (∀ e b, ((MerkleForest.new L).loadSealedEpoch e b).isOk = true →
          (kv'.record e = some b ↔ kv.record e = some b)) →
        SameForest (openStore L ix kv').merkle (openStore L ix kv).merkle := by
  have hfold : FoldOf (openStore L ix kv).merkle kv.rows := foldOf_openStore fun e b hb ha =>
    ⟨foldRows L kv, foldOf_foldRows kv, hseal e b hb (isOk_loadSealedEpoch.2 ha)⟩
  have hscan := foldOf_foldRows (L := L) kv
  refine ⟨sameForest (fun e d p hd hp => ?_) fun e => ?_, hfold.counts, hfold.counts.len,
    fun kv' ht hr => sameForest_openStore ht fun e b ha => hr e b (isOk_loadSealedEpoch.2 ha)⟩
  · rw [hfold.hashes e d p hd hp, hscan.hashes e d p hd hp]
  · rw [hfold.counts e, hscan.counts e]

/-! ## Records that are loaded -/

/-- **What a load accepts**: the records of the right version, leaf depth and length. Those that
`serialize_epoch` produces are the canonical ones among them, and only those are given back by it.
The epoch of any other record is rescanned. -/
theorem loadSealedEpoch_frame (L : LeafDepth) (b : Bytes) :
    (∀ (f : MerkleForest L) (e : Epoch), f.trees[e]? = none →
      ((∃ g, f.loadSealedEpoch e b = .ok g) ↔ Accepts L b) ∧
      ∀ g, f.loadSealedEpoch e b = .ok g → (g.serializeEpoch e = some b ↔ Canonical L b)) ∧
    (Canonical L b ↔ Accepts L b ∧ ∃ (f : MerkleForest L) (e : Epoch),
      f.serializeEpoch e = some b) ∧
    (¬ Accepts L b → (∀ (f : MerkleForest L) (e : Epoch),
        ∃ err, f.loadSealedEpoch e b = .error err) ∧
      ∀ (ix : HybridSpatioTemporalIndexer) (kv : KvTree) (e : Epoch), kv.record e = some b →
        e ∉ (openStore L ix kv).sealState.sealed ∧
        (∀ d p, L.Valid d → IsPrefix d p →
          (openStore L ix kv).merkle.nodeHash e d p = cellHash kv.rows e d p) ∧
        (openStore L ix kv).merkle.count e = (epochCount kv.rows e : BitVec 64)) := by
  refine ⟨fun f e hf => ⟨?_, fun g hg => ?_⟩, canonical_iff_produced, fun hb => ⟨fun f e => ?_,
    fun ix kv e he => ?_⟩⟩
  · constructor
    · rintro ⟨g, hg⟩
      exact (loadSealedEpoch_eq_ok.1 hg).2.1
    · intro ha
      exact ⟨_, loadSealedEpoch_eq_ok.2 ⟨hf, ha, rfl⟩⟩
  · obtain ⟨-, ha, rfl⟩ := loadSealedEpoch_eq_ok.1 hg
    rw [MerkleForest.serializeEpoch_eq, MerkleForest.tree_insert_trees, if_pos rfl]
    exact serializeTree_recordTree_iff ha
  · cases hload : f.loadSealedEpoch e b with
    | error err => exact ⟨err, rfl⟩
    | ok g => exact absurd (loadSealedEpoch_eq_ok.1 hload).2.1 hb
  · -- the only record of the epoch is not accepted
    have hnone : ∀ b', kv.record e = some b' → ¬ Accepts L b' := by
      intro b' hb'
      rwa [Option.some.inj (he.symm.trans hb')] at hb
    refine ⟨fun hsealed => ?_, fun d p hd hp => (nodeHash_openStore ix kv e hd hp).2 hnone,
      (count_openStore L ix kv e).2 hnone⟩
    obtain ⟨b', hb', ha⟩ := mem_sealed_openStore.1 hsealed
    exact hnone b' hb' ha

end Fold

/-- A record that announces no entries. -/
def hollowRecord : Bytes := [1, 6] ++ List.replicate 12 0

/-- A record of no entries is loaded, and no forest produces it. -/
theorem not_loadSealedEpoch_canonical :
    ¬ ∀ (L : LeafDepth) (b : Bytes) (f : MerkleForest L) (e : Epoch), f.trees[e]? = none →
      ((∃ g, f.loadSealedEpoch e b = .ok g) ↔
        ∃ (f' : MerkleForest L) (e' : Epoch), f'.serializeEpoch e' = some b) := by
  intro h
  have haccepts : Accepts twoLevels hollowRecord :=
    ⟨by decide, by decide, by decide, by decide⟩
  obtain ⟨f', e', hb⟩ := (h twoLevels hollowRecord (.new _) 0 rfl).1
    ⟨_, loadSealedEpoch_eq_ok.2 ⟨rfl, haccepts, rfl⟩⟩
  rw [MerkleForest.serializeEpoch_eq] at hb
  obtain ⟨hne, hrecord⟩ := serializeTree_eq_some.1 hb
  have hlen := congrArg List.length hrecord
  rw [length_sealRecord] at hlen
  have hpos := List.length_pos_of_ne_nil hne
  have hhollow : hollowRecord.length = 14 := rfl
  omega

/-! ## A sealed disk -/

section Sample

local instance reopenSha : Sha256 := sampleDigests

/-- A disk with one row. -/
def sampleRow : KvTree := KvTree.empty.commit [.set (Key.ofFields 0 0 0).bytes [0x61]]

/-- The disk with the seal record of its row. -/
def sampleDisk : KvTree :=
  sampleRow.commit
    [.set (sealKey 0) (((foldRows merkleLeafDepth sampleRow).serializeEpoch 0).getD [])]

theorem loadSealedEpoch_frame_hollow :
    ∃ g, (MerkleForest.new twoLevels).loadSealedEpoch 0 hollowRecord = .ok g :=
  (((loadSealedEpoch_frame twoLevels hollowRecord).1 (.new _) 0 rfl).1).2
    ⟨by decide, by decide, by decide, by decide⟩

theorem openStore_sameForest_sample :
    SameForest (openStore merkleLeafDepth testIndexer sampleDisk).merkle
      (foldRows merkleLeafDepth sampleDisk) ∧
    (openStore merkleLeafDepth testIndexer sampleDisk).sealState.sealed = {0} := by
  refine ⟨(openStore_sameForest testIndexer sampleDisk fun e b hb _ => ?_).1, by decide +kernel⟩
  rw [sampleDisk, KvTree.record_setRecord] at hb
  by_cases he : e = 0
  · subst he
    rw [Function.update_self] at hb
    rw [← Option.some.inj hb]
    decide +kernel
  · rw [Function.update_of_ne he, sampleRow, KvTree.record_set] at hb
    simp [KvTree.record, KvTree.get, KvTree.empty] at hb

end Sample

end InterstellarDb.Reopen
