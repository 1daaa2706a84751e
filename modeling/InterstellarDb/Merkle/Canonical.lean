import InterstellarDb.Merkle.Record

/-!
# Canonical records

A record that is accepted announces a number of entries and has as many, but loading it does not
look at them. A record is *canonical* (`Canonical`) when it is accepted, has an entry, and its
entries are non-zero hashes at strictly ascending leaf prefixes.

* The canonical records are those of some tree that are accepted (`canonical_iff_produced`).
* They are the ones that serialize again to what was loaded (`serializeTree_recordTree_iff`).
-/

namespace InterstellarDb

open Std BigEndian

variable {L : LeafDepth} {b : Bytes}

/-- The entries of a record, as they are read. -/
def recordEntries (b : Bytes) : List (ℕ × NodeHash) :=
  (List.range (recordLength b)).map fun i => ((recordEntry b i).1.val, (recordEntry b i).2)

/-- An accepted record as `serialize_epoch` writes them: it has an entry, the prefixes ascend and
have zeros below the leaf depth, and no hash is zero. -/
structure Canonical (L : LeafDepth) (b : Bytes) : Prop where
  accepts : Accepts L b
  nonempty : recordEntries b ≠ []
  ascending : (recordEntries b).Pairwise fun x y => x.1 < y.1
  aligned : ∀ x ∈ recordEntries b, IsPrefix L.bits x.1
  nonzero : ∀ x ∈ recordEntries b, x.2 ≠ 0

/-! ## A record is made of its fields -/

/-- The fields of an entry are its bytes. -/
theorem encodeEntry_recordEntry {i : ℕ} (h : 14 + i * 24 + 24 ≤ b.length) :
    encodeEntry ((recordEntry b i).1.val, (recordEntry b i).2) = slice b (14 + i * 24) 24 := by
  have hlt : ∀ {j w : ℕ}, j + w ≤ b.length → ofBytes (slice b j w) < 256 ^ w := by
    intro j w hj
    have := ofBytes_lt (slice b j w)
    rwa [length_slice hj] at this
  have hprefix : ((recordEntry b i).1 : ℕ) = ofBytes (slice b (14 + i * 24) 8) :=
    Nat.mod_eq_of_lt ((hlt (by omega)).trans_eq (by norm_num))
  have hhash : (recordEntry b i).2.toBeBytes = slice b (14 + i * 24 + 8) 16 := by
    have h₁ := toBytes_ofBytes_slice (b := b) (i := 14 + i * 24 + 8) (w := 16) (by omega)
    have h₂ : (recordEntry b i).2.toNat = ofBytes (slice b (14 + i * 24 + 8) 16) := by
      refine (BitVec.toNat_ofNat _ _).trans (Nat.mod_eq_of_lt ?_)
      exact (hlt (by omega)).trans_eq (by norm_num)
    rw [← h₁, NodeHash.toBeBytes, h₂]
  rw [encodeEntry, hprefix, hhash, toBytes_ofBytes_slice (by omega), slice_append_slice]

/-- Bytes are the chunks of one length that they are cut into. -/
theorem flatMap_slice {l : Bytes} {c n : ℕ} (h : l.length = n * c) :
    (List.range n).flatMap (fun i => slice l (i * c) c) = l := by
  induction n generalizing l with
  | zero =>
    rw [Nat.zero_mul, List.length_eq_zero_iff] at h
    rw [h]
    rfl
  | succ n ih =>
    have hdrop : (l.drop c).length = n * c := by
      rw [List.length_drop, h, Nat.succ_mul, Nat.add_sub_cancel]
    have hrest : ∀ i, slice l ((i + 1) * c) c = slice (l.drop c) (i * c) c := by
      intro i
      rw [slice, slice, List.drop_drop, Nat.succ_mul, Nat.add_comm]
    rw [List.range_succ_eq_map, List.flatMap_cons, List.flatMap_map]
    simp only [Nat.succ_eq_add_one, hrest]
    rw [ih hdrop, Nat.zero_mul, slice, List.drop_zero, List.take_append_drop]

/-- **An accepted record is the encoding of its entries.** -/
theorem Accepts.sealRecord_eq (h : Accepts L b) :
    sealRecord L (.ofNat 64 (ofBytes (slice b 2 8))) (recordEntries b) = b := by
  have hlong := h.long
  have hlen := h.length
  have hhead : [1, UInt8.ofNat L.bits] = b.take 2 := by
    have hbits : UInt8.ofNat L.bits = b.getD 1 0 := by
      rw [← h.depth, UInt8.ofNat_toNat]
    have hone : (1 : UInt8) = b.getD 0 0 := h.version.symm
    rw [hbits, hone]
    match b, hlong with
    | x :: y :: _, _ => rfl
  have hcount : toBytes 8 (BitVec.ofNat 64 (ofBytes (slice b 2 8))).toNat = slice b 2 8 := by
    have hlt := ofBytes_lt (slice b 2 8)
    rw [length_slice (by omega)] at hlt
    rw [BitVec.toNat_ofNat, Nat.mod_eq_of_lt (hlt.trans_eq (by norm_num)),
      toBytes_ofBytes_slice (by omega)]
  have hnumber : toBytes 4 (recordEntries b).length = slice b 10 4 := by
    rw [recordEntries, List.length_map, List.length_range, recordLength,
      toBytes_ofBytes_slice (by omega)]
  have hentries : (recordEntries b).flatMap encodeEntry = b.drop 14 := by
    have hchunk : (b.drop 14).length = recordLength b * 24 := by
      rw [List.length_drop, hlen, Nat.add_sub_cancel_left]
    rw [← flatMap_slice hchunk, recordEntries, List.flatMap_map]
    refine List.flatMap_congr fun i hi => ?_
    have hi' := List.mem_range.1 hi
    rw [encodeEntry_recordEntry (by omega), slice, slice, List.drop_drop]
  rw [sealRecord, hhead, hcount, hnumber, hentries, slice_append_drop, slice_append_drop]
  exact List.take_append_drop 2 b

/-! ## What loading a canonical record gives -/

theorem recordEntries_eq (b : Bytes) :
    recordEntries b =
      ((List.range (recordLength b)).map (recordEntry b)).map fun t => (t.1.val, t.2) := by
  rw [List.map_map]
  rfl

theorem mem_recordEntries {x : ℕ × NodeHash} :
    x ∈ recordEntries b ↔
      ∃ t ∈ (List.range (recordLength b)).map (recordEntry b), (t.1.val, t.2) = x := by
  rw [recordEntries_eq, List.mem_map]

/-- Aligned entries at distinct prefixes fold to themselves. -/
theorem foldAt_of_distinct {T : List Toggle} {d : ℕ}
    (haligned : ∀ t ∈ T, prefixAt t.1 d = t.1.val) (hnd : (T.map Prod.fst).Nodup) (t : Toggle)
    (ht : t ∈ T) : foldAt T d t.1 = t.2 := by
  induction T with
  | nil => cases ht
  | cons s T ih =>
    have hrest := ih (fun s hs => haligned s (List.mem_cons_of_mem _ hs))
    rw [List.map_cons, List.nodup_cons] at hnd
    rw [foldAt_cons, haligned s (by simp)]
    rcases List.mem_cons.1 ht with rfl | ht'
    · -- no other entry has this prefix
      have hzero : foldAt T d t.1 = 0 := by
        by_contra hne
        obtain ⟨s, hs, heq⟩ := EpochTree.foldAt_ne_zero hne
        rw [haligned s (List.mem_cons_of_mem _ hs)] at heq
        exact hnd.1 (Fin.ext heq ▸ List.mem_map_of_mem hs)
      rw [if_pos rfl, hzero, add_zero]
    · have hne : (s.1 : ℕ) ≠ t.1 := fun h => hnd.1 (Fin.ext h ▸ List.mem_map_of_mem ht')
      rw [if_neg hne, zero_add]
      exact hrest hnd.2 ht'

theorem leaf_recordTree (b : Bytes) {p : ℕ} (hp : IsPrefix L.bits p) :
    (recordTree L b).leaves.getD p 0 =
      foldAt ((List.range (recordLength b)).map (recordEntry b)) L.bits p := by
  rw [← EpochTree.nodeHash_bits, recordTree_eq, EpochTree.nodeHash_setCount,
    EpochTree.nodeHash_toggleAll _ _ L.valid_bits hp, EpochTree.nodeHash_new, zero_add]

/-- **The leaves of a canonical record are its entries.** -/
theorem Canonical.leafEntries_recordTree (h : Canonical L b) :
    (recordTree L b).leafEntries = recordEntries b := by
  set T := (List.range (recordLength b)).map (recordEntry b) with hT
  have hmemT : ∀ t ∈ T, (t.1.val, t.2) ∈ recordEntries b := fun t ht =>
    mem_recordEntries.2 ⟨t, ht, rfl⟩
  have haligned : ∀ t ∈ T, prefixAt t.1 L.bits = t.1.val := fun t ht =>
    (h.aligned _ (hmemT t ht)).fixed
  have hnd : (T.map Prod.fst).Nodup := by
    have hasc := h.ascending
    rw [recordEntries_eq, List.pairwise_map] at hasc
    unfold List.Nodup
    rw [List.pairwise_map]
    refine hasc.imp fun {s t} hst heq => ?_
    rw [heq] at hst
    exact lt_irrefl _ hst
  have hasc : MapList.Ascending compare (recordEntries b) :=
    h.ascending.imp fun {x y} hxy => Nat.compare_eq_lt.2 hxy
  refine MapList.eq_of_ascending (recordTree L b).ascending_leafEntries hasc fun x => ?_
  rw [EpochTree.mem_leafEntries]
  constructor
  · rintro ⟨hne, hx⟩
    have hp : IsPrefix L.bits x.1 := EpochTree.isPrefix_of_leaf_ne_zero (by rwa [hx])
    rw [leaf_recordTree b hp] at hx
    obtain ⟨t, ht, hpt⟩ := EpochTree.foldAt_ne_zero (by rwa [hx] : foldAt T L.bits x.1 ≠ 0)
    rw [haligned t ht] at hpt
    have ht₂ := foldAt_of_distinct haligned hnd t ht
    rw [hpt, hx] at ht₂
    have hxt : x = (t.1.val, t.2) := Prod.ext hpt.symm ht₂
    exact hxt ▸ hmemT t ht
  · intro hx
    obtain ⟨t, ht, rfl⟩ := mem_recordEntries.1 hx
    refine ⟨h.nonzero _ hx, ?_⟩
    rw [leaf_recordTree b (h.aligned _ hx)]
    exact foldAt_of_distinct haligned hnd t ht

/-- A canonical record serializes again to what was loaded. -/
theorem Canonical.serializeTree_recordTree (h : Canonical L b) :
    serializeTree (recordTree L b) = some b := by
  have hcount : (recordTree L b).count = .ofNat 64 (ofBytes (slice b 2 8)) := by
    rw [recordTree_eq, EpochTree.count_setCount]
  rw [serializeTree_eq_some, h.leafEntries_recordTree, hcount]
  exact ⟨h.nonempty, h.accepts.sealRecord_eq⟩

theorem recordEntries_sealRecord {t : EpochTree L} (hlen : t.leafEntries.length < 2 ^ 32) :
    recordEntries (sealRecord L t.count t.leafEntries) = t.leafEntries := by
  rw [recordEntries_eq]
  exact map_recordEntry hlen fun x hx => (EpochTree.isPrefix_of_mem_leafEntries hx).lt

/-- A record of a tree is canonical when it is accepted. -/
theorem canonical_of_serializeTree {t : EpochTree L} (hb : serializeTree t = some b)
    (ha : Accepts L b) : Canonical L b := by
  obtain ⟨hne, hrecord⟩ := serializeTree_eq_some.1 hb
  have hentries : recordEntries b = t.leafEntries := by
    rw [← hrecord] at ha ⊢
    exact recordEntries_sealRecord (accepts_sealRecord.1 ha)
  constructor
  · exact ha
  · rw [hentries]
    exact hne
  · rw [hentries]
    exact t.ascending_leafEntries.imp fun {x y} hxy => Nat.compare_eq_lt.1 hxy
  · rw [hentries]
    exact fun x hx => EpochTree.isPrefix_of_mem_leafEntries hx
  · rw [hentries]
    exact fun x hx => (EpochTree.mem_leafEntries.1 hx).1

/-- **The canonical records are the records of trees**, among those that are accepted. -/
theorem canonical_iff_produced :
    Canonical L b ↔ Accepts L b ∧ ∃ (f : MerkleForest L) (e : Epoch),
      f.serializeEpoch e = some b := by
  constructor
  · intro h
    refine ⟨h.accepts, ⟨(MerkleForest.new L).trees.insert 0 (recordTree L b)⟩, 0, ?_⟩
    rw [MerkleForest.serializeEpoch_eq, MerkleForest.tree_insert_trees (.new L), if_pos rfl]
    exact h.serializeTree_recordTree
  · rintro ⟨ha, f, e, hb⟩
    rw [MerkleForest.serializeEpoch_eq] at hb
    exact canonical_of_serializeTree hb ha

/-- **The canonical records are those that serialize again to what was loaded.** -/
theorem serializeTree_recordTree_iff (ha : Accepts L b) :
    serializeTree (recordTree L b) = some b ↔ Canonical L b :=
  ⟨fun h => canonical_of_serializeTree h ha, fun h => h.serializeTree_recordTree⟩

end InterstellarDb
