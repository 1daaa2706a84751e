import InterstellarDb.Merkle.Forest

/-!
# Seal records

A seal record is the leaf level of one tree, with its item count:
`[version = 1][leaf depth][count, 8 bytes][n, 4 bytes][(prefix, 8 bytes; hash, 16 bytes) × n]`.
The upper levels are folded from the leaves when the record is loaded.

* What a tree serializes to depends on its leaf hashes and its count only
  (`serializeTree_congr`).
* Whether a record is accepted depends on its bytes and the leaf depth of the forest, as long as
  the epoch has no tree yet (`loadSealedEpoch_eq_ok`).
* Loading what was serialized gives back all node hashes and the count
  (`nodeHash_recordTree`, `count_recordTree`).
-/

namespace InterstellarDb

open Std BigEndian

variable {L : LeafDepth}

/-! ## Slices -/

/-- `b[i .. i + w]`. -/
def slice (b : Bytes) (i w : ℕ) : Bytes := (b.drop i).take w

theorem slice_append {a b : Bytes} {i : ℕ} (h : a.length = i) (w : ℕ) :
    slice (a ++ b) i w = b.take w := by
  rw [slice, List.drop_left' h]

theorem slice_append_append {a b c : Bytes} {i w : ℕ} (h : a.length = i) (h' : b.length = w) :
    slice (a ++ (b ++ c)) i w = b := by
  rw [slice_append h, List.take_left' h']

theorem slice_append_drop (b : Bytes) (i w : ℕ) : slice b i w ++ b.drop (i + w) = b.drop i := by
  rw [slice, ← List.drop_drop]
  exact List.take_append_drop w (b.drop i)

theorem slice_append_slice (b : Bytes) (i w w' : ℕ) :
    slice b i w ++ slice b (i + w) w' = slice b i (w + w') := by
  rw [slice, slice, slice, ← List.drop_drop]
  exact List.take_add.symm

theorem length_slice {b : Bytes} {i w : ℕ} (h : i + w ≤ b.length) : (slice b i w).length = w := by
  rw [slice, List.length_take, List.length_drop]
  omega

theorem toBytes_ofBytes_slice {b : Bytes} {i w : ℕ} (h : i + w ≤ b.length) :
    toBytes w (ofBytes (slice b i w)) = slice b i w := by
  have := toBytes_ofBytes (slice b i w)
  rwa [length_slice h] at this

/-- Chunks of one length are found by their position. -/
theorem drop_flatMap {α : Type} {g : α → Bytes} {c : ℕ} (hg : ∀ a, (g a).length = c) (l : List α)
    (i : ℕ) : (l.flatMap g).drop (i * c) = (l.drop i).flatMap g := by
  induction i generalizing l with
  | zero => simp
  | succ i ih =>
    cases l with
    | nil => simp
    | cons a l =>
      rw [List.flatMap_cons, Nat.succ_mul, Nat.add_comm, ← List.drop_drop, List.drop_left' (hg a),
        ih, List.drop_succ_cons]

/-- `u64::from_be_bytes`, as a word. -/
def readU64 (b : Bytes) : Fin (2 ^ 64) := Fin.ofNat (2 ^ 64) (ofBytes b)

theorem readU64_toBytes {n : ℕ} (h : n < 2 ^ 64) : readU64 (toBytes 8 n) = ⟨n, h⟩ := by
  have : ofBytes (toBytes 8 n) = n := ofBytes_toBytes_of_lt (h.trans_eq (by norm_num))
  ext
  rw [readU64, this]
  exact Nat.mod_eq_of_lt h

/-! ## Leaves -/

namespace EpochTree

theorem pred_levels_lt (L : LeafDepth) : L.levels - 1 < L.levels := by
  have := L.three_mul_levels
  have := L.three_le
  omega

/-- The leaf level of a tree. -/
def leaves (t : EpochTree L) : Level := t.levels.get ⟨L.levels - 1, pred_levels_lt L⟩

theorem nodeHash_bits (t : EpochTree L) (p : ℕ) : t.nodeHash L.bits p = t.leaves.getD p 0 := by
  have h : L.bits = (L.levels - 1 + 1) * 3 := by
    have := L.three_mul_levels
    have := L.three_le
    omega
  have := t.nodeHash_succ (pred_levels_lt L) p
  rwa [← h] at this

theorem foldAt_ne_zero {T : List Toggle} {d p : ℕ} (h : foldAt T d p ≠ 0) :
    ∃ t ∈ T, prefixAt t.1 d = p := by
  by_contra hT
  push Not at hT
  apply h
  induction T with
  | nil => rfl
  | cons t T ih =>
    rw [foldAt_cons, if_neg (hT t (by simp)), zero_add]
    rw [foldAt_cons, if_neg (hT t (by simp)), zero_add] at h
    exact ih h fun s hs => hT s (List.mem_cons_of_mem _ hs)

/-- The leaf level folds the toggles that the tree folds. -/
theorem exists_fold_leaves (t : EpochTree L) : ∃ T : List Toggle,
    (∀ d p, L.Valid d → IsPrefix d p → t.nodeHash d p = foldAt T d p) ∧
      ∀ p, t.leaves.getD p 0 = foldAt T L.bits p := by
  obtain ⟨T, hr, hl⟩ := t.exists_fold
  have hL := L.three_le
  refine ⟨T, fun d p hd hp => ?_, fun p => ?_⟩
  · by_cases h₀ : d = 0
    · subst h₀
      rw [nodeHash_zero, hp.eq_zero, hr]
    · exact hl d p hd h₀
  · rw [← nodeHash_bits]
    exact hl _ p L.valid_bits (by omega)

/-- Only prefixes have a leaf hash. -/
theorem isPrefix_of_leaf_ne_zero {t : EpochTree L} {p : ℕ} (h : t.leaves.getD p 0 ≠ 0) :
    IsPrefix L.bits p := by
  obtain ⟨T, -, hT⟩ := t.exists_fold_leaves
  rw [hT] at h
  obtain ⟨s, -, rfl⟩ := foldAt_ne_zero h
  exact isPrefix_prefixAt s.1.isLt _

/-- The non-zero leaf hashes of a tree, by ascending prefix. -/
def leafEntries (t : EpochTree L) : List (ℕ × NodeHash) := t.leaves.toList.filter fun x => x.2 ≠ 0

theorem mem_leafEntries {t : EpochTree L} {x : ℕ × NodeHash} :
    x ∈ t.leafEntries ↔ x.2 ≠ 0 ∧ t.leaves.getD x.1 0 = x.2 := by
  rw [leafEntries, List.mem_filter, decide_eq_true_eq,
    ExtTreeMap.mem_toList_iff_getElem?_eq_some, ExtTreeMap.getD_eq_getD_getElem?]
  constructor
  · rintro ⟨h, h₀⟩
    exact ⟨h₀, by rw [h, Option.getD_some]⟩
  · rintro ⟨h₀, h⟩
    cases hx : t.leaves[x.1]? with
    | none => exact absurd (by simpa [hx] using h.symm) h₀
    | some v => exact ⟨by simpa [hx] using h, h₀⟩

theorem isPrefix_of_mem_leafEntries {t : EpochTree L} {x : ℕ × NodeHash}
    (h : x ∈ t.leafEntries) : IsPrefix L.bits x.1 := by
  obtain ⟨h₀, hx⟩ := mem_leafEntries.1 h
  exact isPrefix_of_leaf_ne_zero (by rwa [hx])

theorem ascending_leafEntries (t : EpochTree L) : MapList.Ascending compare t.leafEntries :=
  (MapList.ascending_toList t.leaves).filter _

theorem leafEntries_congr {t t' : EpochTree L}
    (h : ∀ p, IsPrefix L.bits p → t.nodeHash L.bits p = t'.nodeHash L.bits p) :
    t.leafEntries = t'.leafEntries := by
  refine MapList.eq_of_ascending t.ascending_leafEntries t'.ascending_leafEntries fun x => ?_
  rw [mem_leafEntries, mem_leafEntries, ← nodeHash_bits, ← nodeHash_bits]
  by_cases hx : IsPrefix L.bits x.1
  · rw [h _ hx]
  · have h₁ : t.nodeHash L.bits x.1 = 0 := by
      rw [nodeHash_bits]
      exact not_not.1 fun h => hx (isPrefix_of_leaf_ne_zero h)
    have h₂ : t'.nodeHash L.bits x.1 = 0 := by
      rw [nodeHash_bits]
      exact not_not.1 fun h => hx (isPrefix_of_leaf_ne_zero h)
    rw [h₁, h₂]

/-- There are at most `2 ^ bits` leaves. -/
theorem length_leafEntries_le (t : EpochTree L) : t.leafEntries.length ≤ 2 ^ L.bits := by
  have hnd : (t.leafEntries.map fun x => x.1 / 2 ^ (64 - L.bits)).Nodup := by
    rw [List.nodup_map_iff_inj_on t.ascending_leafEntries.nodup]
    intro x hx y hy hxy
    have hx' := isPrefix_of_mem_leafEntries hx
    have hy' := isPrefix_of_mem_leafEntries hy
    have h₁ : x.1 = y.1 := by
      rw [← hx'.fixed, ← hy'.fixed, prefixAt_eq, prefixAt_eq, hxy]
    refine Prod.ext h₁ ?_
    rw [← (mem_leafEntries.1 hx).2, ← (mem_leafEntries.1 hy).2, h₁]
  have hlt : ∀ n ∈ t.leafEntries.map fun x => x.1 / 2 ^ (64 - L.bits), n < 2 ^ L.bits := by
    intro n hn
    obtain ⟨x, hx, rfl⟩ := List.mem_map.1 hn
    rw [Nat.div_lt_iff_lt_mul (Nat.two_pow_pos _), ← pow_add]
    have := (isPrefix_of_mem_leafEntries hx).lt
    rwa [show L.bits + (64 - L.bits) = 64 by have := L.le_63; omega]
  have hsub : (t.leafEntries.map fun x => x.1 / 2 ^ (64 - L.bits)) ⊆ List.range (2 ^ L.bits) :=
    fun n hn => List.mem_range.2 (hlt n hn)
  simpa using (hnd.subperm hsub).length_le

/-! ## Toggling by a list -/

/-- Toggle a list of digests, each at its code. -/
def toggleAll (t : EpochTree L) (T : List Toggle) : EpochTree L :=
  T.foldl (fun t x => t.toggle x.1 x.2) t

theorem nodeHash_toggleAll (t : EpochTree L) (T : List Toggle) {d p : ℕ} (hd : L.Valid d)
    (hp : IsPrefix d p) : (t.toggleAll T).nodeHash d p = t.nodeHash d p + foldAt T d p := by
  induction T generalizing t with
  | nil => rw [foldAt_nil, add_zero]; rfl
  | cons x T ih =>
    rw [foldAt_cons, ← add_assoc, ← nodeHash_toggle t x.1 x.2 hd hp]
    exact ih _

/-- **The leaves of a tree fold to all its node hashes.** -/
theorem foldAt_leafEntries (t : EpochTree L) {d p : ℕ} (hd : L.Valid d) (hp : IsPrefix d p)
    (T' : List Toggle) (hT' : T'.map (fun x => ((x.1 : ℕ), x.2)) = t.leafEntries) :
    foldAt T' d p = t.nodeHash d p := by
  obtain ⟨T, hT, hl⟩ := t.exists_fold_leaves
  set g : ℕ → NodeHash → NodeHash := fun q h => if prefixAt q d = p then h else 0 with hg
  set K : Finset ℕ := (T.map fun s => prefixAt s.1 L.bits).toFinset with hK
  have hsum : foldAt T' d p = (t.leaves.toList.map fun x => g x.1 x.2).sum := by
    have h₁ : foldAt T' d p = (t.leafEntries.map fun x => g x.1 x.2).sum := by
      rw [← hT', List.map_map]
      rfl
    rw [h₁, leafEntries]
    refine MapList.sum_map_filter fun x _ hx => ?_
    rw [not_not.1 hx]
    exact ite_self _
  have hKmem : ∀ k v, t.leaves[k]? = some v → g k v ≠ 0 → k ∈ K := by
    intro k v hkv hne
    have hv : v ≠ 0 := by
      rintro rfl
      simp [hg] at hne
    have : t.leaves.getD k 0 = v := by rw [ExtTreeMap.getD_eq_getD_getElem?, hkv, Option.getD_some]
    rw [← this, hl] at hv
    obtain ⟨s, hs, rfl⟩ := foldAt_ne_zero hv
    exact List.mem_toFinset.2 (List.mem_map.2 ⟨s, hs, rfl⟩)
  have hT'' : ∀ s ∈ T, prefixAt s.1 L.bits ∈ K := fun s hs =>
    List.mem_toFinset.2 (List.mem_map.2 ⟨s, hs, rfl⟩)
  rw [hsum, MapList.sum_toList t.leaves g hKmem, hT d p hd hp, ← sum_foldAt T hd.2 p hT'',
    Finset.sum_filter]
  refine Finset.sum_congr rfl fun q _ => ?_
  rw [← hl, ExtTreeMap.getD_eq_getD_getElem?]
  cases t.leaves[q]? with
  | none => simp
  | some v => rfl

end EpochTree

/-! ## Serializing -/

/-- One entry of a record: a leaf prefix and its hash. -/
def encodeEntry (x : ℕ × NodeHash) : Bytes := toBytes 8 x.1 ++ x.2.toBeBytes

theorem length_encodeEntry (x : ℕ × NodeHash) : (encodeEntry x).length = 24 := by
  simp [encodeEntry]

/-- The bytes of a record. -/
def sealRecord (L : LeafDepth) (count : BitVec 64) (entries : List (ℕ × NodeHash)) : Bytes :=
  [1, UInt8.ofNat L.bits] ++ (toBytes 8 count.toNat ++ (toBytes 4 entries.length ++
    entries.flatMap encodeEntry))

/-- The record of a tree; `none` when all its leaf hashes are zero. -/
def serializeTree (tree : EpochTree L) : Option Bytes :=
  let entries := tree.leafEntries
  if entries = [] then none else some (sealRecord L tree.count entries)

/-- `MerkleForest::serialize_epoch`. -/
def MerkleForest.serializeEpoch (f : MerkleForest L) (epoch : Epoch) : Option Bytes :=
  match f.trees[epoch]? with
  | none => none
  | some tree => serializeTree tree

theorem MerkleForest.serializeEpoch_eq (f : MerkleForest L) (e : Epoch) :
    f.serializeEpoch e = serializeTree (f.tree e) := by
  unfold serializeEpoch
  cases ht : f.trees[e]? with
  | some t => rw [tree_of_getElem? ht]
  | none =>
    have h : f.tree e = .new L := by simp [tree, ExtTreeMap.getD_eq_getD_getElem?, ht]
    have hnil : (EpochTree.new L).leafEntries = [] := by
      refine List.eq_nil_iff_forall_not_mem.2 fun x hx => ?_
      obtain ⟨h₀, hx⟩ := EpochTree.mem_leafEntries.1 hx
      rw [← EpochTree.nodeHash_bits, EpochTree.nodeHash_new] at hx
      exact h₀ hx.symm
    simp [h, serializeTree, hnil]

/-- A record depends on the leaf hashes and the count only. -/
theorem serializeTree_congr {t t' : EpochTree L}
    (h : ∀ p, IsPrefix L.bits p → t.nodeHash L.bits p = t'.nodeHash L.bits p)
    (hc : t.count = t'.count) : serializeTree t = serializeTree t' := by
  unfold serializeTree
  rw [EpochTree.leafEntries_congr h, hc]

theorem serializeTree_eq_some {t : EpochTree L} {b : Bytes} :
    serializeTree t = some b ↔ t.leafEntries ≠ [] ∧ sealRecord L t.count t.leafEntries = b := by
  unfold serializeTree
  by_cases h : t.leafEntries = []
  · simp [h]
  · simp [h]

/-! ## Loading -/

/-- The number of entries that a record announces. -/
def recordLength (bytes : Bytes) : ℕ := ofBytes (slice bytes 10 4)

/-- The entry `i` of a record. -/
def recordEntry (bytes : Bytes) (i : ℕ) : Toggle :=
  let off := 14 + i * 24
  (readU64 (slice bytes off 8), .fromBeBytes (slice bytes (off + 8) 16))

/-- The tree that a record describes: every leaf hash folded up through every level. -/
def recordTree (L : LeafDepth) (bytes : Bytes) : EpochTree L :=
  let count := ofBytes (slice bytes 2 8)
  let n := recordLength bytes
  let tree := (List.range n).foldl (fun (tree : EpochTree L) i =>
    let (p, hash) := recordEntry bytes i
    tree.toggle p hash) (.new L)
  tree.setCount (.ofNat 64 count)

/-- `MerkleForest::load_sealed_epoch`; a failure leaves the forest untouched. -/
def MerkleForest.loadSealedEpoch (f : MerkleForest L) (epoch : Epoch) (bytes : Bytes) :
    Except String (MerkleForest L) :=
  let version := bytes.getD 0 0
  let depth := bytes.getD 1 0
  let n := recordLength bytes
  let leafDepth := f.leafDepthBits
  let length := bytes.length
  if (f.trees[epoch]?).isSome then
    .error s!"epoch {epoch} already populated"
  else if length < 14 then
    .error "seal record too short"
  else if version ≠ 1 then
    .error s!"unsupported seal record version {version}"
  else if depth.toNat ≠ leafDepth then
    .error s!"seal record leaf depth {depth} does not match forest leaf depth {leafDepth}"
  else if length ≠ 14 + n * 24 then
    .error s!"seal record length {length} does not match {n} entries"
  else
    .ok ⟨f.trees.insert epoch (recordTree L bytes)⟩

/-- A forest of leaf depth `L` accepts the record for an epoch without a tree. -/
structure Accepts (L : LeafDepth) (bytes : Bytes) : Prop where
  long : 14 ≤ bytes.length
  version : bytes.getD 0 0 = 1
  depth : (bytes.getD 1 0).toNat = L.bits
  length : bytes.length = 14 + recordLength bytes * 24

theorem loadSealedEpoch_eq_ok {f g : MerkleForest L} {e : Epoch} {b : Bytes} :
    f.loadSealedEpoch e b = .ok g ↔
      f.trees[e]? = none ∧ Accepts L b ∧ g = ⟨f.trees.insert e (recordTree L b)⟩ := by
  constructor
  · intro h
    unfold MerkleForest.loadSealedEpoch at h
    dsimp only [MerkleForest.leafDepthBits] at h
    by_cases h₁ : (f.trees[e]?).isSome = true
    · rw [if_pos h₁] at h
      cases h
    by_cases h₂ : b.length < 14
    · rw [if_neg h₁, if_pos h₂] at h
      cases h
    by_cases h₃ : b.getD 0 0 ≠ 1
    · rw [if_neg h₁, if_neg h₂, if_pos h₃] at h
      cases h
    by_cases h₄ : (b.getD 1 0).toNat ≠ L.bits
    · rw [if_neg h₁, if_neg h₂, if_neg h₃, if_pos h₄] at h
      cases h
    by_cases h₅ : b.length ≠ 14 + recordLength b * 24
    · rw [if_neg h₁, if_neg h₂, if_neg h₃, if_neg h₄, if_pos h₅] at h
      cases h
    rw [if_neg h₁, if_neg h₂, if_neg h₃, if_neg h₄, if_neg h₅] at h
    exact ⟨by simpa using h₁, ⟨by omega, not_not.1 h₃, not_not.1 h₄, not_not.1 h₅⟩,
      (Except.ok.inj h).symm⟩
  · rintro ⟨h, ha, rfl⟩
    unfold MerkleForest.loadSealedEpoch
    dsimp only [MerkleForest.leafDepthBits]
    rw [if_neg (by simp [h]), if_neg (Nat.not_lt.2 ha.long), if_neg (not_not.2 ha.version),
      if_neg (not_not.2 ha.depth), if_neg (not_not.2 ha.length)]

/-! ## The round trip -/

section RoundTrip

variable {count : BitVec 64} {entries : List (ℕ × NodeHash)}

theorem length_sealRecord : (sealRecord L count entries).length = 14 + entries.length * 24 := by
  have : (entries.flatMap encodeEntry).length = entries.length * 24 := by
    rw [List.length_flatMap, List.map_congr_left fun x _ => length_encodeEntry x]
    simp
  simp only [sealRecord, List.length_append, length_toBytes, this, List.length_cons,
    List.length_nil]
  omega

theorem recordLength_sealRecord :
    recordLength (sealRecord L count entries) = entries.length % 2 ^ 32 := by
  rw [recordLength, sealRecord, ← List.append_assoc,
    slice_append_append (by simp) (length_toBytes _ _), ofBytes_toBytes]
  norm_num

/-- A record is accepted at its own leaf depth, unless the number of entries overflows. -/
theorem accepts_sealRecord : Accepts L (sealRecord L count entries) ↔ entries.length < 2 ^ 32 := by
  have hbits : (UInt8.ofNat L.bits).toNat = L.bits := by
    rw [UInt8.toNat_ofNat']
    have := L.le_63
    omega
  constructor
  · intro h
    have := h.length
    rw [length_sealRecord, recordLength_sealRecord] at this
    omega
  · intro h
    refine ⟨by rw [length_sealRecord]; omega, rfl, hbits, ?_⟩
    rw [length_sealRecord, recordLength_sealRecord, Nat.mod_eq_of_lt h]

theorem recordEntry_sealRecord {i : ℕ} {x : ℕ × NodeHash} (hx : entries[i]? = some x)
    (hlt : x.1 < 2 ^ 64) : recordEntry (sealRecord L count entries) i = (⟨x.1, hlt⟩, x.2) := by
  have hdrop : (sealRecord L count entries).drop (14 + i * 24) =
      encodeEntry x ++ (entries.drop (i + 1)).flatMap encodeEntry := by
    have hsplit : sealRecord L count entries =
        ([1, UInt8.ofNat L.bits] ++ (toBytes 8 count.toNat ++ toBytes 4 entries.length)) ++
          entries.flatMap encodeEntry := by simp [sealRecord]
    rw [hsplit, ← List.drop_drop, List.drop_left' (by simp), drop_flatMap length_encodeEntry]
    obtain ⟨hi, hx⟩ := List.getElem?_eq_some_iff.1 hx
    rw [List.drop_eq_getElem_cons hi, hx, List.flatMap_cons]
  have h₁ : slice (sealRecord L count entries) (14 + i * 24) 8 = toBytes 8 x.1 := by
    rw [slice, hdrop, encodeEntry, List.append_assoc, List.take_left' (length_toBytes _ _)]
  have h₂ : slice (sealRecord L count entries) (14 + i * 24 + 8) 16 = x.2.toBeBytes := by
    rw [slice, ← List.drop_drop, hdrop, encodeEntry, List.append_assoc,
      List.drop_left' (length_toBytes _ _), List.take_left' (NodeHash.length_toBeBytes _)]
  simp only [recordEntry, h₁, h₂, readU64_toBytes hlt, NodeHash.fromBeBytes_toBeBytes]

theorem recordTree_eq (b : Bytes) :
    recordTree L b =
      ((EpochTree.new L).toggleAll ((List.range (recordLength b)).map (recordEntry b))).setCount
        (.ofNat 64 (ofBytes (slice b 2 8))) := by
  rw [EpochTree.toggleAll, List.foldl_map]
  rfl

/-- The entries that loading reads are those that were written. -/
theorem map_recordEntry (hlen : entries.length < 2 ^ 32) (hlt : ∀ x ∈ entries, x.1 < 2 ^ 64) :
    ((List.range (recordLength (sealRecord L count entries))).map
      (recordEntry (sealRecord L count entries))).map (fun x => ((x.1 : ℕ), x.2)) = entries := by
  rw [recordLength_sealRecord, Nat.mod_eq_of_lt hlen, List.map_map]
  refine List.ext_getElem? fun i => ?_
  rw [List.getElem?_map]
  by_cases hi : i < entries.length
  · have hx : entries[i]? = some entries[i] := List.getElem?_eq_getElem hi
    rw [List.getElem?_range hi, hx, Option.map_some, Function.comp_apply,
      recordEntry_sealRecord hx (hlt _ (List.getElem_mem hi))]
  · rw [List.getElem?_eq_none (by simpa using hi), List.getElem?_eq_none (by simpa using hi),
      Option.map_none]

end RoundTrip

/-- **Loading a record of a tree gives back its node hashes.** -/
theorem nodeHash_recordTree {t : EpochTree L} {b : Bytes} (hb : serializeTree t = some b)
    (ha : Accepts L b) {d p : ℕ} (hd : L.Valid d) (hp : IsPrefix d p) :
    (recordTree L b).nodeHash d p = t.nodeHash d p := by
  obtain ⟨-, rfl⟩ := serializeTree_eq_some.1 hb
  have hlen := accepts_sealRecord.1 ha
  rw [recordTree_eq, EpochTree.nodeHash_setCount, EpochTree.nodeHash_toggleAll _ _ hd hp,
    EpochTree.nodeHash_new, zero_add]
  refine t.foldAt_leafEntries hd hp _ (map_recordEntry hlen fun x hx => ?_)
  exact (EpochTree.isPrefix_of_mem_leafEntries hx).lt

theorem count_recordTree {t : EpochTree L} {b : Bytes} (hb : serializeTree t = some b) :
    (recordTree L b).count = t.count := by
  obtain ⟨-, rfl⟩ := serializeTree_eq_some.1 hb
  have hslice : slice (sealRecord L t.count t.leafEntries) 2 8 = toBytes 8 t.count.toNat :=
    slice_append_append rfl (length_toBytes _ _)
  rw [recordTree_eq, EpochTree.count_setCount, hslice,
    ofBytes_toBytes_of_lt (t.count.isLt.trans_eq (by norm_num)), BitVec.ofNat_toNat,
    BitVec.setWidth_eq]

/-- The bytes are what `serialize_epoch` gives for the epoch in a fold of the rows. -/
def IsRecordOf [Sha256] (L : LeafDepth) (b : Bytes) (e : Epoch) (rows : Finset Row) : Prop :=
  ∃ f : MerkleForest L, FoldOf f rows ∧ f.serializeEpoch e = some b

theorem IsRecordOf.nodeHash [Sha256] {b : Bytes} {e : Epoch} {rows : Finset Row}
    (h : IsRecordOf L b e rows) (ha : Accepts L b) {d p : ℕ} (hd : L.Valid d)
    (hp : IsPrefix d p) : (recordTree L b).nodeHash d p = cellHash rows e d p := by
  obtain ⟨f, hf, hb⟩ := h
  rw [MerkleForest.serializeEpoch_eq] at hb
  rw [nodeHash_recordTree hb ha hd hp, ← MerkleForest.nodeHash_eq, hf.hashes e d p hd hp]

theorem IsRecordOf.count [Sha256] {b : Bytes} {e : Epoch} {rows : Finset Row}
    (h : IsRecordOf L b e rows) : (recordTree L b).count = (epochCount rows e : BitVec 64) := by
  obtain ⟨f, hf, hb⟩ := h
  rw [MerkleForest.serializeEpoch_eq] at hb
  rw [count_recordTree hb]
  exact hf.counts e

/-- The record of a tree is accepted again, when its leaf depth bounds the number of entries. -/
theorem accepts_of_serializeTree (hL : L.bits < 32) {t : EpochTree L} {b : Bytes}
    (hb : serializeTree t = some b) : Accepts L b := by
  obtain ⟨-, rfl⟩ := serializeTree_eq_some.1 hb
  apply accepts_sealRecord.2
  exact t.length_leafEntries_le.trans_lt (Nat.pow_lt_pow_right (by norm_num) hL)

/-! ## The round trip of an epoch -/

/-- Only prefixes have a node hash, but for the root. -/
theorem EpochTree.isPrefix_of_nodeHash_ne_zero {t : EpochTree L} {d p : ℕ} (hd : L.Valid d)
    (h₀ : d ≠ 0) (h : t.nodeHash d p ≠ 0) : IsPrefix d p := by
  obtain ⟨T, -, hT⟩ := t.exists_fold
  rw [hT d p hd h₀] at h
  obtain ⟨s, -, rfl⟩ := EpochTree.foldAt_ne_zero h
  exact isPrefix_prefixAt s.1.isLt d

/-- Trees that agree at the cells agree at all codes. -/
theorem EpochTree.nodeHash_congr {t t' : EpochTree L}
    (h : ∀ d p, L.Valid d → IsPrefix d p → t.nodeHash d p = t'.nodeHash d p) {d : ℕ}
    (hd : L.Valid d) (p : ℕ) : t.nodeHash d p = t'.nodeHash d p := by
  by_cases h₀ : d = 0
  · subst h₀
    have := h 0 0 hd isPrefix_zero
    simpa using this
  by_cases hp : IsPrefix d p
  · exact h d p hd hp
  · have hz : ∀ t : EpochTree L, t.nodeHash d p = 0 := by
      intro t
      by_contra hne
      exact hp (isPrefix_of_nodeHash_ne_zero hd h₀ hne)
    rw [hz t, hz t']

theorem serializeTree_eq_none {t : EpochTree L} : serializeTree t = none ↔ t.leafEntries = [] := by
  unfold serializeTree
  by_cases h : t.leafEntries = []
  · simp [h]
  · simp [h]

/-- The epochs with a record are those with a leaf hash other than `0`. -/
theorem MerkleForest.isSome_serializeEpoch {f : MerkleForest L} {e : Epoch} :
    (f.serializeEpoch e).isSome ↔ ∃ p, f.nodeHash e L.bits p ≠ 0 := by
  rw [serializeEpoch_eq, ← Option.ne_none_iff_isSome, Ne, serializeTree_eq_none,
    List.eq_nil_iff_forall_not_mem]
  simp only [not_forall, not_not]
  constructor
  · rintro ⟨x, hx⟩
    obtain ⟨h₀, hleaf⟩ := EpochTree.mem_leafEntries.1 hx
    refine ⟨x.1, ?_⟩
    rw [nodeHash_eq, EpochTree.nodeHash_bits, hleaf]
    exact h₀
  · rintro ⟨p, hp⟩
    rw [nodeHash_eq, EpochTree.nodeHash_bits] at hp
    exact ⟨(p, _), EpochTree.mem_leafEntries.2 ⟨hp, rfl⟩⟩

/-- A tree without leaf hashes has no node hashes. -/
theorem nodeHash_of_leafEntries_eq_nil {t : EpochTree L} (h : t.leafEntries = []) {d : ℕ}
    (hd : L.Valid d) (p : ℕ) : t.nodeHash d p = 0 := by
  have hnew : t.nodeHash d p = (EpochTree.new L).nodeHash d p := by
    refine EpochTree.nodeHash_congr (fun d p hd hp => ?_) hd p
    rw [EpochTree.nodeHash_new]
    exact (t.foldAt_leafEntries hd hp [] h.symm).symm
  rw [hnew, EpochTree.nodeHash_new]

/-- **The round trip of seal records.** The record of an epoch with fewer than `2 ^ 32` leaves
loads into any forest without a tree for the epoch, as a tree with the same count, the same node
hashes and the same record; an epoch without a record has no node hash but `0`. -/
theorem loadSealedEpoch_serializeEpoch (f : MerkleForest L) (e : Epoch)
    (hleaves : (f.tree e).leafEntries.length < 2 ^ 32) :
    (∀ b, f.serializeEpoch e = some b → ∀ g : MerkleForest L, g.trees[e]? = none →
      ∃ g', g.loadSealedEpoch e b = .ok g' ∧ g'.count e = f.count e ∧
        (∀ d p, L.Valid d → g'.nodeHash e d p = f.nodeHash e d p) ∧
        g'.serializeEpoch e = some b ∧ ∀ e', e' ≠ e → g'.trees[e']? = g.trees[e']?) ∧
    (f.serializeEpoch e = none → ∀ d p, L.Valid d → f.nodeHash e d p = 0) := by
  constructor
  · intro b hb g hg
    rw [MerkleForest.serializeEpoch_eq] at hb
    have haccepts : Accepts L b := by
      rw [← (serializeTree_eq_some.1 hb).2]
      exact accepts_sealRecord.2 hleaves
    have htree : (MerkleForest.mk (g.trees.insert e (recordTree L b))).tree e = recordTree L b := by
      rw [MerkleForest.tree_insert_trees, if_pos rfl]
    have hhash : ∀ d p, L.Valid d → (recordTree L b).nodeHash d p = (f.tree e).nodeHash d p :=
      fun d p hd => EpochTree.nodeHash_congr
        (fun d p hd hp => nodeHash_recordTree hb haccepts hd hp) hd p
    refine ⟨_, loadSealedEpoch_eq_ok.2 ⟨hg, haccepts, rfl⟩, ?_, fun d p hd => ?_, ?_, ?_⟩
    · rw [MerkleForest.count, htree, count_recordTree hb]
      rfl
    · rw [MerkleForest.nodeHash_eq, MerkleForest.nodeHash_eq, htree, hhash d p hd]
    · rw [MerkleForest.serializeEpoch_eq, htree, ← hb]
      exact serializeTree_congr (fun p _ => hhash _ p L.valid_bits) (count_recordTree hb)
    · intro e' he'
      simp only [ExtTreeMap.getElem?_insert, LawfulEqCmp.compare_eq_iff_eq]
      exact if_neg he'.symm
  · intro hnone d p hd
    rw [MerkleForest.serializeEpoch_eq, serializeTree_eq_none] at hnone
    rw [MerkleForest.nodeHash_eq, nodeHash_of_leafEntries_eq_nil hnone hd]

section Sample

local instance recordSha : Sha256 := sampleDigests

/-- A forest with two rows in one leaf cell. -/
def sealedForest : MerkleForest twoLevels :=
  ((MerkleForest.new twoLevels).insert (.ofFields 0 0 0) [0x61]).insert (.ofFields 0 0 1) [0x62]

theorem loadSealedEpoch_sealedForest : ∃ b, sealedForest.serializeEpoch 0 = some b ∧
    ∃ g', (MerkleForest.new twoLevels).loadSealedEpoch 0 b = .ok g' ∧
      g'.nodeHash 0 6 0 = sealedForest.nodeHash 0 6 0 := by
  have hsome : (sealedForest.serializeEpoch 0).isSome := by decide +kernel
  obtain ⟨b, hb⟩ := Option.isSome_iff_exists.1 hsome
  obtain ⟨g', hload, -, hhash, -⟩ :=
    (loadSealedEpoch_serializeEpoch sealedForest 0 (by decide +kernel)).1 b hb (.new _) (by rfl)
  exact ⟨b, hb, g', hload, hhash 6 0 (by decide)⟩

end Sample

end InterstellarDb
