import InterstellarDb.Store.Query

/-!
# The server side of a sync

`SyncService` serves the Merkle forest and the rows of a store, read-only. Hashes travel as 16
big-endian bytes, keys as byte strings of any length, which both sides check.

* The hashes it sends are read back as they were (`hashFromBytes_hashBytes`).
* `children` answers for the inner nodes of the tree only (`children_eq_ok`).
* `fetch` over the key range of a cell answers with the rows of the cell (`mem_fetch_leaf`).
-/

namespace InterstellarDb

/-! ## Messages -/

/-- `tonic::Status`, as far as the service and the transport make them. -/
inductive Status where
  | invalidArgument (message : String)
  | internal (message : String)
  | unavailable (message : String)
  deriving DecidableEq

/-- `EpochRoot`. -/
structure EpochRoot where
  epoch : Epoch
  hash : Bytes
  deriving DecidableEq

/-- `SyncRootsResponse`. -/
structure SyncRootsResponse where
  roots : List EpochRoot
  leafDepthBits : ℕ
  deriving DecidableEq

/-- `ChildHash`. -/
structure ChildHash where
  nodePrefix : ℕ
  hash : Bytes
  deriving DecidableEq

/-- `SyncRow`. -/
structure SyncRow where
  key : Bytes
  payload : Bytes
  deriving DecidableEq

/-- `hash_bytes`. -/
def hashBytes (h : NodeHash) : Bytes := h.toBeBytes

/-- `hash_from_bytes`. -/
def hashFromBytes (b : Bytes) : Except Status NodeHash :=
  if b.length = 16 then .ok (.fromBeBytes b)
  else .error (.invalidArgument "hash must be 16 bytes")

@[simp] theorem hashFromBytes_hashBytes (h : NodeHash) :
    hashFromBytes (hashBytes h) = .ok h := by
  rw [hashFromBytes, hashBytes, if_pos h.length_toBeBytes, NodeHash.fromBeBytes_toBeBytes]

/-! ## The service -/

namespace SyncService

variable {L : LeafDepth}

/-- `SyncService::roots`. -/
def roots (store : SpatioTemporalStore L) : SyncRootsResponse where
  roots := store.merkle.epochRoots.map fun x => ⟨x.1, hashBytes x.2⟩
  leafDepthBits := L.bits

/-- `SyncService::children`. -/
def children (store : SpatioTemporalStore L) (epoch : Epoch) (depth p : ℕ) :
    Except Status (List ChildHash) :=
  if depth % 3 ≠ 0 ∨ depth + 3 > L.bits then
    .error (.invalidArgument
      s!"depth_bits must be a multiple of 3 with depth_bits + 3 ≤ {L.bits}")
  else .ok ((store.merkle.childHashes epoch depth p).map fun x => ⟨x.1, hashBytes x.2⟩)

/-- `SyncService::fetch`: the rows that the answer streams. -/
def fetch (store : SpatioTemporalStore L) (startKey endKey : Bytes) :
    Except Status (List SyncRow) :=
  match Key.tryFrom startKey with
  | none => .error (.invalidArgument "start_key must be 20 bytes")
  | some start =>
    match Key.tryFrom endKey with
    | none => .error (.invalidArgument "end_key must be 20 bytes")
    | some stop =>
      if compare start.bytes stop.bytes = .gt then
        .error (.invalidArgument "start_key must be ≤ end_key")
      else .ok ((scanRange store.tree start stop).map fun r => ⟨r.1.bytes, r.2⟩)

variable {store : SpatioTemporalStore L}

theorem mem_roots {x : EpochRoot} :
    x ∈ (roots store).roots ↔
      store.merkle.nodeHash x.epoch 0 0 ≠ 0 ∧
        x.hash = hashBytes (store.merkle.nodeHash x.epoch 0 0) := by
  simp only [roots, List.mem_map, Prod.exists, MerkleForest.mem_epochRoots]
  constructor
  · rintro ⟨e, h, ⟨h₀, rfl⟩, rfl⟩
    exact ⟨h₀, rfl⟩
  · rintro ⟨h₀, hx⟩
    refine ⟨x.epoch, _, ⟨h₀, rfl⟩, ?_⟩
    rw [← hx]

/-- The root of every epoch with a non-zero hash is sent. -/
theorem exists_root {e : Epoch} (h : store.merkle.nodeHash e 0 0 ≠ 0) :
    ∃ x ∈ (roots store).roots, x.epoch = e := by
  refine ⟨⟨e, hashBytes (store.merkle.nodeHash e 0 0)⟩, ?_, rfl⟩
  rw [mem_roots]
  exact ⟨h, rfl⟩

/-- The children of an inner node are its cells with a non-zero hash. -/
theorem children_eq_ok {e : Epoch} {d p : ℕ} {l : List ChildHash}
    (h : children store e d p = .ok l) :
    L.Valid (d + 3) ∧ ∀ x, x ∈ l ↔ ∃ c < 8, x.nodePrefix = childPrefix d p c ∧
      store.merkle.nodeHash e (d + 3) x.nodePrefix ≠ 0 ∧
        x.hash = hashBytes (store.merkle.nodeHash e (d + 3) x.nodePrefix) := by
  unfold children at h
  split_ifs at h with hd
  obtain rfl := Except.ok.inj h
  push Not at hd
  refine ⟨⟨by omega, hd.2⟩, fun x => ?_⟩
  simp only [List.mem_map, Prod.exists, MerkleForest.mem_childHashes]
  constructor
  · rintro ⟨q, _, ⟨c, hc, rfl, h₀, rfl⟩, rfl⟩
    exact ⟨c, hc, rfl, h₀, rfl⟩
  · rintro ⟨c, hc, hq, h₀, hx⟩
    refine ⟨x.nodePrefix, _, ⟨c, hc, hq, h₀, rfl⟩, ?_⟩
    rw [← hx]

/-- Every child with a non-zero hash is sent. -/
theorem exists_child {e : Epoch} {d p : ℕ} {l : List ChildHash} (hl : children store e d p = .ok l)
    {c : ℕ} (hc : c < 8) (h : store.merkle.nodeHash e (d + 3) (childPrefix d p c) ≠ 0) :
    ∃ x ∈ l, x.nodePrefix = childPrefix d p c := by
  refine ⟨⟨childPrefix d p c, hashBytes (store.merkle.nodeHash e (d + 3) (childPrefix d p c))⟩,
    ?_, rfl⟩
  rw [(children_eq_ok hl).2]
  exact ⟨c, hc, rfl, h, rfl⟩

/-- The key range of a cell is served. -/
theorem fetch_leaf (store : SpatioTemporalStore L) (e : Epoch) {d p : ℕ} (hp : IsPrefix d p) :
    fetch store (leafKeyRange e p d).1.bytes (leafKeyRange e p d).2.bytes =
      .ok ((scanRange store.tree (leafKeyRange e p d).1 (leafKeyRange e p d).2).map fun r =>
        ⟨r.1.bytes, r.2⟩) := by
  simp only [fetch, Key.tryFrom_bytes]
  rw [if_neg]
  rw [Key.compare_bytes, Nat.compare_eq_gt]
  exact Nat.not_lt.2 (leafKeyRange_le e hp)

/-- The rows of a cell, as `fetch` sends them. -/
theorem mem_fetch_leaf {e : Epoch} {d p : ℕ} (hp : IsPrefix d p) {l : List SyncRow}
    (h : fetch store (leafKeyRange e p d).1.bytes (leafKeyRange e p d).2.bytes = .ok l)
    {x : SyncRow} :
    x ∈ l ↔ ∃ r ∈ store.rows, InCell e d p r.1 ∧ x = ⟨r.1.bytes, r.2⟩ := by
  simp only [fetch, Key.tryFrom_bytes] at h
  split_ifs at h
  obtain rfl := Except.ok.inj h
  simp only [List.mem_map, mem_scanRange, HybridSpatioTemporalIndexer.Covers, mem_leafKeyRange hp,
    and_assoc, eq_comm]

end SyncService

end InterstellarDb
