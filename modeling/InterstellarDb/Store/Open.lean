import Std.Data.ExtTreeSet
import InterstellarDb.Foundations.HalfOpen
import InterstellarDb.Store.State

/-!
# Opening a store

`open` rebuilds the forest from the disk: it loads the seal records that are accepted, and scans
the rows of all other epochs.

* The forest after the loads has exactly the trees of the accepted records (`trees_loadSeals`).
* The scanned ranges hold each row of the other epochs once (`mem_scanRows`, `nodup_scanRows`).
* So when the accepted records describe the rows of their epochs, the forest is the fold of all
  rows (`foldOf_openStore`).
-/

namespace InterstellarDb

open Std (ExtTreeMap ExtTreeSet)
open BigEndian GreatestWins

variable {L : LeafDepth}

/-! ## Scan ranges -/

/-- The least key of an epoch. -/
def epochStart (e : Epoch) : Bytes := (Key.ofFields e 0 0).bytes

/-- `e.checked_add(1)`. -/
def checkedSucc (e : Epoch) : Option Epoch :=
  if h : e.val + 1 < 2 ^ 32 then some ⟨e + 1, h⟩ else none

/-- The loop of `unsealed_scan_ranges` over the sealed epochs, from the epoch `start` on. -/
def scanRangesFrom (start : Epoch) : List Epoch → List (Bytes × Bytes)
  -- the tail of the keyspace: 21 bytes of 0xFF sort after every key
  | [] => [(epochStart start, List.replicate 21 0xFF)]
  | e :: rest =>
    (if start < e then [(epochStart start, epochStart e)] else []) ++
      match checkedSucc e with
      | none => []
      | some cursor => scanRangesFrom cursor rest

/-- `unsealed_scan_ranges`: byte ranges covering all data keys in epochs that are not sealed. -/
def unsealedScanRanges (sealed : ExtTreeSet Epoch) : List (Bytes × Bytes) :=
  scanRangesFrom 0 sealed.toList

/-! ## Open -/

/-- `<[u8; 6]>::try_from`, and the epoch in the bytes 2 to 6. -/
def sealKeyEpoch (k : Bytes) : Option Epoch :=
  if k.length = 6 then some (Fin.ofNat (2 ^ 32) (ofBytes (k.drop 2))) else none

/-- Load one entry of the seal record scan; an unreadable record is ignored. -/
def loadSeal (acc : MerkleForest L × ExtTreeSet Epoch) (x : Bytes × Bytes) :
    MerkleForest L × ExtTreeSet Epoch :=
  match sealKeyEpoch x.1 with
  | none => acc
  | some epoch =>
    match acc.1.loadSealedEpoch epoch x.2 with
    | .error _ => acc
    | .ok forest => (forest, acc.2.insert epoch)

/-- The forest and the sealed epochs after the scan of the seal records. -/
def loadSeals (L : LeafDepth) (kv : KvTree) : MerkleForest L × ExtTreeSet Epoch :=
  let sealEnd : Bytes := [0x6d, 0x22]
  (kv.range sealKeyPrefix sealEnd).foldl loadSeal (.new L, ∅)

variable [Sha256]

/-- Insert one entry of the data scan. -/
def insertEntry (forest : MerkleForest L) (x : Bytes × Bytes) : MerkleForest L :=
  match Key.tryFrom x.1 with
  | none => forest
  | some key => forest.insert key x.2

/-- `SpatioTemporalStore::open`. -/
def openStore (L : LeafDepth) (ix : HybridSpatioTemporalIndexer) (kv : KvTree) :
    SpatioTemporalStore L :=
  let (forest, sealed) := loadSeals L kv
  let forest := (unsealedScanRanges sealed).foldl
    (fun forest r => (kv.range r.1 r.2).foldl insertEntry forest) forest
  { indexer := ix
    tree := kv
    merkle := forest
    sealState := ⟨sealed.toList.toFinset, ∅⟩
    sealIo := false
    receivers := 0
    events := [] }

@[simp] theorem tree_openStore (ix : HybridSpatioTemporalIndexer) (kv : KvTree) :
    (openStore L ix kv).tree = kv := rfl

@[simp] theorem marks_openStore (ix : HybridSpatioTemporalIndexer) (kv : KvTree) (e : Epoch) :
    (openStore L ix kv).sealState.marks e = 0 := rfl

/-! ## What the ranges cover -/

omit [Sha256]

/-- The key lies in the half-open byte range. -/
def InScan (r : Bytes × Bytes) (k : Key) : Prop :=
  (compare r.1 k.bytes).isLE ∧ compare k.bytes r.2 = .lt

theorem toNat_epochStart (e : Epoch) : (Key.ofFields e 0 0).toNat = e.val * 2 ^ 128 := by
  rw [Key.toNat_eq, Key.epoch_ofFields, Key.morton_ofFields, Key.offset_ofFields]
  simp

theorem isLE_epochStart {e : Epoch} {k : Key} :
    (compare (epochStart e) k.bytes).isLE ↔ e ≤ k.epoch := by
  have hm := k.morton_lt
  have ho := k.offset_lt
  rw [epochStart, Key.compare_bytes, Nat.isLE_compare, toNat_epochStart, Key.toNat_eq,
    Fin.le_def]
  omega

theorem lt_epochStart {e : Epoch} {k : Key} :
    compare k.bytes (epochStart e) = .lt ↔ k.epoch < e := by
  have hm := k.morton_lt
  have ho := k.offset_lt
  rw [epochStart, Key.compare_bytes, Nat.compare_eq_lt, toNat_epochStart, Key.toNat_eq,
    Fin.lt_def]
  omega

theorem lt_scanEnd (k : Key) : compare k.bytes (List.replicate 21 0xFF) = .lt := by
  have hend : List.replicate 21 (0xFF : UInt8) =
      (Key.ofFields (Fin.ofNat (2 ^ 32) (2 ^ 32 - 1)) (2 ^ 64 - 1) (2 ^ 64 - 1)).bytes ++
        [0xFF] := by
    decide +kernel
  have hm := k.morton_lt
  have ho := k.offset_lt
  have he := k.epoch.isLt
  rw [hend, Key.compare_bytes_append_eq_lt _ _ (by simp), Key.toNat_eq, Key.toNat_eq,
    Key.epoch_ofFields, Key.morton_ofFields, Key.offset_ofFields]
  simp only [Fin.ofNat]
  omega

theorem checkedSucc_eq_some {e c : Epoch} : checkedSucc e = some c ↔ c.val = e.val + 1 := by
  unfold checkedSucc
  split_ifs with h
  · rw [Option.some.injEq, Fin.ext_iff, eq_comm]
  · have := c.isLt
    simp only [false_iff]
    omega

theorem checkedSucc_eq_none {e : Epoch} : checkedSucc e = none ↔ e.val + 1 = 2 ^ 32 := by
  have := e.isLt
  unfold checkedSucc
  split_ifs with h
  · simp only [false_iff]
    omega
  · simp only [true_iff]
    omega

/-- The cursor stands behind the epoch that it was moved past. -/
theorem checkedSucc_le_iff {e c x : Epoch} (hc : checkedSucc e = some c) : c ≤ x ↔ e < x := by
  rw [Fin.le_def, Fin.lt_def, checkedSucc_eq_some.1 hc, Nat.succ_le_iff]

/-- A key lies in a scanned range when its epoch is not before the start and not sealed. -/
theorem exists_inScan {l : List Epoch} (hl : l.Pairwise (· < ·)) {start : Epoch}
    (hs : ∀ e ∈ l, start ≤ e) (k : Key) :
    (∃ r ∈ scanRangesFrom start l, InScan r k) ↔ start ≤ k.epoch ∧ k.epoch ∉ l := by
  induction l generalizing start with
  | nil =>
    have := lt_scanEnd k
    simp only [scanRangesFrom, List.mem_singleton, exists_eq_left, InScan, isLE_epochStart, this,
      and_true, List.not_mem_nil, not_false_eq_true]
  | cons e l ih =>
    obtain ⟨hel, hl⟩ := List.pairwise_cons.1 hl
    have hse := hs e (by simp)
    have hhead : (∃ r ∈ (if start < e then [(epochStart start, epochStart e)] else []),
        InScan r k) ↔ start ≤ k.epoch ∧ k.epoch < e := by
      split_ifs with h
      · simp [InScan, isLE_epochStart, lt_epochStart]
      · obtain rfl : start = e := le_antisymm hse (not_lt.1 h)
        simp only [List.not_mem_nil, false_and, exists_false, false_iff, not_and, not_lt, imp_self]
    have htail : (∃ r ∈ (match checkedSucc e with
        | none => []
        | some cursor => scanRangesFrom cursor l), InScan r k) ↔ e < k.epoch ∧ k.epoch ∉ l := by
      cases hc : checkedSucc e with
      | none =>
        have := checkedSucc_eq_none.1 hc
        have := k.epoch.isLt
        simp only [List.not_mem_nil, false_and, exists_false, false_iff, not_and, Fin.lt_def]
        omega
      | some c =>
        dsimp only
        rw [ih hl fun x hx => (checkedSucc_le_iff hc).2 (hel x hx), checkedSucc_le_iff hc]
    simp only [scanRangesFrom, List.mem_append, or_and_right, exists_or]
    rw [hhead, htail, List.mem_cons, not_or]
    constructor
    · rintro (⟨h₁, h₂⟩ | ⟨h₁, h₂⟩)
      · exact ⟨h₁, h₂.ne, fun h => absurd (hel _ h) (not_lt.2 h₂.le)⟩
      · exact ⟨hse.trans h₁.le, h₁.ne', h₂⟩
    · rintro ⟨h₁, h₂, h₃⟩
      rcases lt_or_gt_of_ne h₂ with h | h
      · exact .inl ⟨h₁, h⟩
      · exact .inr ⟨h, h₃⟩

theorem epochStart_lt_epochStart {e e' : Epoch} :
    compare (epochStart e) (epochStart e') = .lt ↔ e < e' := by
  have h := lt_epochStart (e := e') (k := .ofFields e 0 0)
  rwa [Key.epoch_ofFields] at h

/-- Each range starts an epoch, and none before the cursor. -/
theorem start_scanRangesFrom {l : List Epoch} (hl : l.Pairwise (· < ·)) {start : Epoch}
    (hs : ∀ e ∈ l, start ≤ e) {r : Bytes × Bytes} (hr : r ∈ scanRangesFrom start l) :
    ∃ e, start ≤ e ∧ r.1 = epochStart e := by
  induction l generalizing start with
  | nil =>
    rw [scanRangesFrom, List.mem_singleton] at hr
    exact ⟨start, le_rfl, by rw [hr]⟩
  | cons e l ih =>
    obtain ⟨hel, hl⟩ := List.pairwise_cons.1 hl
    rw [scanRangesFrom, List.mem_append] at hr
    rcases hr with hr | hr
    · split_ifs at hr
      · exact ⟨start, le_rfl, by rw [List.mem_singleton.1 hr]⟩
      · cases hr
    · cases hc : checkedSucc e with
      | none => simp [hc] at hr
      | some c =>
        simp only [hc] at hr
        obtain ⟨e', hce, heq⟩ := ih hl (fun x hx => (checkedSucc_le_iff hc).2 (hel x hx)) hr
        exact ⟨e', (hs e (by simp)).trans ((checkedSucc_le_iff hc).1 hce).le, heq⟩

/-- **The scanned ranges lie one after the other.** -/
theorem ordered_scanRangesFrom {l : List Epoch} (hl : l.Pairwise (· < ·)) {start : Epoch}
    (hs : ∀ e ∈ l, start ≤ e) : HalfOpen.Ordered (scanRangesFrom start l) := by
  induction l generalizing start with
  | nil => exact HalfOpen.ordered_singleton (lt_scanEnd (.ofFields start 0 0))
  | cons e l ih =>
    obtain ⟨hel, hl⟩ := List.pairwise_cons.1 hl
    rw [scanRangesFrom]
    refine HalfOpen.Ordered.append ?_ ?_ fun a ha b hb => ?_
    · split_ifs with h
      · exact HalfOpen.ordered_singleton (epochStart_lt_epochStart.2 h)
      · exact HalfOpen.ordered_nil
    · cases hc : checkedSucc e with
      | none => exact HalfOpen.ordered_nil
      | some c => exact ih hl fun x hx => (checkedSucc_le_iff hc).2 (hel x hx)
    · -- the first range ends at `e`, the others start behind it
      cases hc : checkedSucc e with
      | none => simp [hc] at hb
      | some c =>
        simp only [hc] at hb
        obtain ⟨e', hce, hstart⟩ :=
          start_scanRangesFrom hl (fun x hx => (checkedSucc_le_iff hc).2 (hel x hx)) hb
        split_ifs at ha
        · rw [List.mem_singleton.1 ha, hstart]
          exact epochStart_lt_epochStart.2 ((checkedSucc_le_iff hc).1 hce)
        · cases ha

/-! ## The scanned rows -/

/-- The rows that a scan of the ranges meets, in order. -/
def scanRows (kv : KvTree) (ranges : List (Bytes × Bytes)) : List Row :=
  ranges.flatMap fun r => (kv.range r.1 r.2).filterMap KvTree.rowOf

theorem mem_range_rows {kv : KvTree} {r : Bytes × Bytes} {x : Row} :
    x ∈ (kv.range r.1 r.2).filterMap KvTree.rowOf ↔ kv.table x.1 = some x.2 ∧ InScan r x.1 := by
  simp only [List.mem_filterMap, KvTree.rowOf_eq_some]
  constructor
  · rintro ⟨_, h, rfl⟩
    exact KvTree.mem_range.1 h
  · intro h
    exact ⟨(x.1.bytes, x.2), KvTree.mem_range.2 h, rfl⟩

theorem nodup_range_rows (kv : KvTree) (r : Bytes × Bytes) :
    ((kv.range r.1 r.2).filterMap KvTree.rowOf).Nodup := by
  refine List.Nodup.filterMap (fun x y z hx hy => ?_)
    ((MapList.ascending_toList kv.data).filter _).nodup
  rw [KvTree.rowOf_eq_some.1 hx, KvTree.rowOf_eq_some.1 hy]

theorem pairwise_toList (s : ExtTreeSet Epoch) : s.toList.Pairwise (· < ·) := by
  refine List.Pairwise.imp (fun {a b} h => ?_) ExtTreeSet.ordered_toList
  exact compare_lt_iff_lt.1 h

/-- **The scan meets the rows of the epochs that are not sealed.** -/
theorem mem_scanRows {kv : KvTree} {sealed : ExtTreeSet Epoch} {x : Row} :
    x ∈ scanRows kv (unsealedScanRanges sealed) ↔
      kv.table x.1 = some x.2 ∧ x.1.epoch ∉ sealed := by
  have hzero : ∀ e ∈ sealed.toList, (0 : Epoch) ≤ e := fun e _ => Fin.zero_le e
  have h := exists_inScan (pairwise_toList sealed) hzero x.1
  rw [ExtTreeSet.mem_toList] at h
  simp only [scanRows, List.mem_flatMap, mem_range_rows]
  constructor
  · rintro ⟨r, hr, hx, hs⟩
    exact ⟨hx, (h.1 ⟨r, hr, hs⟩).2⟩
  · rintro ⟨hx, hs⟩
    obtain ⟨r, hr, hs⟩ := h.2 ⟨Fin.zero_le _, hs⟩
    exact ⟨r, hr, hx, hs⟩

/-- **It meets each of them once.** -/
theorem nodup_scanRows (kv : KvTree) (sealed : ExtTreeSet Epoch) :
    (scanRows kv (unsealedScanRanges sealed)).Nodup := by
  refine List.nodup_flatMap.2 ⟨fun r _ => nodup_range_rows kv r, ?_⟩
  have hordered : HalfOpen.Ordered (unsealedScanRanges sealed) :=
    ordered_scanRangesFrom (pairwise_toList sealed) fun e _ => Fin.zero_le e
  refine List.Pairwise.imp (fun {a b} h => ?_) hordered.disjoint
  intro x hx hx'
  exact h x.1.bytes (mem_range_rows.1 hx).2 (mem_range_rows.1 hx').2

/-! ## The loaded records -/

/-- The seal records that the scan meets, in order. -/
def sealEntries (kv : KvTree) : List (Epoch × Bytes) :=
  (kv.range sealKeyPrefix [0x6d, 0x22]).filterMap fun x => (sealKeyEpoch x.1).map (·, x.2)

theorem sealKeyEpoch_sealKey (e : Epoch) : sealKeyEpoch (sealKey e) = some e := by
  have hdrop : (sealKey e).drop 2 = toBytes 4 e := rfl
  rw [sealKeyEpoch, if_pos (length_sealKey e), hdrop, ofBytes_toBytes_of_lt e.isLt]
  congr 1
  exact Fin.ext (Nat.mod_eq_of_lt e.isLt)

/-- The longer byte strings of the scanned range start with the bytes of `m!`. -/
theorem marker_of_mem_range {a b c : UInt8} {u : Bytes}
    (h₁ : (compare sealKeyPrefix (a :: b :: c :: u)).isLE)
    (h₂ : compare (a :: b :: c :: u) [0x6d, 0x22] = .lt) : a = 0x6d ∧ b = 0x21 := by
  simp only [sealKeyPrefix, List.compare_cons_cons, List.compare_nil_cons, List.compare_cons_nil,
    compare_toNat] at h₁ h₂
  have ha : a.toNat = 0x6d := by
    rcases Nat.lt_trichotomy a.toNat 0x6d with h | h | h
    · simp [Nat.compare_eq_gt.2 h] at h₁
    · exact h
    · simp [Nat.compare_eq_gt.2 h] at h₂
  have hb : b.toNat = 0x21 := by
    rcases Nat.lt_trichotomy b.toNat 0x21 with h | h | h
    · simp [ha, Nat.compare_eq_gt.2 h] at h₁
    · exact h
    · rcases Nat.lt_trichotomy b.toNat 0x22 with h' | h' | h'
      · omega
      · simp [ha, h'] at h₂
      · simp [ha, Nat.compare_eq_gt.2 h'] at h₂
  exact ⟨UInt8.toNat_inj.1 ha, UInt8.toNat_inj.1 hb⟩

/-- The 6-byte keys of the scanned range are the seal keys. -/
theorem sealKey_of_mem_range {k : Bytes} {e : Epoch} (h₁ : (compare sealKeyPrefix k).isLE)
    (h₂ : compare k [0x6d, 0x22] = .lt) (he : sealKeyEpoch k = some e) : k = sealKey e := by
  unfold sealKeyEpoch at he
  split_ifs at he with hlen
  obtain ⟨a, b, c, u, rfl⟩ : ∃ a b c u, k = a :: b :: c :: u := by
    rcases k with - | ⟨a, - | ⟨b, - | ⟨c, u⟩⟩⟩
    · simp at hlen
    · simp at hlen
    · simp at hlen
    · exact ⟨a, b, c, u, rfl⟩
  have ht : (c :: u).length = 4 := by simpa using hlen
  obtain ⟨rfl, rfl⟩ := marker_of_mem_range h₁ h₂
  have hlt := ofBytes_lt (c :: u)
  rw [ht] at hlt
  have hval : (e : ℕ) = ofBytes (c :: u) := by
    rw [← Option.some.inj he]
    exact Nat.mod_eq_of_lt hlt
  have hback := toBytes_ofBytes (c :: u)
  rw [ht] at hback
  rw [sealKey, hval, hback]
  rfl

theorem sealKey_mem_range (e : Epoch) :
    (compare sealKeyPrefix (sealKey e)).isLE ∧ compare (sealKey e) [0x6d, 0x22] = .lt := by
  cases h : toBytes 4 e with
  | nil =>
    have := congrArg List.length h
    simp at this
  | cons c u =>
    have hk : sealKey e = 0x6d :: 0x21 :: c :: u := by rw [sealKey, h]; rfl
    rw [hk]
    constructor
    · simp only [sealKeyPrefix, List.compare_cons_cons, List.compare_nil_cons]
      rfl
    · simp only [List.compare_cons_cons, List.compare_cons_nil]
      rfl

theorem mem_sealEntries {kv : KvTree} {x : Epoch × Bytes} :
    x ∈ sealEntries kv ↔ kv.record x.1 = some x.2 := by
  obtain ⟨e, b⟩ := x
  simp only [sealEntries, List.mem_filterMap, Option.map_eq_some_iff, Prod.mk.injEq,
    KvTree.mem_range]
  constructor
  · rintro ⟨⟨k, v⟩, ⟨hget, h₁, h₂⟩, _, he, rfl, rfl⟩
    rw [sealKey_of_mem_range h₁ h₂ he] at hget
    exact hget
  · intro h
    exact ⟨(sealKey e, b), ⟨h, sealKey_mem_range e⟩, e, sealKeyEpoch_sealKey e, rfl, rfl⟩

theorem pairwise_sealEntries (kv : KvTree) :
    (sealEntries kv).Pairwise fun x y => x.1 ≠ y.1 := by
  rw [sealEntries, List.pairwise_filterMap]
  refine List.Pairwise.imp_of_mem (fun {x y} hx hy hxy => ?_)
    ((MapList.ascending_toList kv.data).filter _)
  rintro ⟨e, b⟩ hxe ⟨e', b'⟩ hye rfl
  simp only [Option.map_eq_some_iff, Prod.mk.injEq] at hxe hye
  obtain ⟨_, hxe, rfl, -⟩ := hxe
  obtain ⟨_, hye, rfl, -⟩ := hye
  obtain ⟨-, hx₁, hx₂⟩ := KvTree.mem_range.1 hx
  obtain ⟨-, hy₁, hy₂⟩ := KvTree.mem_range.1 hy
  rw [sealKey_of_mem_range hx₁ hx₂ hxe, sealKey_of_mem_range hy₁ hy₂ hye,
    show compare (sealKey _) (sealKey _) = .eq from Std.ReflCmp.compare_self] at hxy
  cases hxy

/-- Load one seal record. -/
def loadEntry (acc : MerkleForest L × ExtTreeSet Epoch) (x : Epoch × Bytes) :
    MerkleForest L × ExtTreeSet Epoch :=
  match acc.1.loadSealedEpoch x.1 x.2 with
  | .error _ => acc
  | .ok forest => (forest, acc.2.insert x.1)

theorem loadSeals_eq (kv : KvTree) :
    loadSeals L kv = (sealEntries kv).foldl loadEntry (.new L, ∅) := by
  rw [loadSeals, sealEntries, List.foldl_filterMap]
  congr 1
  funext acc x
  rw [loadSeal]
  cases sealKeyEpoch x.1 with
  | none => rfl
  | some e => rfl

/-- The record is accepted for an epoch without a tree. -/
theorem isOk_loadSealedEpoch {e : Epoch} {b : Bytes} :
    ((MerkleForest.new L).loadSealedEpoch e b).isOk = true ↔ Accepts L b := by
  have hnone : (MerkleForest.new L).trees[e]? = none := by simp [MerkleForest.new]
  constructor
  · intro h
    cases hg : (MerkleForest.new L).loadSealedEpoch e b with
    | error err =>
      rw [hg] at h
      cases h
    | ok g => exact (loadSealedEpoch_eq_ok.1 hg).2.1
  · intro h
    rw [loadSealedEpoch_eq_ok.2 ⟨hnone, h, rfl⟩]
    rfl

theorem loadEntry_of_accepts {acc : MerkleForest L × ExtTreeSet Epoch} {x : Epoch × Bytes}
    (hfree : acc.1.trees[x.1]? = none) (ha : Accepts L x.2) :
    loadEntry acc x =
      (MerkleForest.mk (acc.1.trees.insert x.1 (recordTree L x.2)), acc.2.insert x.1) := by
  have := loadSealedEpoch_eq_ok.2 ⟨hfree, ha, rfl⟩
  rw [loadEntry, this]

/-- An accepted record changes nothing about the other epochs. -/
theorem loadEntry_of_ne {acc : MerkleForest L × ExtTreeSet Epoch} {x : Epoch × Bytes}
    (hfree : acc.1.trees[x.1]? = none) (ha : Accepts L x.2) {e : Epoch} (he : e ≠ x.1) :
    (loadEntry acc x).1.trees[e]? = acc.1.trees[e]? ∧ (e ∈ (loadEntry acc x).2 ↔ e ∈ acc.2) := by
  rw [loadEntry_of_accepts hfree ha]
  refine ⟨?_, ?_⟩
  · simp only [ExtTreeMap.getElem?_insert, Std.LawfulEqCmp.compare_eq_iff_eq, if_neg he.symm]
  · simp only [ExtTreeSet.mem_insert, Std.LawfulEqCmp.compare_eq_iff_eq]
    exact or_iff_right he.symm

theorem loadEntry_of_not_accepts {acc : MerkleForest L × ExtTreeSet Epoch} {x : Epoch × Bytes}
    (ha : ¬ Accepts L x.2) : loadEntry acc x = acc := by
  rw [loadEntry]
  cases h : acc.1.loadSealedEpoch x.1 x.2 with
  | error _ => rfl
  | ok g => exact absurd (loadSealedEpoch_eq_ok.1 h).2.1 ha

/-- The accepted records become the trees of their epochs, and nothing else changes. -/
theorem foldl_loadEntry {S : List (Epoch × Bytes)} (hS : S.Pairwise fun x y => x.1 ≠ y.1)
    {acc : MerkleForest L × ExtTreeSet Epoch} (hfree : ∀ x ∈ S, acc.1.trees[x.1]? = none) :
    (∀ x ∈ S, Accepts L x.2 →
      (S.foldl loadEntry acc).1.trees[x.1]? = some (recordTree L x.2) ∧
        x.1 ∈ (S.foldl loadEntry acc).2) ∧
    ∀ e, (∀ x ∈ S, x.1 = e → ¬ Accepts L x.2) →
      (S.foldl loadEntry acc).1.trees[e]? = acc.1.trees[e]? ∧
        (e ∈ (S.foldl loadEntry acc).2 ↔ e ∈ acc.2) := by
  induction S generalizing acc with
  | nil => simp
  | cons x S ih =>
    obtain ⟨hx, hS⟩ := List.pairwise_cons.1 hS
    rw [List.foldl_cons]
    have hxfree := hfree x (by simp)
    by_cases ha : Accepts L x.2
    · have hfree' : ∀ y ∈ S, (loadEntry acc x).1.trees[y.1]? = none := by
        intro y hy
        rw [(loadEntry_of_ne hxfree ha (hx y hy).symm).1]
        exact hfree y (List.mem_cons_of_mem _ hy)
      obtain ⟨ih₁, ih₂⟩ := ih hS hfree'
      constructor
      · intro y hy hya
        rcases List.mem_cons.1 hy with rfl | hy
        · obtain ⟨h₁, h₂⟩ := ih₂ y.1 fun z hz hzy => absurd hzy.symm (hx z hz)
          rw [h₁, h₂, loadEntry_of_accepts hxfree ha]
          simp
        · exact ih₁ y hy hya
      · intro e he
        have hne : e ≠ x.1 := fun h => he x (by simp) h.symm ha
        obtain ⟨h₁, h₂⟩ := ih₂ e fun y hy => he y (List.mem_cons_of_mem _ hy)
        rw [h₁, h₂]
        exact loadEntry_of_ne hxfree ha hne
    · rw [loadEntry_of_not_accepts ha]
      obtain ⟨ih₁, ih₂⟩ := ih hS fun y hy => hfree y (List.mem_cons_of_mem _ hy)
      constructor
      · intro y hy hya
        rcases List.mem_cons.1 hy with rfl | hy
        · exact absurd hya ha
        · exact ih₁ y hy hya
      · intro e he
        exact ih₂ e fun y hy => he y (List.mem_cons_of_mem _ hy)

theorem free_new (L : LeafDepth) (S : List (Epoch × Bytes)) :
    ∀ x ∈ S, ((MerkleForest.new L, ∅) : MerkleForest L × ExtTreeSet Epoch).1.trees[x.1]? =
      none := by
  intro x _
  simp [MerkleForest.new]

/-- **After the loads, the forest has exactly the trees of the accepted records.** -/
theorem trees_loadSeals (kv : KvTree) :
    (∀ e b, kv.record e = some b → Accepts L b →
      (loadSeals L kv).1.trees[e]? = some (recordTree L b)) ∧
    ∀ e, (∀ b, kv.record e = some b → ¬ Accepts L b) → (loadSeals L kv).1.trees[e]? = none := by
  obtain ⟨h₁, h₂⟩ := foldl_loadEntry (pairwise_sealEntries kv) (free_new L (sealEntries kv))
  rw [loadSeals_eq]
  constructor
  · intro e b hb ha
    exact (h₁ (e, b) (mem_sealEntries.2 hb) ha).1
  · intro e he
    rw [(h₂ e fun x hx hxe => he x.2 (hxe ▸ mem_sealEntries.1 hx)).1]
    simp [MerkleForest.new]

/-- **The sealed epochs are those with an accepted record.** -/
theorem mem_loadSeals {kv : KvTree} {e : Epoch} :
    e ∈ (loadSeals L kv).2 ↔ ∃ b, kv.record e = some b ∧ Accepts L b := by
  obtain ⟨h₁, h₂⟩ := foldl_loadEntry (pairwise_sealEntries kv) (free_new L (sealEntries kv))
  rw [loadSeals_eq]
  constructor
  · intro he
    by_contra hno
    push Not at hno
    have := (h₂ e fun x hx hxe => hno x.2 (hxe ▸ mem_sealEntries.1 hx)).2.1 he
    simp at this
  · rintro ⟨b, hb, ha⟩
    exact (h₁ (e, b) (mem_sealEntries.2 hb) ha).2

/-! ## The rebuilt forest -/

section Rebuilt

variable [Sha256] {ix : HybridSpatioTemporalIndexer} {kv : KvTree}

theorem merkle_openStore :
    (openStore L ix kv).merkle =
      (loadSeals L kv).1.insertAll (scanRows kv (unsealedScanRanges (loadSeals L kv).2)) := by
  have hrange : ∀ (f : MerkleForest L) (l : List (Bytes × Bytes)),
      l.foldl insertEntry f = f.insertAll (l.filterMap KvTree.rowOf) := by
    intro f l
    rw [MerkleForest.insertAll, List.foldl_filterMap]
    congr 1
    funext f x
    rw [insertEntry, KvTree.rowOf]
    cases Key.tryFrom x.1 with
    | none => rfl
    | some k => rfl
  rw [scanRows, MerkleForest.insertAll, List.foldl_flatMap]
  unfold openStore
  simp only [hrange]
  rfl

theorem mem_sealed_openStore {e : Epoch} :
    e ∈ (openStore L ix kv).sealState.sealed ↔ ∃ b, kv.record e = some b ∧ Accepts L b := by
  rw [← mem_loadSeals]
  simp only [openStore, List.mem_toFinset, ExtTreeSet.mem_toList]

omit [Sha256] in
theorem toFinset_scanRows (sealed : ExtTreeSet Epoch) :
    (scanRows kv (unsealedScanRanges sealed)).toFinset =
      kv.rows.filter fun r => r.1.epoch ∉ sealed := by
  ext r
  rw [List.mem_toFinset, mem_scanRows, Finset.mem_filter, kv.rows_table]

/-- The node hashes of the rebuilt forest: from the record of a sealed epoch, from the rows of
any other. -/
theorem nodeHash_openStore (ix : HybridSpatioTemporalIndexer) (kv : KvTree) (e : Epoch) {d p : ℕ}
    (hd : L.Valid d) (hp : IsPrefix d p) :
    (∀ b, kv.record e = some b → Accepts L b →
      (openStore L ix kv).merkle.nodeHash e d p = (recordTree L b).nodeHash d p) ∧
    ((∀ b, kv.record e = some b → ¬ Accepts L b) →
      (openStore L ix kv).merkle.nodeHash e d p = cellHash kv.rows e d p) := by
  rw [merkle_openStore, MerkleForest.nodeHash_insertAll _ (nodup_scanRows kv _) e hd hp,
    toFinset_scanRows]
  constructor
  · intro b hb ha
    have hsealed := mem_loadSeals.2 ⟨b, hb, ha⟩
    have hnone : cellHash (kv.rows.filter fun r => r.1.epoch ∉ (loadSeals L kv).2) e d p = 0 := by
      refine Finset.sum_eq_zero fun r hr => ?_
      simp only [Finset.mem_filter] at hr
      exact absurd hsealed (hr.2.1 ▸ hr.1.2)
    rw [hnone, add_zero, MerkleForest.nodeHash, (trees_loadSeals kv).1 e b hb ha,
      Option.elim_some]
  · intro hb
    have hsealed : e ∉ (loadSeals L kv).2 := fun h => by
      obtain ⟨b, hb', ha⟩ := mem_loadSeals.1 h
      exact hb b hb' ha
    rw [MerkleForest.nodeHash, (trees_loadSeals kv).2 e hb, Option.elim_none, zero_add]
    refine Finset.sum_congr ?_ fun _ _ => rfl
    ext r
    simp only [Finset.mem_filter]
    constructor
    · rintro ⟨⟨hr, -⟩, hc⟩
      exact ⟨hr, hc⟩
    · rintro ⟨hr, hc⟩
      exact ⟨⟨hr, hc.1 ▸ hsealed⟩, hc⟩

theorem count_openStore (L : LeafDepth) (ix : HybridSpatioTemporalIndexer) (kv : KvTree)
    (e : Epoch) :
    (∀ b, kv.record e = some b → Accepts L b →
      (openStore L ix kv).merkle.count e = (recordTree L b).count) ∧
    ((∀ b, kv.record e = some b → ¬ Accepts L b) →
      (openStore L ix kv).merkle.count e = (epochCount kv.rows e : BitVec 64)) := by
  rw [merkle_openStore, MerkleForest.count_insertAll _ (nodup_scanRows kv _) e, toFinset_scanRows]
  constructor
  · intro b hb ha
    have hsealed := mem_loadSeals.2 ⟨b, hb, ha⟩
    have hnone : (kv.rows.filter fun r => r.1.epoch ∉ (loadSeals L kv).2).filter
        (fun r => r.1.epoch = e) = ∅ := by
      refine Finset.filter_eq_empty_iff.2 fun r hr hre => ?_
      exact (Finset.mem_filter.1 hr).2 (hre ▸ hsealed)
    rw [hnone, Finset.card_empty, Nat.cast_zero, add_zero, MerkleForest.count,
      MerkleForest.tree_of_getElem? ((trees_loadSeals kv).1 e b hb ha)]
  · intro hb
    have hsealed : e ∉ (loadSeals L kv).2 := fun h => by
      obtain ⟨b, hb', ha⟩ := mem_loadSeals.1 h
      exact hb b hb' ha
    have htree : (loadSeals L kv).1.count e = 0 := by
      rw [MerkleForest.count, MerkleForest.tree, ExtTreeMap.getD_eq_getD_getElem?,
        (trees_loadSeals kv).2 e hb]
      rfl
    have hall : (kv.rows.filter fun r => r.1.epoch ∉ (loadSeals L kv).2).filter
        (fun r => r.1.epoch = e) = kv.rows.filter fun r => r.1.epoch = e := by
      rw [Finset.filter_filter]
      refine Finset.filter_congr fun r _ => ?_
      exact and_iff_right_of_imp fun h => h ▸ hsealed
    rw [htree, zero_add, hall, epochCount]

/-- **The rebuilt forest is the fold of the rows**, when every accepted record is the record of
the rows of its epoch. -/
theorem foldOf_openStore
    (h : ∀ e b, kv.record e = some b → Accepts L b → IsRecordOf L b e kv.rows) :
    FoldOf (openStore L ix kv).merkle kv.rows := by
  constructor
  · intro e d p hd hp
    obtain ⟨h₁, h₂⟩ := nodeHash_openStore ix kv e hd hp
    by_cases hb : ∃ b, kv.record e = some b ∧ Accepts L b
    · obtain ⟨b, hb, ha⟩ := hb
      rw [h₁ b hb ha, (h e b hb ha).nodeHash ha hd hp]
    · exact h₂ fun b hb' ha => hb ⟨b, hb', ha⟩
  · intro e
    obtain ⟨h₁, h₂⟩ := count_openStore L ix kv e
    by_cases hb : ∃ b, kv.record e = some b ∧ Accepts L b
    · obtain ⟨b, hb, ha⟩ := hb
      rw [h₁ b hb ha, (h e b hb ha).count]
    · exact h₂ fun b hb' ha => hb ⟨b, hb', ha⟩

end Rebuilt

end InterstellarDb
