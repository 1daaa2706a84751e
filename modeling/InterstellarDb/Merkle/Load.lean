import InterstellarDb.Foundations.Checked
import InterstellarDb.Merkle.Diff
import InterstellarDb.Merkle.Record

/-!
# Loading any bytes

`checkedLoadSealedEpoch` is `load_sealed_epoch` as a change of the forest, with its indices, slices
and arithmetic checked. It has a result on every byte string
(`checkedLoadSealedEpoch_eq`): an error leaves the forest as it was, and a success adds the tree of
one epoch. Whatever the bytes were, the hashes of the new tree are those of a list of toggles, so
the tree is as well formed as any other (`wellFormed`).
-/

namespace InterstellarDb

open Std BigEndian

variable {L : LeafDepth}

/-- `bytes[i..j]`, unless it is out of bounds. -/
def checkedSlice (bytes : Bytes) (i j : ℕ) : Option Bytes :=
  if i ≤ j ∧ j ≤ bytes.length then some (slice bytes i (j - i)) else none

/-- One round of the loop of `load_sealed_epoch`. -/
def checkedToggle (bytes : Bytes) (tree : EpochTree L) (i : ℕ) : Option (EpochTree L) := do
  let off ← Checked.add 64 14 (← Checked.mul 64 i 24)
  let mid ← Checked.add 64 off 8
  let p := readU64 (← checkedSlice bytes off mid)
  let hash := NodeHash.fromBeBytes (← checkedSlice bytes mid (← Checked.add 64 off 24))
  return tree.toggle p hash

/-- `MerkleForest::load_sealed_epoch` with its indices and arithmetic checked: the result and the
forest afterwards. -/
def MerkleForest.checkedLoadSealedEpoch (f : MerkleForest L) (epoch : Epoch) (bytes : Bytes) :
    Option (Except String Unit × MerkleForest L) := do
  let leafDepth := f.leafDepthBits
  let length := bytes.length
  if (f.trees[epoch]?).isSome then
    return (.error s!"epoch {epoch} already populated", f)
  if length < 14 then
    return (.error "seal record too short", f)
  let version ← bytes[0]?
  if version ≠ 1 then
    return (.error s!"unsupported seal record version {version}", f)
  let depth ← bytes[1]?
  if depth.toNat ≠ leafDepth then
    return (.error s!"seal record leaf depth {depth} does not match forest leaf depth {leafDepth}",
      f)
  let count := ofBytes (← checkedSlice bytes 2 10)
  let n := ofBytes (← checkedSlice bytes 10 14)
  if length ≠ (← Checked.add 64 14 (← Checked.mul 64 n 24)) then
    return (.error s!"seal record length {length} does not match {n} entries", f)
  let tree ← (List.range n).foldlM (checkedToggle bytes) (.new L)
  return (.ok (), ⟨f.trees.insert epoch (tree.setCount (.ofNat 64 count))⟩)

/-! ## No step fails -/

theorem checkedSlice_eq {bytes : Bytes} {i j w : ℕ} (hw : j = i + w) (h : j ≤ bytes.length) :
    checkedSlice bytes i j = some (slice bytes i w) := by
  subst hw
  rw [checkedSlice, if_pos ⟨Nat.le_add_right _ _, h⟩, Nat.add_sub_cancel_left]

/-- A round stays within the record. -/
theorem checkedToggle_eq {bytes : Bytes} {n i : ℕ} (hn : n < 2 ^ 32) (hi : i < n)
    (hlen : bytes.length = 14 + n * 24) (tree : EpochTree L) :
    checkedToggle bytes tree i =
      some (tree.toggle (recordEntry bytes i).1 (recordEntry bytes i).2) := by
  have h₁ : Checked.mul 64 i 24 = some (i * 24) := Checked.mul_eq_some.2 ⟨by omega, rfl⟩
  have h₂ : Checked.add 64 14 (i * 24) = some (14 + i * 24) :=
    Checked.add_eq_some.2 ⟨by omega, rfl⟩
  have h₃ : Checked.add 64 (14 + i * 24) 8 = some (14 + i * 24 + 8) :=
    Checked.add_eq_some.2 ⟨by omega, rfl⟩
  have h₄ : Checked.add 64 (14 + i * 24) 24 = some (14 + i * 24 + 24) :=
    Checked.add_eq_some.2 ⟨by omega, rfl⟩
  have h₅ : checkedSlice bytes (14 + i * 24) (14 + i * 24 + 8) =
      some (slice bytes (14 + i * 24) 8) := checkedSlice_eq rfl (by omega)
  have h₆ : checkedSlice bytes (14 + i * 24 + 8) (14 + i * 24 + 24) =
      some (slice bytes (14 + i * 24 + 8) 16) := checkedSlice_eq (by omega) (by omega)
  simp only [checkedToggle, h₁, h₂, h₃, h₄, h₅, h₆, Option.bind_eq_bind, Option.bind_some]
  rfl

/-- The loop of a round that does not fail is a fold. -/
theorem foldlM_eq_some {α β : Type} {body : β → α → Option β} {g : β → α → β} {l : List α}
    (h : ∀ s, ∀ a ∈ l, body s a = some (g s a)) (s : β) :
    l.foldlM body s = some (l.foldl g s) := by
  induction l generalizing s with
  | nil => rfl
  | cons a l ih =>
    rw [List.foldlM_cons, h s a (by simp), List.foldl_cons]
    exact ih (fun s a ha => h s a (List.mem_cons_of_mem _ ha)) (g s a)

/-- The outcome of a load as the result and the forest afterwards. -/
def MerkleForest.afterLoad (f : MerkleForest L) :
    Except String (MerkleForest L) → Except String Unit × MerkleForest L
  | .error err => (.error err, f)
  | .ok g => (.ok (), g)

/-- **A load never indexes out of bounds**, and its result is that of the unchecked load. -/
theorem MerkleForest.checkedLoadSealedEpoch_eq (f : MerkleForest L) (e : Epoch) (b : Bytes) :
    f.checkedLoadSealedEpoch e b = some (f.afterLoad (f.loadSealedEpoch e b)) := by
  unfold checkedLoadSealedEpoch loadSealedEpoch
  dsimp only [leafDepthBits]
  by_cases h₁ : (f.trees[e]?).isSome = true
  · rw [if_pos h₁, if_pos h₁]
    rfl
  rw [if_neg h₁, if_neg h₁]
  by_cases h₂ : b.length < 14
  · rw [if_pos h₂, if_pos h₂]
    rfl
  rw [if_neg h₂, if_neg h₂]
  have hget : ∀ i < 14, b[i]? = some (b.getD i 0) := by
    intro i hi
    have hi' : i < b.length := by omega
    rw [List.getD_eq_getElem?_getD, List.getElem?_eq_getElem hi', Option.getD_some]
  have hcount : checkedSlice b 2 10 = some (slice b 2 8) := checkedSlice_eq rfl (by omega)
  have hnumber : checkedSlice b 10 14 = some (slice b 10 4) := checkedSlice_eq rfl (by omega)
  have hn : recordLength b < 2 ^ 32 := by
    have hlt := ofBytes_lt (slice b 10 4)
    rw [length_slice (by omega)] at hlt
    exact hlt.trans_eq (by norm_num)
  have hmul : Checked.mul 64 (recordLength b) 24 = some (recordLength b * 24) :=
    Checked.mul_eq_some.2 ⟨by omega, rfl⟩
  have hadd : Checked.add 64 14 (recordLength b * 24) = some (14 + recordLength b * 24) :=
    Checked.add_eq_some.2 ⟨by omega, rfl⟩
  simp only [hget 0 (by omega), hget 1 (by omega), hcount, hnumber, Option.bind_eq_bind,
    Option.bind_some]
  by_cases h₃ : b.getD 0 0 ≠ 1
  · rw [if_pos h₃, if_pos h₃]
    rfl
  rw [if_neg h₃, if_neg h₃]
  by_cases h₄ : (b.getD 1 0).toNat ≠ L.bits
  · rw [if_pos h₄, if_pos h₄]
    rfl
  rw [if_neg h₄, if_neg h₄]
  change (Checked.mul 64 (recordLength b) 24).bind _ = _
  rw [hmul, Option.bind_some, hadd, Option.bind_some]
  by_cases h₅ : b.length ≠ 14 + recordLength b * 24
  · rw [if_pos h₅, if_pos h₅]
    rfl
  rw [if_neg h₅, if_neg h₅]
  have hloop : (List.range (recordLength b)).foldlM (checkedToggle b) (.new L) =
      some ((List.range (recordLength b)).foldl
        (fun (tree : EpochTree L) i => tree.toggle (recordEntry b i).1 (recordEntry b i).2)
        (.new L)) :=
    foldlM_eq_some
      (fun tree i hi => checkedToggle_eq hn (List.mem_range.1 hi) (not_not.1 h₅) tree) (.new L)
  change ((List.range (recordLength b)).foldlM (checkedToggle b) (.new L)).bind _ = _
  rw [hloop]
  rfl

/-! ## What a load leaves behind -/

/-- The trees of a forest are well formed: every hash is stored at a cell, the root is the exclusive
or of the hashes at depth 3 and every hash that of its eight children, and all hashes of an epoch
fold one list of digests. -/
structure WellFormed (f : MerkleForest L) : Prop where
  cells : ∀ e d p, L.Valid d → d ≠ 0 → f.nodeHash e d p ≠ 0 → IsPrefix d p
  root : ∀ e, f.nodeHash e 0 0 = ∑ c ∈ Finset.range 8, f.nodeHash e 3 (childPrefix 0 0 c)
  children : ∀ e d p, L.Valid (d + 3) → IsPrefix d p →
    f.nodeHash e d p = ∑ c ∈ Finset.range 8, f.nodeHash e (d + 3) (childPrefix d p c)
  folds : ∀ e, ∃ T : List Toggle, ∀ d p, L.Valid d → IsPrefix d p →
    f.nodeHash e d p = foldAt T d p

/-- **Every forest is well formed**, also after a load of any bytes. -/
theorem wellFormed (f : MerkleForest L) : WellFormed f := by
  have hchildren : ∀ e d p, L.Valid (d + 3) → IsPrefix d p →
      f.nodeHash e d p = ∑ c ∈ Finset.range 8, f.nodeHash e (d + 3) (childPrefix d p c) := by
    intro e d p hd hp
    simp only [f.nodeHash_eq]
    exact ((f.tree e).sum_nodeHash_childPrefix hd hp).symm
  refine ⟨fun e d p hd h₀ hne => ?_, fun e => ?_, hchildren, fun e => ?_⟩
  · rw [f.nodeHash_eq] at hne
    exact EpochTree.isPrefix_of_nodeHash_ne_zero hd h₀ hne
  · exact hchildren e 0 0 ⟨rfl, L.three_le⟩ isPrefix_zero
  · obtain ⟨T, hT, -⟩ := (f.tree e).exists_fold_leaves
    refine ⟨T, fun d p hd hp => ?_⟩
    rw [f.nodeHash_eq]
    exact hT d p hd hp

variable [Sha256]

/-- What a load of the bytes `b` for the epoch `e` makes of the forest `f`. -/
structure LoadOutcome (f : MerkleForest L) (e : Epoch) (b : Bytes) (r : Except String Unit)
    (g : MerkleForest L) : Prop where
  /-- A failure changes nothing. -/
  error : ∀ err, r = .error err → g = f
  /-- A success adds the tree of the epoch, with the count of the record, and no other. -/
  ok : r = .ok () → f.trees[e]? = none ∧
    (∃ t, g.trees[e]? = some t ∧ t.count = .ofNat 64 (ofBytes (slice b 2 8))) ∧
    ∀ e', e' ≠ e → g.trees[e']? = f.trees[e']?
  wellFormed : WellFormed g
  /-- A later insert or remove changes the hashes by its digest. -/
  insert : ∀ k v e' d p, L.Valid d → IsPrefix d p → (g.insert k v).nodeHash e' d p =
    g.nodeHash e' d p + if InCell e' d p k then itemDigest k v else 0
  remove : ∀ k v e' d p, k.epoch ∈ g.epochs → L.Valid d → IsPrefix d p →
    (g.remove k v).nodeHash e' d p =
      g.nodeHash e' d p + if InCell e' d p k then itemDigest k v else 0
  /-- A later diff with any forest lists the leaf cells that differ at every depth. -/
  diff : ∀ (La : LeafDepth) (a : MerkleForest La) (x : DivergentLeaf), x ∈ diffForests g a ↔
    ∃ e' q, IsPrefix (min L.bits La.bits) q ∧ g.nodeHash e' 0 0 ≠ a.nodeHash e' 0 0 ∧
      DifferBelow g a e' (min L.bits La.bits) 0 q ∧ x = .of e' (min L.bits La.bits) q

/-- **Loading is total and atomic and keeps the trees well formed**, on any bytes. -/
theorem checkedLoadSealedEpoch_total (f : MerkleForest L) (e : Epoch) (b : Bytes) :
    ∃ r g, f.checkedLoadSealedEpoch e b = some (r, g) ∧ LoadOutcome f e b r g := by
  refine ⟨_, _, f.checkedLoadSealedEpoch_eq e b, ?_, ?_, wellFormed _, ?_, ?_,
    fun La a x => mem_diffForests⟩
  · intro err h
    cases hload : f.loadSealedEpoch e b with
    | error err' => rfl
    | ok g =>
      rw [hload] at h
      cases h
  · intro h
    cases hload : f.loadSealedEpoch e b with
    | error err =>
      rw [hload] at h
      cases h
    | ok g =>
      obtain ⟨hnone, -, rfl⟩ := loadSealedEpoch_eq_ok.1 hload
      refine ⟨hnone, ⟨recordTree L b, ExtTreeMap.getElem?_insert_self, ?_⟩, fun e' he' => ?_⟩
      · rw [recordTree_eq, EpochTree.count_setCount]
      · simp only [ExtTreeMap.getElem?_insert, LawfulEqCmp.compare_eq_iff_eq]
        exact if_neg he'.symm
  · intro k v e' d p hd hp
    exact MerkleForest.nodeHash_insert _ k v e' hd hp
  · intro k v e' d p hk hd hp
    exact MerkleForest.nodeHash_remove (MerkleForest.mem_epochs.1 hk) v e' hd hp

end InterstellarDb
