import Std.Data.ExtTreeMap
import Mathlib.Algebra.BigOperators.Group.List.Basic
import InterstellarDb.Merkle.Digest

/-!
# The Merkle octree of one epoch

`levels[i]` holds the accumulators of the cells at depth `3 (i + 1)`, the root is kept apart.
Toggling a digest at a Morton code XORs it into every cell on the path from the root to the leaf.
A tree is a fold of the toggles that built it, at every level of the same ones; it carries that
fact (`EpochTree.folds`), so the levels of a tree always agree.
-/

namespace InterstellarDb

open Std

/-- A leaf depth that `MerkleForest::new` accepts: a multiple of 3 in `[3, 63]`. -/
structure LeafDepth where
  bits : ℕ
  three_le : 3 ≤ bits
  le_63 : bits ≤ 63
  mod_three : bits % 3 = 0

/-- A leaf depth with two levels, for concrete runs. -/
def twoLevels : LeafDepth := ⟨6, by decide, by decide, by decide⟩

/-- The number of levels below the root. -/
def LeafDepth.levels (L : LeafDepth) : ℕ := L.bits / 3

theorem LeafDepth.three_mul_levels (L : LeafDepth) : 3 * L.levels = L.bits := by
  have := L.mod_three
  unfold LeafDepth.levels
  omega

/-- The depths that `node_hash` accepts: multiples of 3 up to the leaf depth. -/
def LeafDepth.Valid (L : LeafDepth) (d : ℕ) : Prop := d % 3 = 0 ∧ d ≤ L.bits

instance (L : LeafDepth) (d : ℕ) : Decidable (L.Valid d) := inferInstanceAs (Decidable (_ ∧ _))

theorem LeafDepth.valid_zero (L : LeafDepth) : L.Valid 0 := ⟨rfl, Nat.zero_le _⟩

theorem LeafDepth.valid_bits (L : LeafDepth) : L.Valid L.bits := ⟨L.mod_three, le_rfl⟩

/-- The depth of the children of an inner cell is a valid one. -/
theorem LeafDepth.Valid.succ {L : LeafDepth} {d : ℕ} (hd : L.Valid d) (h : d < L.bits) :
    L.Valid (d + 3) := by
  obtain ⟨hmod, -⟩ := hd
  have := L.mod_three
  exact ⟨by omega, by omega⟩

/-! ## Levels -/

/-- The accumulators of one level, `HashMap<u64, NodeHash>`. -/
abbrev Level := ExtTreeMap ℕ NodeHash

/-- `*level.entry(p).or_insert(0) ^= digest`. -/
def Level.xorAt (l : Level) (p : ℕ) (digest : NodeHash) : Level :=
  l.insert p (l.getD p 0 + digest)

theorem Level.getD_xorAt (l : Level) (p q : ℕ) (digest : NodeHash) :
    (l.xorAt p digest).getD q 0 = l.getD q 0 + if p = q then digest else 0 := by
  rw [Level.xorAt, ExtTreeMap.getD_insert]
  by_cases h : p = q
  · simp [h]
  · simp [h]

/-! ## Folds of toggles -/

/-- A toggle: a Morton code and the digest XORed in there. -/
abbrev Toggle := Fin (2 ^ 64) × NodeHash

/-- What the toggles fold to in the cell `(d, p)`. -/
def foldAt (T : List Toggle) (d p : ℕ) : NodeHash :=
  (T.map fun t => if prefixAt t.1 d = p then t.2 else 0).sum

@[simp] theorem foldAt_nil (d p : ℕ) : foldAt [] d p = 0 := rfl

theorem foldAt_cons (t : Toggle) (T : List Toggle) (d p : ℕ) :
    foldAt (t :: T) d p = (if prefixAt t.1 d = p then t.2 else 0) + foldAt T d p := by
  simp [foldAt]

/-- **A cell folds the leaves below it.** -/
theorem sum_foldAt (T : List Toggle) {d d' : ℕ} (h : d ≤ d') (p : ℕ) {K : Finset ℕ}
    (hK : ∀ t ∈ T, prefixAt t.1 d' ∈ K) :
    ∑ q ∈ K with prefixAt q d = p, foldAt T d' q = foldAt T d p := by
  induction T with
  | nil => simp
  | cons t T ih =>
    have hT := ih fun s hs => hK s (List.mem_cons_of_mem _ hs)
    simp only [foldAt_cons, Finset.sum_add_distrib, hT]
    congr 1
    rw [Finset.sum_filter]
    have : ∀ q ∈ K, (if prefixAt q d = p then if prefixAt t.1 d' = q then t.2 else 0 else 0) =
        if prefixAt t.1 d' = q then if prefixAt t.1 d = p then t.2 else 0 else 0 := by
      intro q _
      by_cases hq : prefixAt t.1 d' = q
      · subst hq
        simp [prefixAt_prefixAt _ h]
      · simp [hq]
    rw [Finset.sum_congr rfl this, Finset.sum_ite_eq, if_pos (hK t (by simp))]

/-- **The children partition a cell**: a code of the cell lies in one child, another in none. -/
theorem sum_childPrefix {d p : ℕ} (h : IsPrefix d p) (hd : d + 3 ≤ 64) (m : Fin (2 ^ 64))
    (x : NodeHash) :
    (∑ c ∈ Finset.range 8, if prefixAt m (d + 3) = childPrefix d p c then x else 0) =
      if prefixAt m d = p then x else 0 := by
  by_cases hm : prefixAt m d = p
  · obtain ⟨c₀, hc₀, heq⟩ := exists_childPrefix m.isLt hd
    rw [hm] at heq
    rw [if_pos hm, Finset.sum_eq_single_of_mem c₀ (Finset.mem_range.2 hc₀), if_pos heq]
    intro c hc hne
    apply if_neg
    intro h'
    exact hne (childPrefix_inj h hd (Finset.mem_range.1 hc) hc₀ (h'.symm.trans heq))
  · rw [if_neg hm]
    apply Finset.sum_eq_zero
    intro c hc
    apply if_neg
    intro h'
    apply hm
    rw [← prefixAt_childPrefix h hd (Finset.mem_range.1 hc), ← h', prefixAt_prefixAt m (by omega)]

/-- A cell folds its children. -/
theorem sum_foldAt_childPrefix {d p : ℕ} (h : IsPrefix d p) (hd : d + 3 ≤ 64) (T : List Toggle) :
    ∑ c ∈ Finset.range 8, foldAt T (d + 3) (childPrefix d p c) = foldAt T d p := by
  induction T with
  | nil => simp
  | cons t T ih =>
    simp only [foldAt_cons, Finset.sum_add_distrib, ih]
    rw [sum_childPrefix h hd]

/-! ## Trees -/

/-- `EpochTree`: the Merkle octree of one epoch. -/
structure EpochTree (L : LeafDepth) where
  root : NodeHash
  count : BitVec 64
  levels : Vector Level L.levels
  folds : ∃ T : List Toggle, root = foldAt T 0 0 ∧
    ∀ (i : ℕ) (hi : i < L.levels) (p : ℕ), levels[i].getD p 0 = foldAt T ((i + 1) * 3) p

namespace EpochTree

variable {L : LeafDepth}

/-- `EpochTree::new`. -/
def new (L : LeafDepth) : EpochTree L where
  root := 0
  count := 0
  levels := Vector.replicate L.levels ∅
  folds := ⟨[], rfl, by simp⟩

/-- `EpochTree::toggle`: XOR the digest into every cell on the path from the root to the leaf. -/
def toggle (t : EpochTree L) (morton : Fin (2 ^ 64)) (digest : NodeHash) : EpochTree L where
  root := t.root + digest
  count := t.count
  levels := t.levels.mapIdx fun i level =>
    let depthBits := (i + 1) * 3
    level.xorAt (prefixAt morton depthBits) digest
  folds := by
    obtain ⟨T, hr, hl⟩ := t.folds
    refine ⟨(morton, digest) :: T, ?_, fun i hi p => ?_⟩
    · rw [foldAt_cons, hr, if_pos (prefixAt_zero morton.isLt), add_comm]
    · rw [Vector.getElem_mapIdx, Level.getD_xorAt, hl, foldAt_cons, add_comm]

/-- Set the item count. -/
def setCount (t : EpochTree L) (count : BitVec 64) : EpochTree L := { t with count }

/-- `EpochTree::node_hash`; the index is in bounds at a valid depth. -/
def nodeHash (t : EpochTree L) (depthBits p : ℕ) : NodeHash :=
  if depthBits = 0 then t.root
  else if h : depthBits / 3 - 1 < L.levels then t.levels[depthBits / 3 - 1].getD p 0
  else 0

@[simp] theorem nodeHash_zero (t : EpochTree L) (p : ℕ) : t.nodeHash 0 p = t.root := by
  simp [nodeHash]

theorem nodeHash_succ (t : EpochTree L) {i : ℕ} (hi : i < L.levels) (p : ℕ) :
    t.nodeHash ((i + 1) * 3) p = t.levels[i].getD p 0 := by
  have h : (i + 1) * 3 / 3 - 1 = i := by omega
  simp only [nodeHash, h]
  rw [if_neg (by omega), dif_pos hi]

/-- A valid depth is the root's or that of a level. -/
theorem valid_cases {d : ℕ} (hd : L.Valid d) : d = 0 ∨ ∃ i < L.levels, d = (i + 1) * 3 := by
  obtain ⟨hm, hle⟩ := hd
  have := L.three_mul_levels
  by_cases h : d = 0
  · exact .inl h
  · exact .inr ⟨d / 3 - 1, by omega, by omega⟩

@[simp] theorem count_new : (new L).count = 0 := rfl

@[simp] theorem nodeHash_new (d p : ℕ) : (new L).nodeHash d p = 0 := by
  simp [nodeHash, new]

@[simp] theorem count_toggle (t : EpochTree L) (m : Fin (2 ^ 64)) (h : NodeHash) :
    (t.toggle m h).count = t.count := rfl

@[simp] theorem count_setCount (t : EpochTree L) (n : BitVec 64) : (t.setCount n).count = n := rfl

@[simp] theorem nodeHash_setCount (t : EpochTree L) (n : BitVec 64) (d p : ℕ) :
    (t.setCount n).nodeHash d p = t.nodeHash d p := rfl

/-- A toggle changes the cells of its code. -/
theorem nodeHash_toggle (t : EpochTree L) (m : Fin (2 ^ 64)) (h : NodeHash) {d p : ℕ}
    (hd : L.Valid d) (hp : IsPrefix d p) :
    (t.toggle m h).nodeHash d p = t.nodeHash d p + if prefixAt m d = p then h else 0 := by
  rcases valid_cases hd with rfl | ⟨i, hi, rfl⟩
  · rw [nodeHash_zero, nodeHash_zero, hp.eq_zero, if_pos (prefixAt_zero m.isLt)]
    rfl
  · rw [nodeHash_succ _ hi, nodeHash_succ _ hi]
    simp only [toggle, Vector.getElem_mapIdx, Level.getD_xorAt]

/-- All levels of a tree fold the same toggles. -/
theorem exists_fold (t : EpochTree L) : ∃ T : List Toggle, t.root = foldAt T 0 0 ∧
    ∀ d p, L.Valid d → d ≠ 0 → t.nodeHash d p = foldAt T d p := by
  obtain ⟨T, hr, hl⟩ := t.folds
  refine ⟨T, hr, fun d p hd h₀ => ?_⟩
  rcases valid_cases hd with rfl | ⟨i, hi, rfl⟩
  · exact absurd rfl h₀
  · rw [nodeHash_succ t hi, hl]

/-- The hash of an inner cell is the fold of those of its children. -/
theorem sum_nodeHash_childPrefix (t : EpochTree L) {d p : ℕ} (hd : L.Valid (d + 3))
    (hp : IsPrefix d p) :
    ∑ c ∈ Finset.range 8, t.nodeHash (d + 3) (childPrefix d p c) = t.nodeHash d p := by
  obtain ⟨T, hr, hl⟩ := t.exists_fold
  have hle := hd.2.trans L.le_63
  have hmod := hd.1
  have hfold : t.nodeHash d p = foldAt T d p := by
    by_cases h₀ : d = 0
    · subst h₀
      rw [nodeHash_zero, hr, hp.eq_zero]
    · exact hl d p ⟨by omega, by have := hd.2; omega⟩ h₀
  rw [hfold, ← sum_foldAt_childPrefix hp (by omega) T]
  exact Finset.sum_congr rfl fun c _ => hl _ _ hd (by omega)

end EpochTree

end InterstellarDb
