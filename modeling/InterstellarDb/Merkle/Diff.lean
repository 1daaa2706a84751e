import Mathlib.Data.List.Destutter
import InterstellarDb.Merkle.Edits

/-!
# Comparing two forests

`diffForests` descends, epoch by epoch, into the cells where two forests have different hashes, down
to the shallower of their leaf depths.

* The listed cells are those that differ at every depth on the way down (`mem_diffForests`), each
  once, by ascending epoch and prefix (`pairwise_diffForests`). This holds of any two forests.
* Of forests that fold two sets of rows, when the digests of the rows on which the sets differ are
  independent, the listed cells are those that hold such a row (`diffForests_exact`).
-/

namespace InterstellarDb

open SetFold

/-- `DivergentLeaf`: a leaf cell where two forests disagree, with its key range. -/
structure DivergentLeaf where
  epoch : Epoch
  depthBits : ℕ
  nodePrefix : ℕ
  startKey : Key
  endKey : Key
  deriving DecidableEq

/-- The leaf cell, with its `leaf_key_range`. -/
def DivergentLeaf.of (epoch : Epoch) (depthBits p : ℕ) : DivergentLeaf :=
  let (startKey, endKey) := leafKeyRange epoch p depthBits
  ⟨epoch, depthBits, p, startKey, endKey⟩

variable {La Lb : LeafDepth}

/-- `descend`. The depths are multiples of 3 and start at 0, so the first one that is not below the
leaf depth is the leaf depth. -/
def descend (a : MerkleForest La) (b : MerkleForest Lb) (epoch : Epoch)
    (leafDepth depthBits p : ℕ) : List DivergentLeaf :=
  if leafDepth ≤ depthBits then [.of epoch depthBits p]
  else
    (List.range 8).flatMap fun c =>
      let childDepth := depthBits + 3
      let q := childPrefix depthBits p c
      if a.nodeHash epoch childDepth q ≠ b.nodeHash epoch childDepth q then
        descend a b epoch leafDepth childDepth q
      else []
termination_by leafDepth - depthBits

/-- The epochs of both forests, sorted and without repetitions. -/
def bothEpochs (a : MerkleForest La) (b : MerkleForest Lb) : List Epoch :=
  ((a.epochs ++ b.epochs).mergeSort fun x y => decide (x ≤ y)).destutter (· ≠ ·)

/-- `diff_forests`: every leaf cell where the forests disagree. -/
def diffForests (a : MerkleForest La) (b : MerkleForest Lb) : List DivergentLeaf :=
  let leafDepth := min a.leafDepthBits b.leafDepthBits
  (bothEpochs a b).flatMap fun epoch =>
    if a.nodeHash epoch 0 0 ≠ b.nodeHash epoch 0 0 then descend a b epoch leafDepth 0 0 else []

/-! ## Epochs -/

section Epochs

variable {a : MerkleForest La} {b : MerkleForest Lb}

theorem sorted_mergeSort (l : List Epoch) :
    (l.mergeSort fun x y => decide (x ≤ y)).Pairwise (· ≤ ·) := by
  have htrans : ∀ x y z : Epoch, decide (x ≤ y) = true → decide (y ≤ z) = true →
      decide (x ≤ z) = true := by
    intro x y z hxy hyz
    rw [decide_eq_true_eq] at *
    exact hxy.trans hyz
  have htotal : ∀ x y : Epoch, (decide (x ≤ y) || decide (y ≤ x)) = true := by
    intro x y
    rw [Bool.or_eq_true, decide_eq_true_eq, decide_eq_true_eq]
    exact le_total x y
  simpa using List.pairwise_mergeSort htrans htotal l

theorem bothEpochs_eq (a : MerkleForest La) (b : MerkleForest Lb) :
    bothEpochs a b = ((a.epochs ++ b.epochs).mergeSort fun x y => decide (x ≤ y)).dedup :=
  (sorted_mergeSort _).destutter_eq_dedup

theorem mem_bothEpochs {e : Epoch} : e ∈ bothEpochs a b ↔ e ∈ a.epochs ∨ e ∈ b.epochs := by
  rw [bothEpochs_eq, List.mem_dedup, List.mem_mergeSort, List.mem_append]

theorem ascending_bothEpochs (a : MerkleForest La) (b : MerkleForest Lb) :
    (bothEpochs a b).Pairwise (· < ·) := by
  have hle : (bothEpochs a b).Pairwise (· ≤ ·) :=
    (sorted_mergeSort _).sublist (List.destutter_sublist _ _)
  have hnd : (bothEpochs a b).Pairwise (· ≠ ·) := by
    rw [bothEpochs_eq]
    exact List.nodup_dedup _
  exact (hle.and hnd).imp fun h => lt_of_le_of_ne h.1 h.2

theorem bothEpochs_comm (a : MerkleForest La) (b : MerkleForest Lb) :
    bothEpochs a b = bothEpochs b a := by
  have hperm : (bothEpochs a b).Perm (bothEpochs b a) := by
    rw [List.perm_ext_iff_of_nodup ((ascending_bothEpochs a b).imp ne_of_lt)
      ((ascending_bothEpochs b a).imp ne_of_lt)]
    intro e
    rw [mem_bothEpochs, mem_bothEpochs, or_comm]
  refine hperm.eq_of_pairwise (fun x y _ _ h h' => ?_) (ascending_bothEpochs a b)
    (ascending_bothEpochs b a)
  exact absurd h' h.asymm

/-- An epoch where the forests differ is one of theirs. -/
theorem mem_bothEpochs_of_ne {e : Epoch} {d p : ℕ} (h : a.nodeHash e d p ≠ b.nodeHash e d p) :
    e ∈ bothEpochs a b := by
  rw [mem_bothEpochs, MerkleForest.mem_epochs, MerkleForest.mem_epochs]
  by_cases ha : a.nodeHash e d p = 0
  · rw [ha] at h
    exact .inr (MerkleForest.exists_tree_of_nodeHash_ne_zero h.symm)
  · exact .inl (MerkleForest.exists_tree_of_nodeHash_ne_zero ha)

end Epochs

/-! ## The descent -/

/-- Going through the members of a list that meet a condition only. -/
theorem flatMap_ite {α β : Type*} (p : α → Prop) [DecidablePred p] (l : List α) (f : α → List β) :
    (l.flatMap fun x => if p x then f x else []) = (l.filter fun x => p x).flatMap f := by
  induction l with
  | nil => rfl
  | cons x l ih =>
    rw [List.flatMap_cons, ih, List.filter_cons]
    by_cases hx : p x
    · simp [hx]
    · simp [hx]

/-- The children of a cell where the forests differ. -/
def differing (a : MerkleForest La) (b : MerkleForest Lb) (e : Epoch) (d p : ℕ) : List ℕ :=
  ((List.range 8).map (childPrefix d p)).filter fun q =>
    a.nodeHash e (d + 3) q ≠ b.nodeHash e (d + 3) q

section Descent

variable {a : MerkleForest La} {b : MerkleForest Lb} {e : Epoch} {D d p q : ℕ}

theorem descend_leaf : descend a b e D D p = [.of e D p] := by
  rw [descend, if_pos le_rfl]

theorem descend_inner (h : d < D) :
    descend a b e D d p = (differing a b e d p).flatMap (descend a b e D (d + 3)) := by
  rw [descend, if_neg (Nat.not_le.2 h), differing, ← flatMap_ite, List.flatMap_map]

theorem mem_differing : q ∈ differing a b e d p ↔
    (∃ c < 8, q = childPrefix d p c) ∧ a.nodeHash e (d + 3) q ≠ b.nodeHash e (d + 3) q := by
  simp only [differing, List.mem_filter, List.mem_map, List.mem_range, decide_eq_true_eq]
  refine and_congr_left' (exists_congr fun c => and_congr_right' ?_)
  exact eq_comm

theorem ascending_differing (hp : IsPrefix d p) (hd : d + 3 ≤ 64) :
    (differing a b e d p).Pairwise (· < ·) := by
  refine List.Pairwise.filter _ (List.pairwise_map.2 ?_)
  refine List.Pairwise.imp_of_mem (fun {c c'} _ hc' hlt => ?_) List.pairwise_lt_range
  exact childPrefix_lt_childPrefix hp hd hlt (List.mem_range.1 hc')

/-- The forests differ at every depth beyond `d`, up to `D`, on the way down to a leaf cell. -/
def DifferBelow (a : MerkleForest La) (b : MerkleForest Lb) (e : Epoch) (D d q : ℕ) : Prop :=
  ∀ d', d < d' → d' ≤ D → d' % 3 = 0 →
    a.nodeHash e d' (prefixAt q d') ≠ b.nodeHash e d' (prefixAt q d')

/-- A way down begins with a step to a child. -/
theorem differBelow_iff (hd : d < D) (hmod : d % 3 = 0) (hD : D % 3 = 0) :
    DifferBelow a b e D d q ↔
      a.nodeHash e (d + 3) (prefixAt q (d + 3)) ≠ b.nodeHash e (d + 3) (prefixAt q (d + 3)) ∧
        DifferBelow a b e D (d + 3) q := by
  constructor
  · intro h
    exact ⟨h (d + 3) (by omega) (by omega) (by omega),
      fun d' h₁ h₂ h₃ => h d' (by omega) h₂ h₃⟩
  · rintro ⟨hchild, h⟩ d' h₁ h₂ h₃
    by_cases heq : d' = d + 3
    · rw [heq]
      exact hchild
    · exact h d' (by omega) h₂ h₃

/-- **The leaves of a descent** are the leaf cells below its cell that differ all the way down. -/
theorem mem_descend (hD : D % 3 = 0) (hle : D ≤ 63) (hd : d ≤ D) (hmod : d % 3 = 0)
    (hp : IsPrefix d p) {x : DivergentLeaf} :
    x ∈ descend a b e D d p ↔
      ∃ q, IsPrefix D q ∧ prefixAt q d = p ∧ DifferBelow a b e D d q ∧ x = .of e D q := by
  obtain ⟨n, hn⟩ : ∃ n, D = d + 3 * n := ⟨(D - d) / 3, by omega⟩
  induction n generalizing d p with
  | zero =>
    obtain rfl : D = d := by omega
    rw [descend_leaf, List.mem_singleton]
    constructor
    · rintro rfl
      exact ⟨p, hp, hp.fixed, fun d' h₁ h₂ => absurd h₁ (Nat.not_lt.2 h₂), rfl⟩
    · rintro ⟨q, hq, rfl, -, rfl⟩
      rw [hq.fixed]
  | succ n ih =>
    have hlt : d < D := by omega
    rw [descend_inner hlt, List.mem_flatMap]
    constructor
    · rintro ⟨_, hmem, hx⟩
      obtain ⟨⟨c, hc, rfl⟩, hne⟩ := mem_differing.1 hmem
      have hchild := hp.childPrefix (by omega) hc
      obtain ⟨q, hq, hqc, hbelow, rfl⟩ := (ih (by omega) (by omega) hchild (by omega)).1 hx
      refine ⟨q, hq, ?_, (differBelow_iff hlt hmod hD).2 ⟨?_, hbelow⟩, rfl⟩
      · rw [← prefixAt_childPrefix hp (by omega) hc, ← hqc, prefixAt_prefixAt q (by omega)]
      · rwa [hqc]
    · rintro ⟨q, hq, rfl, hbelow, rfl⟩
      obtain ⟨hne, hrest⟩ := (differBelow_iff hlt hmod hD).1 hbelow
      obtain ⟨c, hc, heq⟩ := exists_childPrefix hq.lt (show d + 3 ≤ 64 by omega)
      refine ⟨prefixAt q (d + 3), mem_differing.2 ⟨⟨c, hc, heq⟩, hne⟩, ?_⟩
      exact (ih (by omega) (by omega) (isPrefix_prefixAt hq.lt _) (by omega)).2
        ⟨q, hq, rfl, hrest, rfl⟩

theorem prefixAt_mono {m m' : ℕ} (h : m ≤ m') (d : ℕ) : prefixAt m d ≤ prefixAt m' d := by
  rw [prefixAt_eq, prefixAt_eq]
  exact Nat.mul_le_mul_right _ (Nat.div_le_div_right h)

/-- A descent lists its leaves by ascending prefix. -/
theorem ascending_descend (hD : D % 3 = 0) (hle : D ≤ 63) (hd : d ≤ D) (hmod : d % 3 = 0)
    (hp : IsPrefix d p) :
    (descend a b e D d p).Pairwise fun x y => x.nodePrefix < y.nodePrefix := by
  obtain ⟨n, hn⟩ : ∃ n, D = d + 3 * n := ⟨(D - d) / 3, by omega⟩
  induction n generalizing d p with
  | zero =>
    obtain rfl : D = d := by omega
    rw [descend_leaf]
    exact List.pairwise_singleton _ _
  | succ n ih =>
    have hcell : ∀ q ∈ differing a b e d p, IsPrefix (d + 3) q := by
      intro q hq
      obtain ⟨⟨c, hc, rfl⟩, -⟩ := mem_differing.1 hq
      exact hp.childPrefix (by omega) hc
    rw [descend_inner (by omega), List.pairwise_flatMap]
    constructor
    · intro q hq
      exact ih (by omega) (by omega) (hcell q hq) (by omega)
    · refine List.Pairwise.imp_of_mem (fun {q q'} hq hq' hlt => ?_)
        (ascending_differing hp (by omega))
      intro x hx y hy
      obtain ⟨m, -, rfl, -, rfl⟩ :=
        (mem_descend hD hle (by omega) (by omega) (hcell q hq)).1 hx
      obtain ⟨m', -, rfl, -, rfl⟩ :=
        (mem_descend hD hle (by omega) (by omega) (hcell q' hq')).1 hy
      -- the leaf of the earlier child comes first
      by_contra hge
      exact absurd (prefixAt_mono (Nat.not_lt.1 hge) (d + 3)) (Nat.not_le.2 hlt)

end Descent

/-! ## All divergent leaves -/

section Diff

variable {a : MerkleForest La} {b : MerkleForest Lb}

theorem min_bits_mod (La Lb : LeafDepth) : min La.bits Lb.bits % 3 = 0 := by
  have h₁ := La.mod_three
  have h₂ := Lb.mod_three
  rcases min_choice La.bits Lb.bits with h | h
  · rw [h]
    exact h₁
  · rw [h]
    exact h₂

theorem min_bits_le (La Lb : LeafDepth) : min La.bits Lb.bits ≤ 63 :=
  (min_le_left _ _).trans La.le_63

/-- **The listed cells** are the leaf cells of the shallower depth whose hashes differ at every
depth on the way down, the root included. -/
theorem mem_diffForests {x : DivergentLeaf} :
    x ∈ diffForests a b ↔ ∃ e q, IsPrefix (min La.bits Lb.bits) q ∧
      a.nodeHash e 0 0 ≠ b.nodeHash e 0 0 ∧ DifferBelow a b e (min La.bits Lb.bits) 0 q ∧
        x = .of e (min La.bits Lb.bits) q := by
  have hmem : ∀ e, x ∈ descend a b e (min La.bits Lb.bits) 0 0 ↔ ∃ q,
      IsPrefix (min La.bits Lb.bits) q ∧ prefixAt q 0 = 0 ∧
        DifferBelow a b e (min La.bits Lb.bits) 0 q ∧ x = .of e (min La.bits Lb.bits) q := fun e =>
    mem_descend (min_bits_mod La Lb) (min_bits_le La Lb) (Nat.zero_le _) rfl isPrefix_zero
  simp only [diffForests, MerkleForest.leafDepthBits, List.mem_flatMap]
  constructor
  · rintro ⟨e, -, hx⟩
    split_ifs at hx with hne
    · obtain ⟨q, hq, -, hbelow, rfl⟩ := (hmem e).1 hx
      exact ⟨e, q, hq, hne, hbelow, rfl⟩
    · cases hx
  · rintro ⟨e, q, hq, hne, hbelow, rfl⟩
    refine ⟨e, mem_bothEpochs_of_ne hne, ?_⟩
    rw [if_pos hne]
    exact (hmem e).2 ⟨q, hq, prefixAt_zero hq.lt, hbelow, rfl⟩

/-- **The cells are listed once**, by ascending epoch and prefix. -/
theorem pairwise_diffForests (a : MerkleForest La) (b : MerkleForest Lb) :
    (diffForests a b).Pairwise fun x y =>
      x.epoch < y.epoch ∨ x.epoch = y.epoch ∧ x.nodePrefix < y.nodePrefix := by
  have hepoch : ∀ e, ∀ x ∈ (if a.nodeHash e 0 0 ≠ b.nodeHash e 0 0 then
      descend a b e (min La.bits Lb.bits) 0 0 else []), x.epoch = e := by
    intro e x hx
    split_ifs at hx with hne
    · obtain ⟨q, -, -, -, rfl⟩ := (mem_descend (min_bits_mod La Lb) (min_bits_le La Lb)
        (Nat.zero_le _) rfl isPrefix_zero).1 hx
      rfl
    · cases hx
  simp only [diffForests, MerkleForest.leafDepthBits, List.pairwise_flatMap]
  constructor
  · intro e _
    refine List.Pairwise.imp_of_mem (R := fun x y : DivergentLeaf => x.nodePrefix < y.nodePrefix)
      (fun {x y} hx hy h => .inr ⟨(hepoch e x hx).trans (hepoch e y hy).symm, h⟩) ?_
    split_ifs
    · exact ascending_descend (min_bits_mod La Lb) (min_bits_le La Lb) (Nat.zero_le _) rfl
        isPrefix_zero
    · exact List.Pairwise.nil
  · refine (ascending_bothEpochs a b).imp fun {e e'} hlt x hx y hy => .inl ?_
    rw [hepoch e x hx, hepoch e' y hy]
    exact hlt

theorem descend_comm (a : MerkleForest La) (b : MerkleForest Lb) (e : Epoch) (D d p : ℕ) :
    descend a b e D d p = descend b a e D d p := by
  induction hn : D - d using Nat.strong_induction_on generalizing d p with
  | _ n ih =>
    subst hn
    by_cases h : D ≤ d
    · rw [descend, descend, if_pos h, if_pos h]
    · have hdiff : differing a b e d p = differing b a e d p := by
        simp only [differing, ne_comm]
      rw [descend_inner (by omega), descend_inner (by omega), hdiff]
      exact congrArg₂ _ (funext fun q => ih _ (by omega) _ _ rfl) rfl

/-- The order of the forests does not matter. -/
theorem diffForests_comm (a : MerkleForest La) (b : MerkleForest Lb) :
    diffForests a b = diffForests b a := by
  simp only [diffForests, MerkleForest.leafDepthBits, bothEpochs_comm a b, min_comm La.bits,
    ne_comm, descend_comm a b]

end Diff

/-! ## Forests of rows -/

section Rows

variable [Sha256] {a : MerkleForest La} {b : MerkleForest Lb} {A B : Finset Row}

/-- The hashes of two sets of rows differ by the fold of the rows of one of them. -/
theorem cellHash_symmDiff (A B : Finset Row) (e : Epoch) (d p : ℕ) :
    cellHash (symmDiff A B) e d p = cellHash A e d p + cellHash B e d p := by
  rw [cellHash_eq_sum, cellHash_eq_sum, cellHash_eq_sum, sum_symmDiff]

/-- The hashes of a cell differ when the cell holds a row of one of the sets only. -/
theorem nodeHash_ne_iff (hU : Independent rowDigest ((symmDiff A B : Finset Row) : Set Row))
    (ha : Hashes a A) (hb : Hashes b B) {e : Epoch} {d p : ℕ} (hda : La.Valid d) (hdb : Lb.Valid d)
    (hp : IsPrefix d p) :
    a.nodeHash e d p ≠ b.nodeHash e d p ↔ ∃ r ∈ symmDiff A B, InCell e d p r.1 := by
  rw [ha e d p hda hp, hb e d p hdb hp, Ne, ← SetFold.add_eq_zero, ← cellHash_symmDiff, cellHash,
    hU.sum_eq_zero_iff (Finset.coe_subset.2 (Finset.filter_subset _ _)), Finset.filter_eq_empty_iff]
  push Not
  rfl

/-- The listed cells are those of the rows of the symmetric difference. -/
theorem mem_diffForests_iff_row (ha : Hashes a A) (hb : Hashes b B)
    (hU : Independent rowDigest ((symmDiff A B : Finset Row) : Set Row)) {x : DivergentLeaf} :
    x ∈ diffForests a b ↔ ∃ r ∈ symmDiff A B,
      x = .of r.1.epoch (min La.bits Lb.bits) (prefixAt r.1.morton (min La.bits Lb.bits)) := by
  have hvalid : ∀ d, d ≤ min La.bits Lb.bits → d % 3 = 0 → La.Valid d ∧ Lb.Valid d :=
    fun d hle hmod => ⟨⟨hmod, hle.trans (min_le_left _ _)⟩, ⟨hmod, hle.trans (min_le_right _ _)⟩⟩
  have hpos : 0 < min La.bits Lb.bits := by
    have h₁ := La.three_le
    have h₂ := Lb.three_le
    omega
  rw [mem_diffForests]
  constructor
  · rintro ⟨e, q, hq, -, hbelow, rfl⟩
    have hne := hbelow _ hpos le_rfl (min_bits_mod La Lb)
    obtain ⟨hva, hvb⟩ := hvalid _ le_rfl (min_bits_mod La Lb)
    rw [hq.fixed] at hne
    obtain ⟨r, hr, rfl, rfl⟩ := (nodeHash_ne_iff hU ha hb hva hvb hq).1 hne
    exact ⟨r, hr, rfl⟩
  · rintro ⟨r, hr, rfl⟩
    refine ⟨_, _, isPrefix_prefixAt r.1.morton_lt _, ?_, fun d' _ hle hmod => ?_, rfl⟩
    · obtain ⟨hva, hvb⟩ := hvalid 0 (Nat.zero_le _) rfl
      exact (nodeHash_ne_iff hU ha hb hva hvb isPrefix_zero).2 ⟨r, hr, inCell_zero.2 rfl⟩
    · obtain ⟨hva, hvb⟩ := hvalid d' hle hmod
      rw [prefixAt_prefixAt _ hle]
      exact (nodeHash_ne_iff hU ha hb hva hvb (isPrefix_prefixAt r.1.morton_lt _)).2
        ⟨r, hr, inCell_self _ _⟩

omit [Sha256] in
/-- The range of a leaf cell covers the keys of the cell. -/
theorem DivergentLeaf.covers_iff {e : Epoch} {d p : ℕ} (hp : IsPrefix d p) (k : Key) :
    (DivergentLeaf.of e d p).startKey.toNat ≤ k.toNat ∧
      k.toNat ≤ (DivergentLeaf.of e d p).endKey.toNat ↔ InCell e d p k :=
  mem_leafKeyRange hp k

/-- **`diff_forests` finds exactly the differences.** Of forests that fold two sets of rows, when no
non-empty set of rows of their symmetric difference folds to `0`, it lists the cells at the
shallower leaf depth that hold a row of the symmetric difference, each once and in ascending order;
the key of each such row lies in one listed range; the order of the forests does not matter; and the
list is empty when the sets are equal, only then. -/
theorem diffForests_exact (ha : Hashes a A) (hb : Hashes b B)
    (hU : Independent rowDigest ((symmDiff A B : Finset Row) : Set Row)) :
    (∀ x, x ∈ diffForests a b ↔ ∃ r ∈ symmDiff A B,
      x = .of r.1.epoch (min La.bits Lb.bits) (prefixAt r.1.morton (min La.bits Lb.bits))) ∧
    (diffForests a b).Pairwise (fun x y =>
      x.epoch < y.epoch ∨ x.epoch = y.epoch ∧ x.nodePrefix < y.nodePrefix) ∧
    (∀ r ∈ symmDiff A B, ∃! x, x ∈ diffForests a b ∧
      x.startKey.toNat ≤ r.1.toNat ∧ r.1.toNat ≤ x.endKey.toNat) ∧
    diffForests a b = diffForests b a ∧
    (diffForests a b = [] ↔ A = B) := by
  have hmem : ∀ x, x ∈ diffForests a b ↔ _ := fun x => mem_diffForests_iff_row ha hb hU
  refine ⟨hmem, pairwise_diffForests a b, fun r hr => ?_, diffForests_comm a b, ?_⟩
  · refine ⟨_, ⟨(hmem _).2 ⟨r, hr, rfl⟩, ?_⟩, ?_⟩
    · exact (DivergentLeaf.covers_iff (isPrefix_prefixAt r.1.morton_lt _) r.1).2 (inCell_self _ _)
    · rintro x ⟨hx, hcovers⟩
      obtain ⟨s, hs, rfl⟩ := (hmem x).1 hx
      have hcell := isPrefix_prefixAt s.1.morton_lt (min La.bits Lb.bits)
      obtain ⟨he, hp⟩ := (DivergentLeaf.covers_iff hcell r.1).1 hcovers
      rw [he, hp]
  · rw [List.eq_nil_iff_forall_not_mem, ← symmDiff_eq_bot, Finset.bot_eq_empty,
      Finset.eq_empty_iff_forall_notMem]
    constructor
    · intro h r hr
      exact h _ ((hmem _).2 ⟨r, hr, rfl⟩)
    · intro h x hx
      obtain ⟨r, hr, -⟩ := (hmem x).1 hx
      exact h r hr

end Rows

section Sample

local instance diffSha : Sha256 := sampleDigests

/-- Two payloads for one key, on different sides, and a row on one side only. -/
def leftRows : List Row := [(.ofFields 0 0 0, [0x61]), (.ofFields 0 0 1, [0x62])]

/-- The rows of the other side. -/
def rightRows : List Row := [(.ofFields 0 0 0, [0x62])]

theorem diffForests_sample :
    .of 0 3 0 ∈ diffForests ((MerkleForest.new ⟨3, by decide, by decide, by decide⟩).insertAll
      leftRows) ((MerkleForest.new twoLevels).insertAll rightRows) := by
  have hleft : leftRows.Nodup := by decide +kernel
  have hright : rightRows.Nodup := by decide +kernel
  refine ((diffForests_exact (foldOf_insertAll hleft).hashes (foldOf_insertAll hright).hashes
    (independent_coe (by decide +kernel))).1 _).2 ⟨(.ofFields 0 0 0, [0x61]), ?_, ?_⟩
  · decide +kernel
  · decide +kernel

end Sample

end InterstellarDb
