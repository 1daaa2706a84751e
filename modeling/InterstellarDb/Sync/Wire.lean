import InterstellarDb.Foundations.Atomic.Trace
import InterstellarDb.Merkle.Diff
import InterstellarDb.Sync.Peers

/-!
# The pull and the diff

A pull round goes through its work list breadth first, over the answers of the peer; `diff_forests`
descends depth first, over two forests. They visit the same cells in the same order.

* The leaves of a descent that the peer offers are those of a descent into the offered cells only
  (`filter_descend`).
* Level by level, such a descent gives the same list (`map_expand`).
* All comparisons of a round come before the first row that it ingests, so the round fetches the
  offered leaves of the two forests as they were at its start (`fetches_syncOnce`).
-/

namespace InterstellarDb

open Atomic

variable {La Lb : LeafDepth}

/-! ## Offered leaves -/

/-- The forest has a non-zero hash at the leaf cell, and at every cell above it. -/
def Offered (b : MerkleForest Lb) (x : DivergentLeaf) : Prop :=
  ∀ d ≤ x.depthBits, d % 3 = 0 → b.nodeHash x.epoch d (prefixAt x.nodePrefix d) ≠ 0

instance (b : MerkleForest Lb) : DecidablePred (Offered b) :=
  fun _ => inferInstanceAs (Decidable (∀ _ ≤ _, _ → _))

/-- The leaves where the forests disagree and which `b` offers, with their key ranges. -/
def offeredLeaves (a : MerkleForest La) (b : MerkleForest Lb) : List DivergentLeaf :=
  (diffForests a b).filter fun x => Offered b x

/-- The forest has a non-zero hash at every cell beyond the depth `d`, on the way down to the leaf
cell. -/
def OfferedBelow (b : MerkleForest Lb) (d : ℕ) (x : DivergentLeaf) : Prop :=
  ∀ d', d < d' → d' ≤ x.depthBits → d' % 3 = 0 →
    b.nodeHash x.epoch d' (prefixAt x.nodePrefix d') ≠ 0

instance (b : MerkleForest Lb) (d : ℕ) : DecidablePred (OfferedBelow b d) := fun x =>
  decidable_of_iff (∀ d' ≤ x.depthBits, d < d' → d' % 3 = 0 →
    b.nodeHash x.epoch d' (prefixAt x.nodePrefix d') ≠ 0)
    ⟨fun h d' h₁ h₂ => h d' h₂ h₁, fun h d' h₁ h₂ => h d' h₂ h₁⟩

/-- The children of a cell where the forests differ and which `b` offers. -/
def offeredChildren (a : MerkleForest La) (b : MerkleForest Lb) (e : Epoch) (d p : ℕ) : List ℕ :=
  (differing a b e d p).filter fun q => b.nodeHash e (d + 3) q ≠ 0

/-- The leaves below a cell that is `n` levels above them, going down to offered children only. -/
def offeredDescend (a : MerkleForest La) (b : MerkleForest Lb) (e : Epoch) (D : ℕ) :
    ℕ → ℕ → List DivergentLeaf
  | 0, p => [.of e D p]
  | n + 1, p => (offeredChildren a b e (D - 3 * (n + 1)) p).flatMap (offeredDescend a b e D n)

section Offered

variable {a : MerkleForest La} {b : MerkleForest Lb} {e : Epoch} {D d p : ℕ}

theorem offered_iff {x : DivergentLeaf} :
    Offered b x ↔ b.nodeHash x.epoch 0 (prefixAt x.nodePrefix 0) ≠ 0 ∧ OfferedBelow b 0 x := by
  constructor
  · intro h
    exact ⟨h 0 (Nat.zero_le _) rfl, fun d' _ hle hmod => h d' hle hmod⟩
  · rintro ⟨hroot, h⟩ d' hle hmod
    rcases Nat.eq_zero_or_pos d' with rfl | hpos
    · exact hroot
    · exact h d' hpos hle hmod

/-- A way down begins with a step to a child. -/
theorem offeredBelow_iff {x : DivergentLeaf} (hd : d + 3 ≤ x.depthBits) (hmod : d % 3 = 0) :
    OfferedBelow b d x ↔
      b.nodeHash x.epoch (d + 3) (prefixAt x.nodePrefix (d + 3)) ≠ 0 ∧
        OfferedBelow b (d + 3) x := by
  constructor
  · intro h
    exact ⟨h (d + 3) (by omega) hd (by omega), fun d' h₁ h₂ h₃ => h d' (by omega) h₂ h₃⟩
  · rintro ⟨hchild, h⟩ d' h₁ h₂ h₃
    by_cases heq : d' = d + 3
    · rw [heq]
      exact hchild
    · exact h d' (by omega) h₂ h₃

/-- A condition that all members of a list share. -/
theorem filter_of_iff_and {α : Type*} {l : List α} {c : Prop} [Decidable c] {P Q : α → Prop}
    [DecidablePred P] [DecidablePred Q] (h : ∀ x ∈ l, P x ↔ c ∧ Q x) :
    l.filter (fun x => P x) = if c then l.filter (fun x => Q x) else [] := by
  split_ifs with hc
  · exact List.filter_congr fun x hx => decide_eq_decide.2 (by rw [h x hx, and_iff_right hc])
  · exact List.filter_eq_nil_iff.2 fun x hx => by simp [h x hx, hc]

/-- **The offered leaves of a descent** are the leaves of a descent into offered cells. -/
theorem filter_descend {n : ℕ} (hn : D = d + 3 * n) (hD : D % 3 = 0) (hle : D ≤ 63)
    (hp : IsPrefix d p) :
    (descend a b e D d p).filter (fun x => OfferedBelow b d x) = offeredDescend a b e D n p := by
  induction n generalizing d p with
  | zero =>
    obtain rfl : D = d := by omega
    rw [descend_leaf, offeredDescend, List.filter_singleton]
    have hoff : OfferedBelow b D (.of e D p) := fun d' h₁ h₂ => absurd h₁ (Nat.not_lt.2 h₂)
    simp [hoff]
  | succ n ih =>
    have hdepth : D - 3 * (n + 1) = d := by omega
    have hchild : ∀ q ∈ differing a b e d p,
        (descend a b e D (d + 3) q).filter (fun x => OfferedBelow b d x) =
          if b.nodeHash e (d + 3) q ≠ 0 then offeredDescend a b e D n q else [] := by
      intro q hq
      obtain ⟨⟨c, hc, rfl⟩, -⟩ := mem_differing.1 hq
      have hq' := hp.childPrefix (show d + 3 ≤ 64 by omega) hc
      -- the way down to every leaf of the child passes through the child
      have hstep : ∀ x ∈ descend a b e D (d + 3) (childPrefix d p c), OfferedBelow b d x ↔
          b.nodeHash e (d + 3) (childPrefix d p c) ≠ 0 ∧ OfferedBelow b (d + 3) x := by
        intro x hx
        obtain ⟨m, -, hm, -, rfl⟩ := (mem_descend hD hle (by omega) (by omega) hq').1 hx
        rw [offeredBelow_iff (show d + 3 ≤ D by omega) (by omega), ← hm]
        rfl
      rw [← ih (by omega) hq']
      exact filter_of_iff_and hstep
    rw [descend_inner (by omega), List.filter_flatMap, offeredDescend, hdepth, offeredChildren,
      ← flatMap_ite]
    exact List.flatMap_congr hchild

/-! ## Level by level -/

/-- From the offered cells `n` levels above the leaves to the offered leaf cells below them, level
by level. -/
def offeredLevels (a : MerkleForest La) (b : MerkleForest Lb) (D : ℕ) :
    ℕ → List (Epoch × ℕ) → List (Epoch × ℕ)
  | 0, l => l
  | n + 1, l => offeredLevels a b D n
      (l.flatMap fun x => (offeredChildren a b x.1 (D - 3 * (n + 1)) x.2).map (x.1, ·))

/-- **Breadth first is depth first**, when all leaves are equally deep. -/
theorem map_offeredLevels (n : ℕ) (l : List (Epoch × ℕ)) :
    (offeredLevels a b D n l).map (fun x => DivergentLeaf.of x.1 D x.2) =
      l.flatMap fun x => offeredDescend a b x.1 D n x.2 := by
  induction n generalizing l with
  | zero =>
    exact List.map_eq_flatMap
  | succ n ih =>
    rw [offeredLevels, ih, List.flatMap_assoc]
    refine List.flatMap_congr fun x _ => ?_
    rw [offeredDescend, List.flatMap_map]

/-- The roots of `b` that differ from those of `a`, as cells. -/
def offeredRoots (a : MerkleForest La) (b : MerkleForest Lb) : List (Epoch × ℕ) :=
  (b.epochRoots.filter fun x => x.2 ≠ a.nodeHash x.1 0 0).map fun x => (x.1, 0)

/-- The epochs where the roots differ and `b` has one, in the order of both. -/
theorem offeredRoots_eq (a : MerkleForest La) (b : MerkleForest Lb) :
    offeredRoots a b = ((bothEpochs a b).filter fun e =>
      a.nodeHash e 0 0 ≠ b.nodeHash e 0 0 ∧ b.nodeHash e 0 0 ≠ 0).map fun e => (e, 0) := by
  have hroots : (b.epochRoots.filter fun x => x.2 ≠ a.nodeHash x.1 0 0).map Prod.fst =
      (bothEpochs a b).filter fun e =>
        a.nodeHash e 0 0 ≠ b.nodeHash e 0 0 ∧ b.nodeHash e 0 0 ≠ 0 := by
    have hasc : ((b.epochRoots.filter fun x => x.2 ≠ a.nodeHash x.1 0 0).map Prod.fst).Pairwise
        (· < ·) := by
      rw [List.pairwise_map]
      exact (b.ascending_epochRoots.filter _).imp compare_lt_iff_lt.1
    have hasc' := (ascending_bothEpochs a b).filter fun e =>
      decide (a.nodeHash e 0 0 ≠ b.nodeHash e 0 0 ∧ b.nodeHash e 0 0 ≠ 0)
    refine List.Perm.eq_of_pairwise (fun _ _ _ _ h h' => absurd h' h.asymm) hasc hasc'
      ((List.perm_ext_iff_of_nodup (hasc.imp ne_of_lt) (hasc'.imp ne_of_lt)).2 fun e => ?_)
    simp only [List.mem_map, List.mem_filter, Prod.exists, MerkleForest.mem_epochRoots,
      decide_eq_true_eq]
    constructor
    · rintro ⟨_, h, ⟨⟨h₀, rfl⟩, hne⟩, rfl⟩
      exact ⟨mem_bothEpochs_of_ne hne.symm, hne.symm, h₀⟩
    · rintro ⟨-, hne, h₀⟩
      exact ⟨e, _, ⟨⟨h₀, rfl⟩, hne.symm⟩, rfl⟩
  rw [← hroots, List.map_map]
  rfl

/-- **The offered leaves**, level by level from the offered roots. -/
theorem offeredLeaves_eq {n : ℕ} (hn : min La.bits Lb.bits = 3 * n) :
    offeredLeaves a b = (offeredLevels a b (3 * n) n (offeredRoots a b)).map fun x =>
      .of x.1 (3 * n) x.2 := by
  have hepoch : ∀ e, (if a.nodeHash e 0 0 ≠ b.nodeHash e 0 0 then
      descend a b e (3 * n) 0 0 else []).filter (fun x => Offered b x) =
        if a.nodeHash e 0 0 ≠ b.nodeHash e 0 0 ∧ b.nodeHash e 0 0 ≠ 0 then
          offeredDescend a b e (3 * n) n 0 else [] := by
    intro e
    have hD : 3 * n ≤ 63 := hn ▸ min_bits_le La Lb
    by_cases hne : a.nodeHash e 0 0 = b.nodeHash e 0 0
    · simp [hne]
    · have hleaf : ∀ x ∈ descend a b e (3 * n) 0 0,
          Offered b x ↔ b.nodeHash e 0 0 ≠ 0 ∧ OfferedBelow b 0 x := by
        intro x hx
        obtain ⟨q, hq, -, -, rfl⟩ :=
          (mem_descend (by omega) hD (Nat.zero_le _) rfl isPrefix_zero).1 hx
        rw [offered_iff]
        show b.nodeHash e 0 (prefixAt q 0) ≠ 0 ∧ _ ↔ _
        rw [prefixAt_zero hq.lt]
      rw [if_pos hne, filter_of_iff_and hleaf, filter_descend (Nat.zero_add _).symm (by omega) hD
        isPrefix_zero]
      simp [hne]
  rw [map_offeredLevels, offeredRoots_eq, List.flatMap_map, ← flatMap_ite, offeredLeaves,
    diffForests, List.filter_flatMap]
  simp only [MerkleForest.leafDepthBits, hn]
  exact List.flatMap_congr fun e _ => hepoch e

/-- The offered children, among those that the peer sends. -/
theorem filter_childHashes (a : MerkleForest La) (b : MerkleForest Lb) (e : Epoch) (d p : ℕ) :
    ((b.childHashes e d p).map Prod.fst).filter (fun q =>
      b.nodeHash e (d + 3) q ≠ 0 ∧ b.nodeHash e (d + 3) q ≠ a.nodeHash e (d + 3) q) =
        offeredChildren a b e d p := by
  have hfst : (b.childHashes e d p).map Prod.fst =
      ((List.range 8).map (childPrefix d p)).filter fun q => b.nodeHash e (d + 3) q ≠ 0 := by
    rw [MerkleForest.childHashes_eq, List.map_map]
    exact List.map_id _
  rw [hfst, List.filter_filter, offeredChildren, differing, List.filter_filter]
  refine List.filter_congr fun q _ => ?_
  simp only [← Bool.decide_and, decide_eq_decide]
  tauto

end Offered

/-! ## Traces of a round -/

/-- The key range that an operation fetches. -/
def SyncOp.fetched : SyncOp → Option (Bytes × Bytes)
  | .fetch start stop => some (start, stop)
  | _ => none

/-- The operation reads a hash, of the peer or of the own store. -/
def SyncOp.Compares : SyncOp → Prop
  | .fetch _ _ => False
  | .ingest _ _ => False
  | _ => True

variable {L L' : LeafDepth}

/-- The key ranges fetched in a trace, in order. -/
def fetches (t : List (Event syncSig (Peers L L'))) : List (Bytes × Bytes) :=
  t.filterMap fun x => x.op.fetched

/-- The key range of a leaf cell. -/
def DivergentLeaf.range (x : DivergentLeaf) : Bytes × Bytes := (x.startKey.bytes, x.endKey.bytes)

/-- The answer is that of the service of the peer, or of an own store that does not fail. -/
def Served (x : Event syncSig (Peers L L')) : Prop :=
  match x with
  | ⟨.roots, met, r⟩ => r = .ok (SyncService.roots met.peer)
  | ⟨.children e d p, met, r⟩ => r = SyncService.children met.peer e d p
  | ⟨.fetch start stop, met, r⟩ => r = (SyncService.fetch met.peer start stop).map (List.map .ok)
  | ⟨.nodeHash _ _ _, _, _⟩ => True
  | ⟨.ingest _ _, _, r⟩ => ∃ b, r = .ok b

/-- A part of a round that compares hashes of the stores `s` only. -/
def Comparing (s : Peers L L') (t : List (Event syncSig (Peers L L'))) : Prop :=
  ∀ x ∈ t, x.met = s ∧ x.op.fetched = none

/-- The result is `a`, or an error after an answer that failed. -/
def Gives {α : Type} (t : List (Event syncSig (Peers L L'))) (r : Except SyncError α) (a : α) :
    Prop :=
  r = .ok a ∨ (∃ err, r = .error err) ∧ ∃ x ∈ t, ¬ Served x

/-- A round from the stores `s` that is to fetch the leaf cells `l`. -/
structure Fetches (s : Peers L L') (t : List (Event syncSig (Peers L L')))
    (r : Except SyncError SyncStats) (l : List DivergentLeaf) : Prop where
  /-- It fetches them in their order, and nothing else. -/
  fetched : fetches t <+: l.map DivergentLeaf.range
  /-- A round that ends well has fetched all of them. -/
  complete : ∀ stats, r = .ok stats → fetches t = l.map DivergentLeaf.range
  /-- A round ends well when the peer answers and the own store does not fail. -/
  ends : (∀ x ∈ t, Served x) → ∃ stats, r = .ok stats
  /-- All hashes that it reads are those of the stores at its start. -/
  compares : ∀ x ∈ t, x.op.Compares → x.met = s

section Traces

variable {s s' : Peers L L'} {t t₁ t₂ : List (Event syncSig (Peers L L'))}

theorem Comparing.append (h₁ : Comparing s t₁) (h₂ : Comparing s t₂) : Comparing s (t₁ ++ t₂) := by
  intro x hx
  rcases List.mem_append.1 hx with hx | hx
  · exact h₁ x hx
  · exact h₂ x hx

theorem Comparing.cons {x : Event syncSig (Peers L L')} (hmet : x.met = s)
    (hop : x.op.fetched = none) (h : Comparing s t) : Comparing s (x :: t) := by
  intro y hy
  rcases List.mem_cons.1 hy with rfl | hy
  · exact ⟨hmet, hop⟩
  · exact h y hy

theorem comparing_nil (s : Peers L L') : Comparing s [] := fun _ hx => (List.not_mem_nil hx).elim

theorem Comparing.fetches_eq (h : Comparing s t) : fetches t = [] :=
  List.filterMap_eq_nil_iff.2 fun x hx => (h x hx).2

theorem fetches_append : fetches (t₁ ++ t₂) = fetches t₁ ++ fetches t₂ := List.filterMap_append

/-- Comparisons before the fetches do not change what is fetched. -/
theorem Fetches.after {r : Except SyncError SyncStats} {l : List DivergentLeaf}
    (h : Fetches s t₂ r l) (h₁ : Comparing s t₁) : Fetches s (t₁ ++ t₂) r l where
  fetched := by
    rw [fetches_append, h₁.fetches_eq]
    exact h.fetched
  complete := by
    rw [fetches_append, h₁.fetches_eq]
    exact h.complete
  ends := fun hs => h.ends fun x hx => hs x (List.mem_append_right _ hx)
  compares := by
    intro x hx hc
    rcases List.mem_append.1 hx with hx | hx
    · exact (h₁ x hx).1
    · exact h.compares x hx hc

/-- A round that fails while it compares. -/
theorem Fetches.failed (h : Comparing s t) (hx : ∃ x ∈ t, ¬ Served x) (err : SyncError)
    (l : List DivergentLeaf) : Fetches s t (.error err) l where
  fetched := by
    rw [h.fetches_eq]
    exact List.nil_prefix
  complete := fun _ hr => nomatch hr
  ends := by
    obtain ⟨x, hx, hs⟩ := hx
    exact fun hall => absurd (hall x hx) hs
  compares := fun x hx _ => (h x hx).1

theorem fetches_nil (s : Peers L L') (stats : SyncStats) : Fetches s [] (.ok stats) [] where
  fetched := List.prefix_rfl
  complete := fun _ _ => rfl
  ends := fun _ => ⟨stats, rfl⟩
  compares := fun _ hx => (List.not_mem_nil hx).elim

/-- A round that goes on after its first fetches. -/
theorem Fetches.append {stats : SyncStats} {r : Except SyncError SyncStats}
    {l₁ l₂ : List DivergentLeaf} (h₁ : Fetches s t₁ (.ok stats) l₁) (h₂ : Fetches s t₂ r l₂) :
    Fetches s (t₁ ++ t₂) r (l₁ ++ l₂) where
  fetched := by
    rw [fetches_append, h₁.complete stats rfl, List.map_append]
    exact List.prefix_append_right_inj _ |>.2 h₂.fetched
  complete := by
    intro stats' hr
    rw [fetches_append, h₁.complete stats rfl, h₂.complete stats' hr, List.map_append]
  ends := fun hs => h₂.ends fun x hx => hs x (List.mem_append_right _ hx)
  compares := by
    intro x hx
    rcases List.mem_append.1 hx with hx | hx
    · exact h₁.compares x hx
    · exact h₂.compares x hx

/-- A round that stops. -/
theorem Fetches.stop {err : SyncError} {l : List DivergentLeaf} (h : Fetches s t (.error err) l)
    (l' : List DivergentLeaf) : Fetches s t (.error err) (l ++ l') where
  fetched := by
    rw [List.map_append]
    exact h.fetched.trans (List.prefix_append _ _)
  complete := fun _ hr => nomatch hr
  ends := fun hs => nomatch h.ends hs
  compares := h.compares

end Traces

/-! ## Comparisons -/

section Rounds

variable [Sha256] {pol : KvPolicy} {s s' : Peers L L'}
  {t : List (Event syncSig (Peers L L'))}

/-- A cell diverges when the peer has a hash for it, and another one than the own store. -/
theorem traced_diverges {e : Epoch} {d : ℕ} {cell : ChildHash} {h : NodeHash}
    (hcell : cell.hash = hashBytes h) {r : Except SyncError Bool}
    (hrun : Traced (syncSem pol) (diverges e d cell) s t r s') :
    s' = s ∧ Comparing s t ∧
      r = .ok (decide (h ≠ 0 ∧ h ≠ s.own.merkle.nodeHash e d cell.nodePrefix)) := by
  rw [diverges, hcell, hashFromBytes_hashBytes] at hrun
  dsimp only at hrun
  split_ifs at hrun with hzero
  · obtain ⟨rfl, rfl, rfl⟩ := hrun
    exact ⟨rfl, comparing_nil _, by simp [hzero]⟩
  · obtain ⟨ours, s₁, t', rfl, ⟨rfl, rfl⟩, rfl, rfl, rfl⟩ := hrun
    exact ⟨rfl, .cons rfl rfl (comparing_nil _), by simp [hzero]⟩

/-- The divergent cells among those that the peer sent, in their order. -/
theorem traced_divergent {d : ℕ} {cells : List (Epoch × ChildHash)}
    (hcells : ∀ x ∈ cells, x.2.hash = hashBytes (s.peer.merkle.nodeHash x.1 d x.2.nodePrefix))
    {r : Except SyncError (List (Epoch × ℕ))}
    (hrun : Traced (syncSem pol) (divergent d cells) s t r s') :
    s' = s ∧ Comparing s t ∧ r = .ok ((cells.map fun x => (x.1, x.2.nodePrefix)).filter fun x =>
      s.peer.merkle.nodeHash x.1 d x.2 ≠ 0 ∧
        s.peer.merkle.nodeHash x.1 d x.2 ≠ s.own.merkle.nodeHash x.1 d x.2) := by
  induction cells generalizing s' t r with
  | nil =>
    obtain ⟨rfl, rfl, rfl⟩ := hrun
    exact ⟨rfl, comparing_nil _, rfl⟩
  | cons x cells ih =>
    obtain ⟨t₁, pushed, s₁, t₂, rfl, hone, hrest⟩ := traced_bind.1 hrun
    obtain ⟨rfl, hcmp, rfl⟩ := traced_diverges (hcells x (by simp)) hone
    obtain ⟨t₂, r', s₂, t₃, rfl, hdiv, hret⟩ := traced_bind.1 hrest
    obtain ⟨rfl, hcmp', rfl⟩ := ih (fun y hy => hcells y (List.mem_cons_of_mem _ hy)) hdiv
    obtain ⟨rfl, rfl, rfl⟩ := hret
    refine ⟨rfl, ?_, ?_⟩
    · rw [List.append_nil]
      exact hcmp.append hcmp'
    · rw [List.map_cons, List.filter_cons]
      split_ifs
      · simp [Except.map]
      · simp [Except.map]

/-- The roots that go on the work list. -/
theorem traced_roots {r : Except SyncError (List (Epoch × ℕ))}
    (hrun : Traced (syncSem pol) (divergent 0 ((SyncService.roots s.peer).roots.map fun root =>
      (root.epoch, ⟨0, root.hash⟩))) s t r s') :
    s' = s ∧ Comparing s t ∧ r = .ok (offeredRoots s.own.merkle s.peer.merkle) := by
  have hcells : ∀ x ∈ (SyncService.roots s.peer).roots.map fun root =>
      (root.epoch, (⟨0, root.hash⟩ : ChildHash)),
        x.2.hash = hashBytes (s.peer.merkle.nodeHash x.1 0 x.2.nodePrefix) := by
    intro x hx
    obtain ⟨root, hroot, rfl⟩ := List.mem_map.1 hx
    exact (SyncService.mem_roots.1 hroot).2
  obtain ⟨rfl, hcmp, rfl⟩ := traced_divergent hcells hrun
  refine ⟨rfl, hcmp, congrArg Except.ok ?_⟩
  rw [SyncService.roots, List.map_map, List.map_map, List.filter_map, offeredRoots]
  refine congrArg (List.map _) (List.filter_congr fun x hx => decide_eq_decide.2 ?_)
  obtain ⟨h₀, hroot⟩ := MerkleForest.mem_epochRoots.1 hx
  simp only [hroot, Function.comp_apply]
  exact and_iff_right h₀

/-- The children that go on the work list. -/
theorem traced_pullChildren {D : LeafDepth} {item : WorkItem D} (hD : D.bits ≤ L'.bits)
    (hleaf : item.depth ≠ D.bits) {r : Except SyncError (List ℕ)}
    (hrun : Traced (syncSem pol) (pullChildren item) s t r s') :
    s' = s ∧ Comparing s t ∧
      Gives t r (offeredChildren s.own.merkle s.peer.merkle item.epoch item.depth
        item.nodePrefix) := by
  obtain ⟨hmod, hle⟩ := (item.child hleaf 0).valid
  change (item.depth + 3) % 3 = 0 at hmod
  change item.depth + 3 ≤ D.bits at hle
  have hserved : SyncService.children s.peer item.epoch item.depth item.nodePrefix =
      .ok ((s.peer.merkle.childHashes item.epoch item.depth item.nodePrefix).map fun x =>
        ⟨x.1, hashBytes x.2⟩) := by
    rw [SyncService.children, if_neg (by omega)]
  obtain ⟨answer, s₁, t', rfl, ⟨rfl, hop⟩, hrest⟩ := hrun
  rcases hop with hop | ⟨status, rfl⟩
  · rw [hserved] at hop
    subst hop
    change Traced (syncSem pol) (divergent (item.depth + 3) (List.map (fun c => (item.epoch, c))
      (List.map _ _)) >>= fun r => pure (r.map (List.map Prod.snd))) s₁ t' r s' at hrest
    obtain ⟨t₁, r', s₂, t₂, rfl, hdiv, rfl, rfl, rfl⟩ := traced_bind.1 hrest
    have hcells := (SyncService.children_eq_ok hserved).2
    obtain ⟨rfl, hcmp, rfl⟩ := traced_divergent (fun x hx => by
      obtain ⟨cell, hcell, rfl⟩ := List.mem_map.1 hx
      obtain ⟨c, -, -, -, hhash⟩ := (hcells cell).1 hcell
      exact hhash) hdiv
    refine ⟨rfl, .cons rfl rfl ?_, .inl (congrArg Except.ok ?_)⟩
    · rw [List.append_nil]
      exact hcmp
    · rw [← filter_childHashes, List.map_map, List.map_map, List.filter_map, List.filter_map,
        List.map_map]
      rfl
  · obtain ⟨rfl, rfl, rfl⟩ := hrest
    refine ⟨rfl, .cons rfl rfl (comparing_nil _), .inr ⟨⟨_, rfl⟩, _, List.mem_singleton_self _, ?_⟩⟩
    intro hs
    change Except.error status = SyncService.children _ _ _ _ at hs
    rw [hserved] at hs
    cases hs

/-- The cells one level down that go on the work list. -/
theorem traced_pullLevel {D : LeafDepth} (hD : D.bits ≤ L'.bits) {n : ℕ} (hn : n < D.levels)
    {l : List (Epoch × ℕ)} {r : Except SyncError (List (Epoch × ℕ))}
    (hrun : Traced (syncSem pol) (pullLevel D n l) s t r s') :
    s' = s ∧ Comparing s t ∧ Gives t r (l.flatMap fun x =>
      (offeredChildren s.own.merkle s.peer.merkle x.1 (D.bits - 3 * (n + 1)) x.2).map
        (x.1, ·)) := by
  have hlevels := D.three_mul_levels
  induction l generalizing s' t r with
  | nil =>
    obtain ⟨rfl, rfl, rfl⟩ := hrun
    exact ⟨rfl, comparing_nil _, .inl rfl⟩
  | cons x l ih =>
    obtain ⟨t₁, r₁, s₁, t₂, rfl, hone, hrest⟩ := traced_bind.1 hrun
    have hleaf : (WorkItem.above (D := D) (n + 1) x).depth ≠ D.bits := by
      show D.bits - 3 * (n + 1) ≠ D.bits
      omega
    obtain ⟨rfl, hcmp, hr₁⟩ := traced_pullChildren hD hleaf hone
    rcases hr₁ with rfl | ⟨⟨err, rfl⟩, y, hy, hserved⟩
    · obtain ⟨t₂, r₂, s₂, t₃, rfl, hlevel, rfl, rfl, rfl⟩ := traced_bind.1 hrest
      obtain ⟨rfl, hcmp', hr₂⟩ := ih hlevel
      rw [List.append_nil]
      refine ⟨rfl, hcmp.append hcmp', ?_⟩
      rcases hr₂ with rfl | ⟨⟨err, rfl⟩, y, hy, hserved⟩
      · exact .inl rfl
      · exact .inr ⟨⟨err, rfl⟩, y, List.mem_append_right _ hy, hserved⟩
    · obtain ⟨rfl, rfl, rfl⟩ := hrest
      rw [List.append_nil]
      exact ⟨rfl, hcmp, .inr ⟨⟨err, rfl⟩, y, hy, hserved⟩⟩

/-! ## Fetches -/

/-- Ingesting the rows of a stream ends well when the stream brings rows only. -/
theorem traced_ingestRows {items : List (Except Status SyncRow)} {stats : SyncStats}
    {r : Except SyncError SyncStats}
    (hrun : Traced (syncSem pol) (ingestRows items stats) s t r s') :
    (∀ x ∈ t, ∃ k v, x.op = .ingest k v) ∧
      ((∀ x ∈ items, ∃ y : Row, x = .ok ⟨y.1.bytes, y.2⟩) → (∀ x ∈ t, Served x) →
        ∃ stats', r = .ok stats') := by
  induction items generalizing s t r stats with
  | nil =>
    obtain ⟨rfl, rfl, rfl⟩ := hrun
    exact ⟨fun _ hx => (List.not_mem_nil hx).elim, fun _ _ => ⟨_, rfl⟩⟩
  | cons x items ih =>
    cases x with
    | error status =>
      obtain ⟨rfl, rfl, rfl⟩ := hrun
      refine ⟨fun _ hx => (List.not_mem_nil hx).elim, fun hitems _ => ?_⟩
      obtain ⟨y, hy⟩ := hitems _ (List.mem_cons_self ..)
      cases hy
    | ok row =>
      rw [ingestRows] at hrun
      cases hkey : Key.tryFrom row.key with
      | none =>
        rw [hkey] at hrun
        obtain ⟨rfl, rfl, rfl⟩ := hrun
        refine ⟨fun _ hx => (List.not_mem_nil hx).elim, fun hitems _ => ?_⟩
        obtain ⟨y, hy⟩ := hitems _ (List.mem_cons_self ..)
        obtain rfl := Except.ok.inj hy
        rw [Key.tryFrom_bytes] at hkey
        cases hkey
      | some key =>
        rw [hkey] at hrun
        obtain ⟨answer, s₁, t', rfl, -, hrest⟩ := hrun
        cases answer with
        | error err =>
          obtain ⟨rfl, rfl, rfl⟩ := hrest
          refine ⟨fun x hx => ?_, fun _ hserved => ?_⟩
          · obtain rfl := List.mem_singleton.1 hx
            exact ⟨_, _, rfl⟩
          · obtain ⟨b, hb⟩ := hserved _ (List.mem_singleton_self _)
            cases hb
        | ok changed =>
          obtain ⟨hops, hends⟩ := ih hrest
          refine ⟨fun x hx => ?_, fun hitems hserved => ?_⟩
          · rcases List.mem_cons.1 hx with rfl | hx
            · exact ⟨_, _, rfl⟩
            · exact hops x hx
          · exact hends (fun y hy => hitems y (List.mem_cons_of_mem _ hy))
              fun y hy => hserved y (List.mem_cons_of_mem _ hy)

/-- A leaf cell is fetched once. -/
theorem traced_pullLeaf {D : LeafDepth} {item : WorkItem D}
    (hp : IsPrefix item.depth item.nodePrefix) {stats : SyncStats}
    {r : Except SyncError SyncStats} (hrun : Traced (syncSem pol) (pullLeaf item stats) s t r s')
    (s₀ : Peers L L') : Fetches s₀ t r [.of item.epoch item.depth item.nodePrefix] := by
  rw [pullLeaf_eq] at hrun
  obtain ⟨answer, s₁, t', rfl, ⟨rfl, -⟩, hrest⟩ := hrun
  have hserved := SyncService.fetch_leaf s₁.peer item.epoch hp
  -- the rows that the service sends are well-formed
  have hends : (∀ x ∈ t', ∃ k v, x.op = .ingest k v) ∧
      ∀ rows : List Row, answer = .ok ((rows.map fun y => ⟨y.1.bytes, y.2⟩).map .ok) →
        (∀ x ∈ t', Served x) → ∃ stats', r = .ok stats' := by
    cases answer with
    | error status =>
      obtain ⟨rfl, rfl, rfl⟩ := hrest
      exact ⟨fun _ hx => (List.not_mem_nil hx).elim, fun _ h => nomatch h⟩
    | ok items =>
      obtain ⟨hops, hends⟩ := traced_ingestRows hrest
      refine ⟨hops, fun rows hitems => hends fun x hx => ?_⟩
      obtain rfl := Except.ok.inj hitems
      obtain ⟨_, hrow, rfl⟩ := List.mem_map.1 hx
      obtain ⟨y, -, rfl⟩ := List.mem_map.1 hrow
      exact ⟨y, rfl⟩
  obtain ⟨hops, hends⟩ := hends
  have hnone : fetches t' = [] := by
    refine List.filterMap_eq_nil_iff.2 fun x hx => ?_
    obtain ⟨k, v, hop⟩ := hops x hx
    rw [hop]
    rfl
  have hfetches : fetches (⟨.fetch _ _, s₁, answer⟩ :: t') =
      [(DivergentLeaf.of item.epoch item.depth item.nodePrefix).range] := congrArg (_ :: ·) hnone
  refine ⟨?_, fun _ _ => hfetches, fun h => ?_, fun x hx hc => ?_⟩
  · rw [hfetches]
    exact List.prefix_rfl
  · have hfirst := h _ (List.mem_cons_self ..)
    simp only [Served, hserved] at hfirst
    exact hends _ hfirst fun x hx => h x (List.mem_cons_of_mem _ hx)
  · rcases List.mem_cons.1 hx with rfl | hx
    · exact hc.elim
    · obtain ⟨k, v, hop⟩ := hops x hx
      rw [hop] at hc
      exact hc.elim

theorem traced_pullLeaves {D : LeafDepth} {l : List (Epoch × ℕ)}
    (hl : ∀ x ∈ l, IsPrefix D.bits x.2) {stats : SyncStats} {r : Except SyncError SyncStats}
    (hrun : Traced (syncSem pol) (pullLeaves D l stats) s t r s') (s₀ : Peers L L') :
    Fetches s₀ t r (l.map fun x => .of x.1 D.bits x.2) := by
  induction l generalizing s t stats with
  | nil =>
    obtain ⟨rfl, rfl, rfl⟩ := hrun
    exact fetches_nil s₀ stats
  | cons x l ih =>
    obtain ⟨t₁, r₁, s₁, t₂, rfl, hone, hrest⟩ := traced_bind.1 hrun
    have hx : IsPrefix (WorkItem.above (D := D) 0 x).depth x.2 := hl x (List.mem_cons_self ..)
    have hfirst := traced_pullLeaf hx hone s₀
    cases r₁ with
    | error err =>
      obtain ⟨rfl, rfl, rfl⟩ := hrest
      rw [List.append_nil]
      exact hfirst.stop _
    | ok stats₁ => exact hfirst.append (ih (fun y hy => hl y (List.mem_cons_of_mem _ hy)) hrest)

/-- **Level by level**: the comparisons come first, then the leaf cells are fetched. -/
theorem traced_pullLevels {D : LeafDepth} (hD : D.bits ≤ L'.bits) {n : ℕ} (hn : n ≤ D.levels)
    {l : List (Epoch × ℕ)}
    (hl : ∀ x ∈ offeredLevels s.own.merkle s.peer.merkle D.bits n l, IsPrefix D.bits x.2)
    {stats : SyncStats} {r : Except SyncError SyncStats}
    (hrun : Traced (syncSem pol) (pullLevels D n l stats) s t r s') :
    Fetches s t r ((offeredLevels s.own.merkle s.peer.merkle D.bits n l).map fun x =>
      .of x.1 D.bits x.2) := by
  induction n generalizing l s t with
  | zero => exact traced_pullLeaves hl hrun s
  | succ n ih =>
    obtain ⟨t₁, r₁, s₁, t₂, rfl, hlevel, hrest⟩ := traced_bind.1 hrun
    obtain ⟨rfl, hcmp, hr₁⟩ := traced_pullLevel hD hn hlevel
    rcases hr₁ with rfl | ⟨⟨err, rfl⟩, hfail⟩
    · exact (ih (Nat.le_of_succ_le hn) hl hrest).after hcmp
    · obtain ⟨rfl, rfl, rfl⟩ := hrest
      rw [List.append_nil]
      exact .failed hcmp hfail err _

/-- **A pull round fetches what `diff_forests` lists and the peer offers.** In a round of a store
`A` against a peer `B` without other writes, the leaf cells fetched are those leaves of
`diff_forests` of the two forests before the round that `B` offers, in their order: all of them when
the round ends well, as it does when the peer answers and the own store does not fail. No hash is
read after the first row is ingested. -/
theorem fetches_syncOnce {A : SpatioTemporalStore L} {B : SpatioTemporalStore L'}
    {r : Except SyncError SyncStats} (hrun : Traced (syncSem pol) (syncOnce L) ⟨A, B⟩ t r s') :
    Fetches ⟨A, B⟩ t r (offeredLeaves A.merkle B.merkle) := by
  obtain ⟨answer, s₁, t', rfl, ⟨rfl, hop⟩, hrest⟩ := hrun
  rcases hop with rfl | ⟨status, rfl⟩
  · obtain ⟨D, hD, hbits⟩ := exists_descendTo L L'
    have hlevels := D.three_mul_levels
    have hleaves := offeredLeaves_eq (a := A.merkle) (b := B.merkle) (n := D.levels) (by omega)
    rw [hlevels] at hleaves
    -- the listed leaf cells are cells
    have hcells : ∀ x ∈ offeredLevels A.merkle B.merkle D.bits D.levels
        (offeredRoots A.merkle B.merkle), IsPrefix D.bits x.2 := by
      intro x hx
      have hmem := List.mem_map_of_mem (f := fun x => DivergentLeaf.of x.1 D.bits x.2) hx
      rw [← hleaves] at hmem
      obtain ⟨e, q, hq, -, -, heq⟩ := mem_diffForests.1 (List.mem_filter.1 hmem).1
      have hxq : x.2 = q := congrArg DivergentLeaf.nodePrefix heq
      rw [hxq, hbits]
      exact hq
    have hD' : descendTo L (SyncService.roots B).leafDepthBits = some D := hD
    change Traced (syncSem pol) (pullFrom L (SyncService.roots B)) _ t' r s' at hrest
    rw [pullFrom, hD'] at hrest
    obtain ⟨t₁, r₁, s₁, t₂, rfl, hroots, hrest⟩ := traced_bind.1 hrest
    obtain ⟨rfl, hcmp, rfl⟩ := traced_roots (s := ⟨A, B⟩) hroots
    change Traced (syncSem pol) (syncLoop (_ : List (WorkItem D)) .default) _ t₂ r s' at hrest
    rw [syncLoop_roots] at hrest
    have hpull := traced_pullLevels (hbits.trans_le (min_le_right _ _)) le_rfl hcells hrest
    rw [hleaves, ← List.cons_append]
    refine hpull.after (Comparing.cons ?_ ?_ hcmp)
    · rfl
    · rfl
  · obtain ⟨rfl, rfl, rfl⟩ := hrest
    refine .failed (.cons ?_ ?_ (comparing_nil _)) ⟨_, List.mem_singleton_self _, ?_⟩ _ _
    · rfl
    · rfl
    · exact fun hserved => nomatch hserved

end Rounds

section Sample

local instance wireSha : Sha256 := sampleDigests

theorem fetches_syncOnce_rivals :
    ∃ t s', Traced (syncSem .reliable) (syncOnce merkleLeafDepth) ⟨storedOnce, rivalStore⟩ t
      (.ok ⟨1, 2, 1⟩) s' ∧ fetches t = [(DivergentLeaf.of 0 15 0).range] := by
  have halone : Alone (syncSem .reliable) (syncOnce merkleLeafDepth) ⟨storedOnce, rivalStore⟩
      (.ok ⟨1, 2, 1⟩) _ := alone_pull (by decide +kernel)
  obtain ⟨t, ht⟩ := exists_traced halone
  refine ⟨t, _, ht, ((fetches_syncOnce ht).complete _ rfl).trans ?_⟩
  rw [offeredLeaves_eq (n := 5) rfl]
  decide +kernel

end Sample

end InterstellarDb
