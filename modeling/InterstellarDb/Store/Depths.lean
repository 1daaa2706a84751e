import InterstellarDb.Store.Trust

/-!
# Sessions with different leaf depths

A session ignores the seal records of other leaf depths: their epochs are not marked as sealed, so
a write to one leaves its record on disk, and a later session of the record's own depth trusts it
(`not_foldOf_openStore`). As long as the epochs with a record are only written to at the leaf depth
of the record, every `open` at every depth rebuilds the fold of the rows, and no record that some
depth accepts survives a write to its epoch (`foldOf_openStore_of_runs`).
-/

namespace InterstellarDb

open Atomic

section Runs

variable [Sha256]

/-- The accepted calls write fresh keys, fewer than `2 ^ 64` rows are stored, and an epoch with a
record that some depth accepts is written to by a session of that depth only. -/
def OwnWrites (x : Session) (c : StoreCall) (r : Except String Bool) : Prop :=
  r = .ok true → Fresh x.2 c ∧ Fits x.2 c ∧ OwnRecords Set.univ x.2 c

theorem trusted_univ_step {pol : KvPolicy} {x y : Session}
    (h : Session.Step pol Set.univ OwnWrites x y) (hx : Trusted Set.univ x.2) :
    Trusted Set.univ y.2 := by
  cases h with
  | call hrun hC => exact hx.call (Set.mem_univ _) hrun hC
  | reopen L' hL' ix => exact hx.reopen hL' ix

/-- **The seal records stay trustworthy across leaf depths**, from an empty disk on, in every run
in which the epochs with a record are written to at the leaf depth of the record. -/
theorem foldOf_openStore_of_runs {pol : KvPolicy} (L : LeafDepth) (ix : HybridSpatioTemporalIndexer)
    {x : Session} (h : Session.Runs pol Set.univ OwnWrites ⟨L, openStore L ix .empty⟩ x) :
    (∀ L' ix', FoldOf (openStore L' ix' x.2.tree).merkle x.2.rows) ∧
      ∀ c s', Alone (storeSem x.1 pol) (c.prog x.2.indexer) x.2 (.ok true) s' →
        OwnWrites x c (.ok true) → ∀ r ∈ c.rows x.2.indexer, ∀ b,
          s'.tree.record r.1.epoch = some b → ∀ L', ¬ Accepts L' b := by
  have hx : Trusted Set.univ x.2 := by
    induction h with
    | refl => exact trusted_empty ix (Set.mem_univ _)
    | tail _ hstep ih => exact trusted_univ_step hstep ih
  refine ⟨fun L' ix' => (hx.reopen (Set.mem_univ _) ix').fold, ?_⟩
  intro c s' hrun hown r hr b hb L' ha
  rcases alone_call hrun with ⟨⟨_, hr'⟩, -⟩ | ⟨hr', -⟩ | ⟨-, hw⟩
  · cases hr'
  · exact hr' rfl
  · have hne := (hx.record_wrote (Set.mem_univ _) hw (hown rfl).2.2 hb (Set.mem_univ _) ha).2.1
    exact hne r hr rfl

end Runs

/-! ## A record that outlives a write -/

section Sample

local instance depthsSha : Sha256 := sampleDigests

/-- A leaf depth with one level. -/
def shallowDepth : LeafDepth := ⟨3, by decide, by decide, by decide⟩

/-- The call that seals the epoch 0. -/
def sealEarly : StoreCall := .sealSettledEpochs 7200 0

/-- The store with a sealed epoch. -/
def depthsSealed : SpatioTemporalStore merkleLeafDepth := storedOnce.after sealEarly

/-- The session of another leaf depth that follows. -/
def depthsShallow : SpatioTemporalStore shallowDepth :=
  openStore shallowDepth testIndexer depthsSealed.tree

def depthsLate : SpatioTemporalStore shallowDepth := depthsShallow.after (storeCorner 1 [0x62])

theorem alone_depthsSealed :
    Alone (storeSem merkleLeafDepth .reliable) (sealEarly.prog storedOnce.indexer) storedOnce
      (.ok false) depthsSealed := alone_after (by decide +kernel)

theorem alone_depthsLate :
    Alone (storeSem shallowDepth .reliable) ((storeCorner 1 [0x62]).prog depthsShallow.indexer)
      depthsShallow (.ok true) depthsLate := alone_after (by decide +kernel)

/-- Every row that the sample calls write fits. -/
theorem fits_sample {L : LeafDepth} {s : SpatioTemporalStore L} {c : StoreCall}
    (h : s.rows.card + (c.rows s.indexer).length ≤ 2) : Fits s c := by
  unfold Fits
  omega

theorem runs_depthsSealed {C : Session → StoreCall → Except String Bool → Prop}
    (h₁ : C ⟨_, sampleStore⟩ (storeCorner 0 [0x61]) (.ok true))
    (h₂ : C ⟨_, storedOnce⟩ sealEarly (.ok false)) :
    Session.Runs .reliable Set.univ C ⟨_, sampleStore⟩ ⟨_, depthsSealed⟩ :=
  .tail (.single (.call alone_storedOnce h₁)) (.call alone_depthsSealed h₂)

theorem freshWrites_storedOnce : FreshWrites ⟨_, sampleStore⟩ (storeCorner 0 [0x61]) (.ok true) :=
  fun _ => ⟨fun _ => by decide +kernel, fits_sample (by decide +kernel)⟩

theorem foldOf_openStore_of_runs_sealed :
    FoldOf (openStore shallowDepth testIndexer depthsSealed.tree).merkle depthsSealed.rows ∧
      depthsSealed.sealState.sealed = {0} := by
  refine ⟨(foldOf_openStore_of_runs (x := ⟨_, depthsSealed⟩) merkleLeafDepth testIndexer
    (runs_depthsSealed ?_ ?_)).1 shallowDepth testIndexer, by decide +kernel⟩
  · refine fun _ => ⟨(freshWrites_storedOnce rfl).1, (freshWrites_storedOnce rfl).2, ?_⟩
    intro r _ b hb
    have hnone : sampleStore.tree.record r.1.epoch = none := by
      simp [sampleStore, KvTree.record, KvTree.get, KvTree.empty]
    cases hnone.symm.trans hb
  · rintro ⟨⟩

/-- **A record outlives a write**: a row stored at another leaf depth is missing from the forest
that the next session of the record's depth rebuilds. -/
theorem not_foldOf_openStore :
    ¬ ∀ x : Session, Session.Runs .reliable Set.univ FreshWrites ⟨_, sampleStore⟩ x →
      ∀ L' ix', FoldOf (openStore L' ix' x.2.tree).merkle x.2.rows := by
  intro h
  have hruns : Session.Runs .reliable Set.univ FreshWrites ⟨_, sampleStore⟩ ⟨_, depthsLate⟩ := by
    refine .tail (.tail (runs_depthsSealed freshWrites_storedOnce ?_)
      (.reopen shallowDepth (Set.mem_univ _) testIndexer))
      (.call alone_depthsLate fun _ => ⟨?_, ?_⟩)
    · rintro ⟨⟩
    · exact fun _ => by decide +kernel
    · exact fits_sample (by decide +kernel)
  have hcount := (h _ hruns merkleLeafDepth testIndexer).counts 0
  have h₁ : (openStore merkleLeafDepth testIndexer depthsLate.tree).merkle.count 0 = 1 := by
    decide +kernel
  have h₂ : epochCount depthsLate.rows 0 = 2 := by decide +kernel
  dsimp only at hcount
  rw [h₁, h₂] at hcount
  exact absurd hcount (by decide)

end Sample

end InterstellarDb
