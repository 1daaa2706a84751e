import InterstellarDb.Foundations.Atomic.Stop
import InterstellarDb.Store.Commits
import InterstellarDb.Store.SealProtocol
import InterstellarDb.Store.Trust

/-!
# Restarts

A process may die in the middle of a call, between any two of its operations (`Torn`), and a store
is opened on the disk. To the disk, dying is failing: it is left as by a run of the whole call in
which operations of the key-value tree fail (`Torn.exists_alone`).

A store is *durable* when nothing runs on it and its seal records can be trusted (`Durable`). Calls
keep it durable (`Durable.call`), and a restart opens it with the forest of its rows
(`Durable.reopen`).
-/

namespace InterstellarDb

open Atomic GreatestWins

variable [Sha256] {L : LeafDepth} {pol : KvPolicy} {s s' : SpatioTemporalStore L} {c : StoreCall}
  {kv : KvTree}

/-! ## Dying within a call -/

/-- The disk that is left when the process dies while the call runs. -/
def Torn (pol : KvPolicy) (c : StoreCall) (s : SpatioTemporalStore L) (kv : KvTree) : Prop :=
  ∃ t, Stopped (storeSem L pol) (c.prog s.indexer) s t ∧ t.tree = kv

/-- What a policy lets happen may happen when anything may fail. -/
theorem sem_faulty_of_sem {o : StoreOp} {r : o.Resp} (h : storeSem L pol o s r s') :
    storeSem L .faulty o s r s' := by
  rcases h with ⟨-, hrun⟩ | ⟨-, hfailed⟩
  · refine .inl ⟨?_, hrun⟩
    cases o <;> trivial
  · refine .inr ⟨?_, hfailed⟩
    cases o <;> trivial

/-- Only taking and releasing `seal_io` changes it. -/
theorem sealIo_step {o : StoreOp} {r : o.Resp} (ho : storeSem L pol o s r s')
    (hlock : o ≠ .lockSealIo) (hunlock : o ≠ .unlockSealIo) : s'.sealIo = s.sealIo := by
  rcases ho with ⟨-, hrun⟩ | ⟨-, -, rfl⟩
  · cases o <;> grind [StoreOp.run, SpatioTemporalStore.publish]
  · rfl

omit [Sha256] in
/-- Only releasing `seal_io` makes a thread free. -/
theorem SealGhost.free_of_next {g : SealGhost} {o : StoreOp} {r : o.Resp}
    (h : (g.next o r).io = .free) : o = .unlockSealIo ∨ o ≠ .lockSealIo ∧ g.io = .free := by
  cases o with
  | unlockSealIo => exact .inl rfl
  | lockSealIo => cases h
  | removeSealedAndMark e => cases h
  | removeSealed e => cases h
  | trySeal e =>
    cases r with
    | true => cases h
    | false => exact .inr ⟨by simp, h⟩
  | serializeEpoch e =>
    cases r with
    | some b => cases h
    | none => exact .inr ⟨by simp, h⟩
  | kvCommit n ws =>
    cases r with
    | error err => exact .inr ⟨by simp, h⟩
    | ok _ =>
      refine .inr ⟨by simp, ?_⟩
      change g.io.commit ws = .free at h
      unfold IoPhase.commit at h
      split at h
      · cases h
      · cases h
      · exact h
  | markUnlessSealed e =>
    cases r <;> exact .inr ⟨by simp, h⟩
  | _ => exact .inr ⟨by simp, h⟩

/-- **A call can always go on without changing the disk**: a commit fails, and whatever else it does
is in memory. -/
theorem survives_tree : Survives sealProtocol (storeSem L .faulty)
    (fun g s => g.io = .free → s.sealIo = false) SpatioTemporalStore.tree where
  step := by
    intro g o s r s' hs _ ho hfree
    rcases SealGhost.free_of_next hfree with rfl | ⟨hlock, hg⟩
    · obtain rfl := sem_unlockSealIo.1 ho
      rfl
    · by_cases hunlock : o = .unlockSealIo
      · subst hunlock
        obtain rfl := sem_unlockSealIo.1 ho
        rfl
      · rw [sealIo_step ho hlock hunlock]
        exact hs hg
  answers := by
    intro g o s hs hallow
    have hruns : ∀ r s', o.run s = some (r, s') → (∀ n ws, o ≠ .kvCommit n ws) →
        ∃ r s', storeSem L .faulty o s r s' ∧ s'.tree = s.tree := by
      intro r s' hrun hcommit
      have ho : storeSem L .faulty o s r s' := .inl ⟨by cases o <;> trivial, hrun⟩
      exact ⟨r, s', ho, tree_step ho hcommit⟩
    cases o with
    | kvCommit n ws => exact ⟨.error "", s, .inr ⟨trivial, ⟨"", rfl⟩, rfl⟩, rfl⟩
    | lockSealIo =>
      have hfree : s.sealIo = false := hs hallow
      exact ⟨(), _, sem_lockSealIo.2 ⟨hfree, rfl⟩, rfl⟩
    | markUnlessSealed e =>
      by_cases he : e ∈ s.sealState.sealed
      · exact hruns _ _ (if_pos he) (by simp)
      · exact hruns _ _ (if_neg he) (by simp)
    | trySeal e =>
      by_cases he : e ∈ s.sealState.sealed ∨ (s.sealState.inflight[e]?).isSome
      · exact hruns _ _ (if_pos he) (by simp)
      · exact hruns _ _ (if_neg he) (by simp)
    | _ => exact hruns _ _ rfl (by simp)

/-- **To the disk, dying is failing.** -/
theorem Torn.exists_alone (hio : s.sealIo = false) (h : Torn pol c s kv) :
    ∃ r t, Alone (storeSem L .faulty) (c.prog s.indexer) s r t ∧ t.tree = kv := by
  obtain ⟨t, hstop, rfl⟩ := h
  exact (hstop.mono fun _ _ _ _ => sem_faulty_of_sem).exists_alone survives_tree
    (follows_prog (g := .start) s.indexer c rfl) fun _ => hio

/-! ## Durable stores -/

/-- Nothing runs on the store, and its seal records describe the rows of their epochs. -/
structure Durable (s : SpatioTemporalStore L) : Prop where
  trusted : Trusted {L} s
  sealIo : s.sealIo = false

theorem durable_empty (ix : HybridSpatioTemporalIndexer) : Durable (openStore L ix .empty) :=
  ⟨trusted_empty ix rfl, rfl⟩

/-- A call releases `seal_io`. -/
theorem sealIo_alone {r : Except String Bool}
    (h : Alone (storeSem L pol) (c.prog s.indexer) s r s') : s'.sealIo = s.sealIo := by
  rcases alone_call h with ⟨-, _, -, hu⟩ | ⟨-, hu⟩ | ⟨-, hw⟩
  · exact hu.sealIo
  · exact hu.sealIo
  · obtain ⟨es, s₁, -, hu, hw⟩ := hw.run
    exact hw.sealIo.trans hu.sealIo

/-- **A call keeps a store durable.** -/
theorem Durable.call (h : Durable s) (hfresh : Fresh s c) (hfits : Fits s c)
    {r : Except String Bool} (hrun : Alone (storeSem L pol) (c.prog s.indexer) s r s') :
    Durable s' where
  trusted := h.trusted.call rfl hrun fun _ =>
    ⟨hfresh, hfits, fun _ _ _ _ _ hL' _ => hL'⟩
  sealIo := (sealIo_alone hrun).trans h.sealIo

/-- **A restart keeps a store durable**, and opens it with the forest of its rows. -/
theorem Durable.reopen (h : Durable s) (ix : HybridSpatioTemporalIndexer) :
    Durable (openStore L ix s.tree) ∧ FoldOf (openStore L ix s.tree).merkle s.rows := by
  have hopen : Trusted {L} (openStore L ix s.tree) := h.trusted.reopen rfl ix
  exact ⟨⟨hopen, rfl⟩, hopen.fold⟩

end InterstellarDb
