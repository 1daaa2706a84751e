import InterstellarDb.Foundations.Atomic.Prog
import InterstellarDb.Merkle.Edits
import InterstellarDb.Store.State

/-!
# The atomic operations of a store

The asynchronous code of the store is made of atomic sections: the sections under the seal mutex,
acquiring and releasing `seal_io`, the operations of the key-value tree, the sections under the
Merkle lock, and publishing an event. `StoreOp.run` is what each does when it succeeds; an
operation of the tree may fail instead, without effect, when the policy lets it (`storeSem`).
-/

namespace InterstellarDb

open Atomic

/-- The atomic operations. -/
inductive StoreOp where
  /-- Mark a write to the epoch as in flight, unless the epoch is sealed. -/
  | markUnlessSealed (epoch : Epoch)
  /-- Take the epoch out of `sealed` and mark a write to it. -/
  | removeSealedAndMark (epoch : Epoch)
  /-- Take one mark away from each of the epochs. -/
  | endMarks (epochs : List Epoch)
  /-- Put the epoch into `sealed`, unless it is there or has a write in flight. -/
  | trySeal (epoch : Epoch)
  /-- Take the epoch out of `sealed`. -/
  | removeSealed (epoch : Epoch)
  | lockSealIo
  | unlockSealIo
  /-- Begin a transaction; the answer is the number of commits it has seen. -/
  | kvBegin
  | kvStage (w : KvWrite)
  | kvCommit (begun : ℕ) (ws : List KvWrite)
  /-- Read a key in a transaction of its own. -/
  | kvGet (key : Bytes)
  | foldMerkle (edits : List MerkleEdit)
  | merkleEpochs
  | serializeEpoch (epoch : Epoch)
  | publish (r : Row)
  deriving DecidableEq

/-- The answers of the operations. -/
abbrev StoreOp.Resp : StoreOp → Type
  | .markUnlessSealed _ => Bool
  | .trySeal _ => Bool
  | .kvBegin => Except String ℕ
  | .kvStage _ => Except String Unit
  | .kvCommit _ _ => Except String Unit
  | .kvGet _ => Except String (Option Bytes)
  | .merkleEpochs => List Epoch
  | .serializeEpoch _ => Option Bytes
  | _ => Unit

/-- The signature of the store operations. -/
abbrev storeSig : Sig := ⟨StoreOp, StoreOp.Resp⟩

variable {L : LeafDepth} [Sha256]

/-- What an operation does when it succeeds; `none` when it has to wait. -/
def StoreOp.run (o : StoreOp) (s : SpatioTemporalStore L) :
    Option (o.Resp × SpatioTemporalStore L) :=
  match o with
  | .markUnlessSealed e =>
    if e ∈ s.sealState.sealed then some (false, s)
    else some (true, { s with sealState := s.sealState.mark e })
  | .removeSealedAndMark e =>
    some ((), { s with sealState := (s.sealState.removeSealed e).mark e })
  | .endMarks es => some ((), { s with sealState := es.foldl SealState.unmark s.sealState })
  | .trySeal e =>
    if e ∈ s.sealState.sealed ∨ (s.sealState.inflight[e]?).isSome then some (false, s)
    else some (true, { s with sealState := s.sealState.insertSealed e })
  | .removeSealed e => some ((), { s with sealState := s.sealState.removeSealed e })
  | .lockSealIo => if s.sealIo then none else some ((), { s with sealIo := true })
  | .unlockSealIo => some ((), { s with sealIo := false })
  | .kvBegin => some (.ok s.tree.log.length, s)
  | .kvStage _ => some (.ok (), s)
  | .kvCommit _ ws => some (.ok (), { s with tree := s.tree.commit ws })
  | .kvGet k => some (.ok (s.tree.get k), s)
  | .foldMerkle edits => some ((), { s with merkle := s.merkle.editAll edits })
  | .merkleEpochs => some (s.merkle.epochs, s)
  | .serializeEpoch e => some (s.merkle.serializeEpoch e, s)
  | .publish r => some ((), s.publish r)

/-- The answer of an operation that fails. -/
def StoreOp.failure (err : String) : (o : StoreOp) → Option o.Resp
  | .kvBegin => some (.error err)
  | .kvStage _ => some (.error err)
  | .kvCommit _ _ => some (.error err)
  | .kvGet _ => some (.error err)
  | _ => none

/-- The policy lets the operation succeed. -/
def StoreOp.MayRun (pol : KvPolicy) (s : SpatioTemporalStore L) : StoreOp → Prop
  | .kvCommit n ws => pol.commitOk s.tree n ws
  | _ => True

/-- The policy lets the operation fail. -/
def StoreOp.MayFail (pol : KvPolicy) (s : SpatioTemporalStore L) : StoreOp → Prop
  | .kvCommit n ws => pol.commitFails s.tree n ws
  | _ => pol.opFails

/-- What the operations do: they succeed, or they fail and change nothing. -/
def storeSem (L : LeafDepth) (pol : KvPolicy) : Sem storeSig (SpatioTemporalStore L) :=
  fun o s r s' =>
    StoreOp.MayRun pol s o ∧ o.run s = some (r, s') ∨
      StoreOp.MayFail pol s o ∧ (∃ err, o.failure err = some r) ∧ s' = s

/-! ## Each operation -/

section Sem

variable {pol : KvPolicy} {s s' : SpatioTemporalStore L}

/-- An operation that does not wait succeeds with its answer, or fails and changes nothing. -/
theorem sem_iff_answer {o : StoreOp} {r r₁ : o.Resp} {s₁ : SpatioTemporalStore L}
    (hrun : o.run s = some (r₁, s₁)) :
    storeSem L pol o s r s' ↔ StoreOp.MayRun pol s o ∧ r = r₁ ∧ s' = s₁ ∨
      StoreOp.MayFail pol s o ∧ (∃ err, o.failure err = some r) ∧ s' = s := by
  rw [storeSem, hrun, Option.some.injEq, Prod.mk.injEq, @eq_comm _ r₁, @eq_comm _ s₁]

/-- An operation that never fails does what it does when it succeeds. -/
theorem sem_iff_run {o : StoreOp} {r : o.Resp} (hmay : StoreOp.MayRun pol s o)
    (hfail : ∀ err, o.failure err = none) :
    storeSem L pol o s r s' ↔ o.run s = some (r, s') := by
  constructor
  · rintro (⟨-, h⟩ | ⟨-, ⟨err, herr⟩, -⟩)
    · exact h
    · rw [hfail err] at herr
      cases herr
  · intro h
    exact .inl ⟨hmay, h⟩

theorem sem_iff_of_run {o : StoreOp} {r r₁ : o.Resp} {s₁ : SpatioTemporalStore L}
    (hrun : o.run s = some (r₁, s₁)) (hmay : StoreOp.MayRun pol s o)
    (hfail : ∀ err, o.failure err = none) : storeSem L pol o s r s' ↔ r = r₁ ∧ s' = s₁ := by
  rw [sem_iff_run hmay hfail, hrun, Option.some.injEq, Prod.mk.injEq, @eq_comm _ r₁, @eq_comm _ s₁]

theorem sem_markUnlessSealed {e : Epoch} {r : Bool} :
    storeSem L pol (.markUnlessSealed e) s r s' ↔
      e ∈ s.sealState.sealed ∧ r = false ∧ s' = s ∨
        e ∉ s.sealState.sealed ∧ r = true ∧ s' = { s with sealState := s.sealState.mark e } := by
  by_cases h : e ∈ s.sealState.sealed
  · have hrun : StoreOp.run (.markUnlessSealed e) s = some (false, s) := if_pos h
    rw [sem_iff_of_run hrun trivial fun _ => rfl]
    simp only [h, true_and, not_true_eq_false, false_and, or_false]
  · have hrun : StoreOp.run (.markUnlessSealed e) s =
      some (true, { s with sealState := s.sealState.mark e }) := if_neg h
    rw [sem_iff_of_run hrun trivial fun _ => rfl]
    simp only [h, true_and, not_false_eq_true, false_and, false_or]

theorem sem_removeSealedAndMark {e : Epoch} {r : Unit} :
    storeSem L pol (.removeSealedAndMark e) s r s' ↔
      s' = { s with sealState := (s.sealState.removeSealed e).mark e } :=
  (sem_iff_of_run rfl (by trivial) fun _ => rfl).trans (and_iff_right rfl)

theorem sem_endMarks {es : List Epoch} {r : Unit} :
    storeSem L pol (.endMarks es) s r s' ↔
      s' = { s with sealState := es.foldl SealState.unmark s.sealState } :=
  (sem_iff_of_run rfl (by trivial) fun _ => rfl).trans (and_iff_right rfl)

theorem sem_trySeal {e : Epoch} {r : Bool} :
    storeSem L pol (.trySeal e) s r s' ↔
      (e ∈ s.sealState.sealed ∨ (s.sealState.inflight[e]?).isSome) ∧ r = false ∧ s' = s ∨
        (e ∉ s.sealState.sealed ∧ s.sealState.inflight[e]? = none) ∧ r = true ∧
          s' = { s with sealState := s.sealState.insertSealed e } := by
  have hneg : (e ∉ s.sealState.sealed ∧ s.sealState.inflight[e]? = none) ↔
      ¬ (e ∈ s.sealState.sealed ∨ (s.sealState.inflight[e]?).isSome) := by
    rw [not_or, Option.not_isSome_iff_eq_none]
  rw [hneg]
  by_cases h : e ∈ s.sealState.sealed ∨ (s.sealState.inflight[e]?).isSome
  · have hrun : StoreOp.run (.trySeal e) s = some (false, s) := if_pos h
    rw [sem_iff_of_run hrun trivial fun _ => rfl]
    simp only [h, true_and, not_true_eq_false, false_and, or_false]
  · have hrun : StoreOp.run (.trySeal e) s =
      some (true, { s with sealState := s.sealState.insertSealed e }) := if_neg h
    rw [sem_iff_of_run hrun trivial fun _ => rfl]
    simp only [h, true_and, not_false_eq_true, false_and, false_or]

theorem sem_removeSealed {e : Epoch} {r : Unit} :
    storeSem L pol (.removeSealed e) s r s' ↔
      s' = { s with sealState := s.sealState.removeSealed e } :=
  (sem_iff_of_run rfl (by trivial) fun _ => rfl).trans (and_iff_right rfl)

theorem sem_lockSealIo {r : Unit} :
    storeSem L pol .lockSealIo s r s' ↔ s.sealIo = false ∧ s' = { s with sealIo := true } := by
  apply (sem_iff_run (by trivial) fun _ => rfl).trans
  rw [StoreOp.run]
  cases h : s.sealIo with
  | true => simp only [↓reduceIte, reduceCtorEq, false_and]
  | false =>
    simp only [Bool.false_eq_true, ↓reduceIte, Option.some.injEq, Prod.mk.injEq, true_and]
    exact eq_comm

theorem sem_unlockSealIo {r : Unit} :
    storeSem L pol .unlockSealIo s r s' ↔ s' = { s with sealIo := false } :=
  (sem_iff_of_run rfl (by trivial) fun _ => rfl).trans (and_iff_right rfl)

theorem sem_kvBegin {r : Except String ℕ} :
    storeSem L pol .kvBegin s r s' ↔
      (r = .ok s.tree.log.length ∨ pol.opFails ∧ ∃ err, r = .error err) ∧ s' = s := by
  apply (sem_iff_answer rfl).trans
  show True ∧ r = _ ∧ _ ∨ pol.opFails ∧ (∃ err, some (.error err) = some r) ∧ _ ↔ _
  simp only [true_and, Option.some.injEq, @eq_comm _ _ r, ← and_assoc, ← or_and_right]

theorem sem_kvStage {w : KvWrite} {r : Except String Unit} :
    storeSem L pol (.kvStage w) s r s' ↔
      (r = .ok () ∨ pol.opFails ∧ ∃ err, r = .error err) ∧ s' = s := by
  apply (sem_iff_answer rfl).trans
  show True ∧ r = _ ∧ _ ∨ pol.opFails ∧ (∃ err, some (.error err) = some r) ∧ _ ↔ _
  simp only [true_and, Option.some.injEq, @eq_comm _ _ r, ← and_assoc, ← or_and_right]

theorem sem_kvGet {k : Bytes} {r : Except String (Option Bytes)} :
    storeSem L pol (.kvGet k) s r s' ↔
      (r = .ok (s.tree.get k) ∨ pol.opFails ∧ ∃ err, r = .error err) ∧ s' = s := by
  apply (sem_iff_answer rfl).trans
  show True ∧ r = _ ∧ _ ∨ pol.opFails ∧ (∃ err, some (.error err) = some r) ∧ _ ↔ _
  simp only [true_and, Option.some.injEq, @eq_comm _ _ r, ← and_assoc, ← or_and_right]

theorem sem_kvCommit {n : ℕ} {ws : List KvWrite} {r : Except String Unit} :
    storeSem L pol (.kvCommit n ws) s r s' ↔
      pol.commitOk s.tree n ws ∧ r = .ok () ∧ s' = { s with tree := s.tree.commit ws } ∨
        pol.commitFails s.tree n ws ∧ (∃ err, r = .error err) ∧ s' = s := by
  apply (sem_iff_answer rfl).trans
  show _ ∧ _ ∨ pol.commitFails s.tree n ws ∧ (∃ err, some (.error err) = some r) ∧ _ ↔ _
  simp only [Option.some.injEq, @eq_comm _ _ r]
  rfl

theorem sem_foldMerkle {edits : List MerkleEdit} {r : Unit} :
    storeSem L pol (.foldMerkle edits) s r s' ↔
      s' = { s with merkle := s.merkle.editAll edits } :=
  (sem_iff_of_run rfl (by trivial) fun _ => rfl).trans (and_iff_right rfl)

theorem sem_merkleEpochs {r : List Epoch} :
    storeSem L pol .merkleEpochs s r s' ↔ r = s.merkle.epochs ∧ s' = s :=
  sem_iff_of_run rfl (by trivial) fun _ => rfl

theorem sem_serializeEpoch {e : Epoch} {r : Option Bytes} :
    storeSem L pol (.serializeEpoch e) s r s' ↔ r = s.merkle.serializeEpoch e ∧ s' = s :=
  sem_iff_of_run rfl (by trivial) fun _ => rfl

theorem sem_publish {x : Row} {r : Unit} :
    storeSem L pol (.publish x) s r s' ↔ s' = s.publish x :=
  (sem_iff_of_run rfl (by trivial) fun _ => rfl).trans (and_iff_right rfl)

/-! ## The seal bookkeeping -/

/-- What an operation does to the seal bookkeeping, by its answer. -/
def StoreOp.onSealState : (o : StoreOp) → o.Resp → SealState → SealState
  | .markUnlessSealed e, true, t => t.mark e
  | .removeSealedAndMark e, _, t => (t.removeSealed e).mark e
  | .endMarks es, _, t => es.foldl SealState.unmark t
  | .trySeal e, true, t => t.insertSealed e
  | .removeSealed e, _, t => t.removeSealed e
  | _, _, t => t

/-- **The seal bookkeeping after an operation.** -/
theorem sealState_step {o : StoreOp} {r : o.Resp} (ho : storeSem L pol o s r s') :
    s'.sealState = o.onSealState r s.sealState := by
  cases o with
  | markUnlessSealed e =>
    rcases sem_markUnlessSealed.1 ho with ⟨-, rfl, rfl⟩ | ⟨-, rfl, rfl⟩
    · rfl
    · rfl
  | removeSealedAndMark e =>
    obtain rfl := sem_removeSealedAndMark.1 ho
    rfl
  | endMarks es =>
    obtain rfl := sem_endMarks.1 ho
    rfl
  | trySeal e =>
    rcases sem_trySeal.1 ho with ⟨-, rfl, rfl⟩ | ⟨-, rfl, rfl⟩
    · rfl
    · rfl
  | removeSealed e =>
    obtain rfl := sem_removeSealed.1 ho
    rfl
  | lockSealIo =>
    obtain ⟨-, rfl⟩ := sem_lockSealIo.1 ho
    rfl
  | unlockSealIo =>
    obtain rfl := sem_unlockSealIo.1 ho
    rfl
  | kvBegin =>
    obtain ⟨-, rfl⟩ := sem_kvBegin.1 ho
    rfl
  | kvStage w =>
    obtain ⟨-, rfl⟩ := sem_kvStage.1 ho
    rfl
  | kvCommit n ws =>
    rcases sem_kvCommit.1 ho with ⟨-, -, rfl⟩ | ⟨-, -, rfl⟩
    · rfl
    · rfl
  | kvGet k =>
    obtain ⟨-, rfl⟩ := sem_kvGet.1 ho
    rfl
  | foldMerkle edits =>
    obtain rfl := sem_foldMerkle.1 ho
    rfl
  | merkleEpochs =>
    obtain ⟨-, rfl⟩ := sem_merkleEpochs.1 ho
    rfl
  | serializeEpoch e =>
    obtain ⟨-, rfl⟩ := sem_serializeEpoch.1 ho
    rfl
  | publish x =>
    obtain rfl := sem_publish.1 ho
    unfold SpatioTemporalStore.publish
    split_ifs
    · rfl
    · rfl

end Sem

end InterstellarDb
