import InterstellarDb.Foundations.Atomic.Trace
import InterstellarDb.Store.Trust

/-!
# Calls that are dropped

A call suspends where it waits for `seal_io` and where it waits for a commit (`StoreOp.awaits`).
When its future is dropped there, the guard of `seal_io` is released, a pending commit may have
taken effect, and nothing else of the call runs: neither the fold of its rows nor
`end_write_epochs`.

`beginWriteEpoch` suspends twice for a sealed epoch and not at all for another one, before it marks
the epoch. So a dropped write leaves no mark and the forest as it should be exactly when it is
dropped at one of the two suspensions of its first epoch, or has no epoch (`unharmed_iff`).
-/

namespace InterstellarDb

open Atomic KvTree

variable {L : LeafDepth}

/-! ## Dropping a call -/

/-- The operations at which a call suspends. -/
def StoreOp.awaits : StoreOp → Bool
  | .lockSealIo => true
  | .kvCommit _ _ => true
  | _ => false

/-- Dropping a call that awaits the operation: the lock is not acquired; the commit took effect or
did not, and `seal_io` is released. -/
def StoreOp.drop : StoreOp → SpatioTemporalStore L → SpatioTemporalStore L → Prop
  | .lockSealIo => fun s s' => s' = s
  | .kvCommit _ ws => fun s s' =>
    s' = { s with sealIo := false } ∨ s' = { s with tree := s.tree.commit ws, sealIo := false }
  | _ => fun _ _ => False

theorem StoreOp.not_drop {o : StoreOp} (ho : o.awaits = false) {s s' : SpatioTemporalStore L} :
    ¬ o.drop s s' := by
  cases o with
  | lockSealIo => cases ho
  | kvCommit n ws => cases ho
  | _ => exact id

/-- How often a call has suspended and gone on in a trace. -/
def suspensions (t : List (Event storeSig (SpatioTemporalStore L))) : ℕ :=
  t.countP fun x => x.op.awaits

theorem suspensions_cons (x : Event storeSig (SpatioTemporalStore L))
    (t : List (Event storeSig (SpatioTemporalStore L))) :
    suspensions (x :: t) = suspensions t + if x.op.awaits = true then 1 else 0 :=
  List.countP_cons ..

theorem suspensions_append (t₁ t₂ : List (Event storeSig (SpatioTemporalStore L))) :
    suspensions (t₁ ++ t₂) = suspensions t₁ + suspensions t₂ :=
  List.countP_append ..

namespace StoreCall

/-- The call is a write. -/
def IsWrite : StoreCall → Prop
  | .sealSettledEpochs _ _ => False
  | _ => True

end StoreCall

/-- Nothing runs on the store, and its forest is the fold of its rows. -/
structure Idle [Sha256] (s : SpatioTemporalStore L) : Prop where
  fold : FoldOf s.merkle s.rows
  marks : ∀ e, s.sealState.marks e = 0
  sealIo : s.sealIo = false

/-- No epoch is marked, and the forest is the fold of the rows. -/
structure Unharmed [Sha256] (s : SpatioTemporalStore L) : Prop where
  marks : ∀ e, s.sealState.marks e = 0
  fold : FoldOf s.merkle s.rows

/-! ## Suspensions -/

section Runs

variable [Sha256] {pol : KvPolicy} {s s' : SpatioTemporalStore L}
  {t : List (Event storeSig (SpatioTemporalStore L))}

/-- From `s` to `s'`, the rows, the forest and the marks stayed. -/
structure Untouched (s s' : SpatioTemporalStore L) : Prop where
  table : s'.table = s.table
  merkle : s'.merkle = s.merkle
  sealState : s'.sealState = s.sealState

/-- A call is not dropped at an operation that does not suspend it. -/
theorem not_dropped_op_bind {α : Type} {o : StoreOp} (ho : o.awaits = false)
    {f : o.Resp → StoreProg α}
    (hf : ∀ r s₁ t', ¬ Dropped (storeSem L pol) StoreOp.drop (f r) s₁ t' s') :
    ¬ Dropped (storeSem L pol) StoreOp.drop (atomic o >>= f) s t s' := by
  intro h
  rcases dropped_op_bind.1 h with ⟨-, hdrop⟩ | ⟨r, s₁, t', -, -, hrest⟩
  · exact StoreOp.not_drop ho hdrop
  · exact hf r s₁ t' hrest

theorem not_dropped_op_ret {α : Type} {o : StoreOp} (ho : o.awaits = false) {f : o.Resp → α} :
    ¬ Dropped (storeSem L pol) StoreOp.drop (atomic o >>= fun r => .ret (f r)) s t s' :=
  not_dropped_op_bind ho fun _ _ _ => not_dropped_ret

theorem traced_stageAll {ws : List KvWrite} {r : Except String Unit}
    (h : Traced (storeSem L pol) (stageAll ws) s t r s') : suspensions t = 0 ∧ s' = s := by
  induction ws generalizing t with
  | nil =>
    obtain ⟨rfl, rfl, -⟩ := h
    exact ⟨rfl, rfl⟩
  | cons w ws ih =>
    obtain ⟨x, s₁, t', rfl, hx, h⟩ := h
    obtain ⟨hr, rfl⟩ := sem_kvStage.1 hx
    rcases hr with rfl | ⟨-, err, rfl⟩
    · obtain ⟨hsusp, rfl⟩ := ih h
      exact ⟨hsusp, rfl⟩
    · obtain ⟨rfl, rfl, -⟩ := h
      exact ⟨rfl, rfl⟩

theorem not_dropped_stageAll {ws : List KvWrite} :
    ¬ Dropped (storeSem L pol) StoreOp.drop (stageAll ws) s t s' := by
  induction ws generalizing s t with
  | nil => exact not_dropped_ret
  | cons w ws ih =>
    refine not_dropped_op_bind rfl fun r s₁ t' => ?_
    cases r with
    | error err => exact not_dropped_ret
    | ok _ => exact ih

theorem not_dropped_publishAll {rows : List Row} :
    ¬ Dropped (storeSem L pol) StoreOp.drop (publishAll rows) s t s' := by
  induction rows generalizing s t with
  | nil => exact not_dropped_ret
  | cons r rows ih => exact not_dropped_op_bind rfl fun _ _ _ => ih

/-- A transaction suspends at its commit. -/
theorem dropped_commitWrites {ws : List KvWrite}
    (h : Dropped (storeSem L pol) StoreOp.drop (commitWrites ws) s t s') :
    suspensions t = 0 ∧ (s' = { s with sealIo := false } ∨
      s' = { s with tree := s.tree.commit ws, sealIo := false }) := by
  rcases dropped_op_bind.1 h with ⟨-, hdrop⟩ | ⟨r, s₁, t', rfl, hbegin, hrest⟩
  · exact hdrop.elim
  · obtain ⟨hr, rfl⟩ := sem_kvBegin.1 hbegin
    rcases hr with rfl | ⟨-, err, rfl⟩
    · rcases dropped_bind.1 hrest with hstage | ⟨t₁, r, s₂, t₂, rfl, hstage, hcommit⟩
      · exact (not_dropped_stageAll hstage).elim
      · obtain ⟨hsusp, rfl⟩ := traced_stageAll hstage
        cases r with
        | error err => exact hcommit.elim
        | ok _ =>
          obtain ⟨rfl, hdrop⟩ := dropped_op.1 hcommit
          rw [List.append_nil]
          exact ⟨hsusp, hdrop⟩
    · exact hrest.elim

/-- A transaction that commits has suspended once. -/
theorem traced_commitWrites {ws : List KvWrite}
    (h : Traced (storeSem L pol) (commitWrites ws) s t (.ok ()) s') : suspensions t = 1 := by
  obtain ⟨r, s₁, t', rfl, hbegin, hrest⟩ := traced_op_bind.1 h
  obtain ⟨hr, rfl⟩ := sem_kvBegin.1 hbegin
  rcases hr with rfl | ⟨-, err, rfl⟩
  · obtain ⟨t₁, r, s₂, t₂, rfl, hstage, hcommit⟩ := traced_bind.1 hrest
    obtain ⟨hsusp, rfl⟩ := traced_stageAll hstage
    cases r with
    | error err => cases hcommit.2.2
    | ok _ =>
      obtain ⟨r, s₃, t₃, rfl, -, rfl, -, -⟩ := hcommit
      rw [suspensions_cons, suspensions_append, hsusp]
      rfl
  · cases hrest.2.2

/-! ## Begin marks -/

/-- Only a sealed epoch suspends its call, at most twice, before the epoch is marked. -/
theorem dropped_beginWriteEpoch {e : Epoch}
    (h : Dropped (storeSem L pol) StoreOp.drop (beginWriteEpoch e) s t s') :
    e ∈ s.sealState.sealed ∧ suspensions t < 2 ∧ Untouched s s' := by
  rcases dropped_op_bind.1 h with ⟨-, hdrop⟩ | ⟨r, s₁, t', rfl, hmark, hrest⟩
  · exact hdrop.elim
  rcases sem_markUnlessSealed.1 hmark with ⟨he, rfl, rfl⟩ | ⟨-, rfl, rfl⟩
  · refine ⟨he, ?_⟩
    rcases dropped_op_bind.1 hrest with ⟨rfl, rfl⟩ | ⟨r, s₂, t₂, rfl, hlock, hdelete⟩
    · exact ⟨Nat.two_pos, rfl, rfl, rfl⟩
    · obtain ⟨-, rfl⟩ := sem_lockSealIo.1 hlock
      rcases dropped_bind.1 hdelete with hcommit | ⟨t₁, r, s₃, t₃, rfl, -, hmark⟩
      · obtain ⟨hsusp, hs'⟩ := dropped_commitWrites hcommit
        refine ⟨?_, ?_⟩
        · rw [suspensions_cons, suspensions_cons, hsusp]
          exact Nat.lt_succ_self 1
        · rcases hs' with rfl | rfl
          · exact ⟨rfl, rfl, rfl⟩
          · exact ⟨table_deleteRecord _ _, rfl, rfl⟩
      · -- the record is gone or not, and what follows does not suspend
        cases r with
        | error err =>
          exact (not_dropped_op_ret rfl hmark).elim
        | ok _ =>
          exact (not_dropped_op_bind rfl (fun _ _ _ => not_dropped_op_ret rfl) hmark).elim
  · exact hrest.elim

/-- A sealed epoch suspends its call twice before it is marked. -/
theorem traced_beginWriteEpoch {e : Epoch} (he : e ∈ s.sealState.sealed)
    (h : Traced (storeSem L pol) (beginWriteEpoch e) s t (.ok ()) s') : suspensions t = 2 := by
  obtain ⟨r, s₁, t', rfl, hmark, hrest⟩ := traced_op_bind.1 h
  rcases sem_markUnlessSealed.1 hmark with ⟨-, rfl, rfl⟩ | ⟨hnot, -, -⟩
  · obtain ⟨r, s₂, t₂, rfl, -, hdelete⟩ := traced_op_bind.1 hrest
    obtain ⟨t₁, r, s₃, t₃, rfl, hcommit, hmark⟩ := traced_bind.1 hdelete
    cases r with
    | error err =>
      obtain ⟨r, s₄, t₄, rfl, -, hret⟩ := traced_op_bind.1 hmark
      cases hret.2.2
    | ok _ =>
      obtain ⟨r, s₄, t₄, rfl, -, hunlock⟩ := traced_op_bind.1 hmark
      obtain ⟨r, s₅, t₅, rfl, -, rfl, -, -⟩ := traced_op_bind.1 hunlock
      rw [suspensions_cons, suspensions_cons, suspensions_append, traced_commitWrites hcommit]
      rfl
  · exact absurd he hnot

/-- A call that is dropped while it begins epochs keeps the marks that it has. -/
theorem marks_of_dropped_begin {marked es : List Epoch}
    (h : Dropped (storeSem L pol) StoreOp.drop (beginWriteEpochsFrom marked es) s t s')
    (e : Epoch) : s.sealState.marks e ≤ s'.sealState.marks e := by
  induction es generalizing marked s t with
  | nil => exact h.elim
  | cons e' es ih =>
    rcases dropped_bind.1 h with hfirst | ⟨t₁, r, s₁, t₂, rfl, hfirst, hrest⟩
    · rw [(dropped_beginWriteEpoch hfirst).2.2.sealState]
    · rcases alone_beginWriteEpoch hfirst.alone with ⟨rfl, rfl⟩ | ⟨⟨err, rfl⟩, rfl⟩
      · have hmark := (SpatioTemporalStore.unsealed_beginEpoch s e').2 e
        have hmono := ih hrest
        omega
      · exact (not_dropped_op_ret rfl hrest).elim

/-- A call that is dropped while it begins epochs is dropped before the first one is marked, or
leaves it marked. -/
theorem dropped_beginWriteEpochs {marked es : List Epoch} {e : Epoch}
    (h : Dropped (storeSem L pol) StoreOp.drop (beginWriteEpochsFrom marked (e :: es)) s t s') :
    (e ∈ s.sealState.sealed ∧ suspensions t < 2 ∧ Untouched s s') ∨
    ((e ∈ s.sealState.sealed → 2 ≤ suspensions t) ∧
      s.sealState.marks e < s'.sealState.marks e) := by
  rcases dropped_bind.1 h with hfirst | ⟨t₁, r, s₁, t₂, rfl, hfirst, hrest⟩
  · exact .inl (dropped_beginWriteEpoch hfirst)
  rcases alone_beginWriteEpoch hfirst.alone with ⟨rfl, rfl⟩ | ⟨⟨err, rfl⟩, rfl⟩
  · refine .inr ⟨fun he => ?_, ?_⟩
    · rw [suspensions_append, traced_beginWriteEpoch he hfirst]
      exact Nat.le_add_right 2 _
    · have hmark := (SpatioTemporalStore.unsealed_beginEpoch s e).2 e
      have hmono := marks_of_dropped_begin hrest e
      rw [if_pos rfl] at hmark
      omega
  · exact (not_dropped_op_ret rfl hrest).elim

/-- A call that has begun its epochs leaves the first one marked. -/
theorem traced_beginWriteEpochs {es : List Epoch} {e : Epoch}
    (h : Traced (storeSem L pol) (beginWriteEpochs (e :: es)) s t (.ok ()) s') :
    (e ∈ s.sealState.sealed → 2 ≤ suspensions t) ∧
      s.sealState.marks e < s'.sealState.marks e := by
  refine ⟨fun he => ?_, ?_⟩
  · obtain ⟨t₁, r, s₁, t₂, rfl, hfirst, hrest⟩ := traced_bind.1 h
    cases r with
    | error err =>
      obtain ⟨r, s₂, t₃, rfl, -, hret⟩ := traced_op_bind.1 hrest
      cases hret.2.2
    | ok _ =>
      rw [suspensions_append, traced_beginWriteEpoch he hfirst]
      exact Nat.le_add_right 2 _
  · rcases alone_beginWriteEpochsFrom (.nil s) h.alone with ⟨-, hbegun⟩ | ⟨⟨err, herr⟩, -⟩
    · have hmark := hbegun.marks e
      rw [List.nil_append, List.count_cons_self] at hmark
      omega
    · cases herr

/-! ## Writes -/

/-- A write is dropped in the transaction of its rows, after all its epochs were begun. -/
theorem dropped_commitAndFold {edits : List MerkleEdit} {rows : List Row}
    (h : Dropped (storeSem L pol) StoreOp.drop (commitAndFold edits rows) s t s') :
    s'.merkle = s.merkle ∧ s'.sealState = s.sealState ∧
      (s'.table = s.table ∨ s'.table = writeAll s.table rows) := by
  rcases dropped_bind.1 h with hcommit | ⟨t₁, r, s₁, t₂, rfl, -, hrest⟩
  · rcases (dropped_commitWrites hcommit).2 with rfl | rfl
    · exact ⟨rfl, rfl, .inl rfl⟩
    · exact ⟨rfl, rfl, .inr (table_setRows _ _)⟩
  · cases r with
    | error err => exact hrest.elim
    | ok _ =>
      refine (not_dropped_op_bind rfl (fun _ _ _ hpublish => ?_) hrest).elim
      exact not_dropped_publishAll (dropped_of_bind_ret hpublish)

/-- **Where a write is dropped**: before it marks its first epoch, while it commits rows without any
epoch, or when its first epoch is marked. -/
theorem dropped_writeRows {es : List Epoch} {edits : List MerkleEdit} {rows : List Row}
    (h : Dropped (storeSem L pol) StoreOp.drop (writeRows es edits rows) s t s') :
    (∃ e rest, es = e :: rest ∧ e ∈ s.sealState.sealed ∧ suspensions t < 2 ∧ Untouched s s') ∨
    (es = [] ∧ s'.merkle = s.merkle ∧ s'.sealState = s.sealState ∧
      (s'.table = s.table ∨ s'.table = writeAll s.table rows)) ∨
    ∃ e rest, es = e :: rest ∧ (e ∈ s.sealState.sealed → 2 ≤ suspensions t) ∧
      s.sealState.marks e < s'.sealState.marks e := by
  rcases dropped_bind.1 h with hbegin | ⟨t₁, r, s₁, t₂, rfl, hbegin, hrest⟩
  · cases es with
    | nil => exact (not_dropped_ret hbegin).elim
    | cons e es =>
      rcases dropped_beginWriteEpochs hbegin with hbefore | hafter
      · exact .inl ⟨e, es, rfl, hbefore⟩
      · exact .inr (.inr ⟨e, es, rfl, hafter⟩)
  cases r with
  | error err => exact (not_dropped_ret hrest).elim
  | ok _ =>
    rcases dropped_bind.1 hrest with hcommit | ⟨t₃, r, s₂, t₄, rfl, -, hend⟩
    · obtain ⟨hmerkle, hseal, htable⟩ := dropped_commitAndFold hcommit
      cases es with
      | nil =>
        obtain ⟨rfl, rfl, -⟩ := hbegin
        exact .inr (.inl ⟨rfl, hmerkle, hseal, htable⟩)
      | cons e es =>
        obtain ⟨hsusp, hmarks⟩ := traced_beginWriteEpochs hbegin
        refine .inr (.inr ⟨e, es, rfl, fun he => ?_, ?_⟩)
        · rw [suspensions_append]
          exact (hsusp he).trans (Nat.le_add_right _ _)
        · rwa [hseal]
    · exact (not_dropped_op_ret rfl hend).elim

/-! ## Calls -/

/-- A call that is dropped is dropped in its write. -/
theorem dropped_call {c : StoreCall} (hc : c.IsWrite)
    (h : Dropped (storeSem L pol) StoreOp.drop (c.prog s.indexer) s t s') :
    ∃ t' edits, suspensions t' = suspensions t ∧
      Dropped (storeSem L pol) StoreOp.drop
        (writeRows (c.epochs s.indexer) edits (c.rows s.indexer)) s t' s' := by
  cases c with
  | store x => exact ⟨t, _, rfl, dropped_of_bind_ret (dropped_of_bind_ret h)⟩
  | storeBatch xs => exact ⟨t, _, rfl, dropped_of_bind_ret (dropped_of_bind_ret h)⟩
  | ingest k v =>
    rcases dropped_op_bind.1 h with ⟨-, hdrop⟩ | ⟨r, s₁, t', rfl, hget, hrest⟩
    · exact hdrop.elim
    · obtain ⟨hr, rfl⟩ := sem_kvGet.1 hget
      rcases hr with rfl | ⟨-, err, rfl⟩
      · change Dropped _ _ (if keepsExisting k v (s₁.table k) then _ else _) _ _ _ at hrest
        split_ifs at hrest
        · exact (not_dropped_ret hrest).elim
        · refine ⟨t', _, ?_, dropped_of_bind_ret hrest⟩
          rw [suspensions_cons]
          rfl
      · exact hrest.elim
  | sealSettledEpochs now grace => exact hc.elim

omit [Sha256] in
/-- A write without an epoch has no rows. -/
theorem rows_of_epochs_eq_nil {ix : HybridSpatioTemporalIndexer} {c : StoreCall} (hc : c.IsWrite)
    (h : c.epochs ix = []) : c.rows ix = [] := by
  cases c with
  | store x => cases h
  | storeBatch xs =>
    refine List.eq_nil_iff_forall_not_mem.2 fun r hr => ?_
    have hmem := mem_distinctEpochs.2 ⟨r.1, List.mem_map_of_mem hr, rfl⟩
    change distinctEpochs ((StoreCall.rows ix (.storeBatch xs)).map Prod.fst) = [] at h
    rw [h] at hmem
    exact List.not_mem_nil hmem
  | ingest k v => cases h
  | sealSettledEpochs now grace => exact hc.elim

/-- **When a dropped write does no harm**: exactly when it is dropped at one of the suspensions of
its first epoch, which is sealed, or when it has no epoch. -/
theorem unharmed_iff {c : StoreCall} (hc : c.IsWrite) (hs : Idle s)
    (h : Dropped (storeSem L pol) StoreOp.drop (c.prog s.indexer) s t s') :
    Unharmed s' ↔ c.epochs s.indexer = [] ∨
      ∃ e rest, c.epochs s.indexer = e :: rest ∧ e ∈ s.sealState.sealed ∧ suspensions t < 2 := by
  obtain ⟨t', edits, ht', hw⟩ := dropped_call hc h
  rw [← ht']
  constructor
  · intro hsafe
    rcases dropped_writeRows hw with ⟨e, rest, he, hsealed, hsusp, -⟩ | ⟨he, -⟩ |
      ⟨e, rest, -, -, hmarks⟩
    · exact .inr ⟨e, rest, he, hsealed, hsusp⟩
    · exact .inl he
    · rw [hsafe.marks e] at hmarks
      exact absurd hmarks (Nat.not_lt_zero _)
  · intro hcond
    have hunharmed : s'.table = s.table → s'.merkle = s.merkle → s'.sealState = s.sealState →
        Unharmed s' := by
      intro htable hmerkle hseal
      refine ⟨fun e => ?_, ?_⟩
      · rw [hseal]
        exact hs.marks e
      · rw [hmerkle, show s'.rows = s.rows from rows_congr htable]
        exact hs.fold
    rcases dropped_writeRows hw with ⟨e, rest, -, -, -, hsame⟩ | ⟨he, hmerkle, hseal, htable⟩ |
      ⟨e, rest, he, hsusp, -⟩
    · exact hunharmed hsame.table hsame.merkle hsame.sealState
    · rw [rows_of_epochs_eq_nil hc he] at htable
      exact hunharmed (htable.elim id id) hmerkle hseal
    · rcases hcond with hnil | ⟨e', rest', he', hsealed, hlt⟩
      · rw [hnil] at he
        cases he
      · obtain ⟨rfl, rfl⟩ := List.cons.inj (he'.symm.trans he)
        exact absurd (hsusp hsealed) (Nat.not_le.2 hlt)

end Runs

/-! ## A call dropped at its commit -/

section Sample

local instance cancelSha : Sha256 := sampleDigests

/-- The row that `storeCorner` writes. -/
def cornerRow : Row := BatchRecord.row testIndexer ⟨-1000, -1000, -1000, 0, 0, [0x61]⟩

/-- The store when `storeCorner` was dropped at its commit, and the commit took effect. -/
def droppedCorner : SpatioTemporalStore merkleLeafDepth :=
  { sampleStore with
    sealState := sampleStore.sealState.mark (keyEpoch cornerRow.1)
    tree := sampleStore.tree.commit (setRows [cornerRow])
    sealIo := false }

theorem idle_sampleStore : Idle sampleStore where
  fold := (trusted_empty (D := Set.univ) testIndexer trivial).fold
  marks := marks_openStore testIndexer .empty
  sealIo := rfl

/-- The epoch is marked, and the row is staged. -/
theorem dropped_storeCorner : ∃ t, Dropped (storeSem merkleLeafDepth .reliable) StoreOp.drop
    ((storeCorner 0 [0x61]).prog sampleStore.indexer) sampleStore t droppedCorner := by
  have hnot : keyEpoch cornerRow.1 ∉ sampleStore.sealState.sealed := by decide +kernel
  apply exists_dropped_of_sem (sem_markUnlessSealed.2 (.inr ⟨hnot, rfl, rfl⟩))
  apply exists_dropped_of_sem (sem_kvBegin.2 ⟨.inl rfl, rfl⟩)
  apply exists_dropped_of_sem (sem_kvStage.2 ⟨.inl rfl, rfl⟩)
  exact exists_dropped_of_drop (.inr rfl)

theorem unharmed_iff_droppedCorner : ∃ t, Unharmed droppedCorner ↔
    (storeCorner 0 [0x61]).epochs sampleStore.indexer = [] ∨ ∃ e rest,
      (storeCorner 0 [0x61]).epochs sampleStore.indexer = e :: rest ∧
        e ∈ sampleStore.sealState.sealed ∧ suspensions (L := merkleLeafDepth) t < 2 := by
  obtain ⟨t, ht⟩ := dropped_storeCorner
  exact ⟨t, unharmed_iff trivial idle_sampleStore ht⟩

/-- **A call that is dropped at its commit leaves its epoch marked.** -/
theorem not_unharmed :
    ¬ ∀ (c : StoreCall) (s s' : SpatioTemporalStore merkleLeafDepth)
      (t : List (Event storeSig (SpatioTemporalStore merkleLeafDepth))),
      c.IsWrite → (∀ r ∈ c.rows s.indexer, s.table r.1 = none) → Idle s →
      Dropped (storeSem merkleLeafDepth .reliable) StoreOp.drop (c.prog s.indexer) s t s' →
      Unharmed s' := by
  intro h
  obtain ⟨t, ht⟩ := dropped_storeCorner
  have hfresh : ∀ r ∈ (storeCorner 0 [0x61]).rows sampleStore.indexer,
      sampleStore.table r.1 = none := by decide +kernel
  have hsafe := h (storeCorner 0 [0x61]) sampleStore droppedCorner t trivial hfresh
    idle_sampleStore ht
  have hmark : droppedCorner.sealState.marks (keyEpoch cornerRow.1) = 1 := by decide +kernel
  exact absurd (hmark.symm.trans (hsafe.marks _)) one_ne_zero

end Sample

end InterstellarDb
