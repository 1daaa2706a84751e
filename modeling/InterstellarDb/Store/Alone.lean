import InterstellarDb.Store.Code

/-!
# Methods that run alone

What the methods of the store do when nothing interferes. A write either fails, leaving at most
some of its epochs unsealed, or unseals its epochs, writes its rows, folds its edits and publishes
(`alone_writeRows`). A sealing pass seals some epochs and changes nothing else
(`alone_sealSettledEpochs`). Failures of the key-value tree are included.
-/

namespace InterstellarDb

open Atomic

variable {L : LeafDepth}

/-! ## Atomic transitions -/

/-- From `s` to `s'`, the epochs `es` were unsealed and nothing else changed but the log. -/
structure Unsealed (es : List Epoch) (s s' : SpatioTemporalStore L) : Prop where
  indexer : s'.indexer = s.indexer
  table : s'.table = s.table
  record : ∀ e, s'.tree.record e =
    if e ∈ es ∧ e ∈ s.sealState.sealed then none else s.tree.record e
  merkle : s'.merkle = s.merkle
  sealed : ∀ e, e ∈ s'.sealState.sealed ↔ e ∈ s.sealState.sealed ∧ e ∉ es
  marks : ∀ e, s'.sealState.marks e = s.sealState.marks e
  sealIo : s'.sealIo = s.sealIo
  receivers : s'.receivers = s.receivers
  events : s'.events = s.events

/-- From `s` to `s'`, the rows were written, the edits folded and the rows published. -/
structure Written [Sha256] (edits : List MerkleEdit) (rows : List Row)
    (s s' : SpatioTemporalStore L) : Prop where
  indexer : s'.indexer = s.indexer
  tree : s'.tree = s.tree.commit (KvTree.setRows rows)
  merkle : s'.merkle = s.merkle.editAll edits
  sealed : s'.sealState.sealed = s.sealState.sealed
  marks : ∀ e, s'.sealState.marks e = s.sealState.marks e
  sealIo : s'.sealIo = s.sealIo
  receivers : s'.receivers = s.receivers
  events : s'.events = s.events ++ s.newEvents rows

/-- From `s` to `s'`, some epochs that were neither sealed nor marked were sealed with the record
of their tree, and nothing else changed but the log. -/
structure SealedSome (s s' : SpatioTemporalStore L) : Prop where
  indexer : s'.indexer = s.indexer
  table : s'.table = s.table
  merkle : s'.merkle = s.merkle
  epoch : ∀ e, s'.tree.record e = s.tree.record e ∧
      (e ∈ s'.sealState.sealed ↔ e ∈ s.sealState.sealed) ∨
    e ∉ s.sealState.sealed ∧ e ∈ s'.sealState.sealed ∧
      ∃ b, s.merkle.serializeEpoch e = some b ∧ s'.tree.record e = some b
  marks : ∀ e, s'.sealState.marks e = s.sealState.marks e
  sealIo : s'.sealIo = s.sealIo
  receivers : s'.receivers = s.receivers
  events : s'.events = s.events

theorem Unsealed.rows {es : List Epoch} {s s' : SpatioTemporalStore L} (h : Unsealed es s s') :
    s'.rows = s.rows := KvTree.rows_congr h.table

theorem SealedSome.rows {s s' : SpatioTemporalStore L} (h : SealedSome s s') :
    s'.rows = s.rows := KvTree.rows_congr h.table

theorem SealedSome.refl (s : SpatioTemporalStore L) : SealedSome s s :=
  ⟨rfl, rfl, rfl, fun _ => .inl ⟨rfl, Iff.rfl⟩, fun _ => rfl, rfl, rfl, rfl⟩

theorem SealedSome.trans {s₁ s₂ s₃ : SpatioTemporalStore L} (h : SealedSome s₁ s₂)
    (h' : SealedSome s₂ s₃) : SealedSome s₁ s₃ where
  indexer := h'.indexer.trans h.indexer
  table := h'.table.trans h.table
  merkle := h'.merkle.trans h.merkle
  epoch := by
    intro e
    rcases h.epoch e with ⟨hr, hs⟩ | ⟨h₁, h₂, b, hb, hr⟩
    · rcases h'.epoch e with ⟨hr', hs'⟩ | ⟨h₁', h₂', b, hb, hr'⟩
      · exact .inl ⟨hr'.trans hr, hs'.trans hs⟩
      · rw [h.merkle] at hb
        exact .inr ⟨fun h => h₁' (hs.2 h), h₂', b, hb, hr'⟩
    · rcases h'.epoch e with ⟨hr', hs'⟩ | ⟨h₁', -⟩
      · exact .inr ⟨h₁, hs'.2 h₂, b, hb, hr'.trans hr⟩
      · exact absurd h₂ h₁'
  marks := fun e => (h'.marks e).trans (h.marks e)
  sealIo := h'.sealIo.trans h.sealIo
  receivers := h'.receivers.trans h.receivers
  events := h'.events.trans h.events

/-! ## Begin and end marks -/

namespace SpatioTemporalStore

/-- What `begin_write_epoch` does when it succeeds. -/
def beginEpoch (s : SpatioTemporalStore L) (e : Epoch) : SpatioTemporalStore L :=
  if e ∈ s.sealState.sealed then
    { s with
      tree := s.tree.commit [.delete (sealKey e)]
      sealState := (s.sealState.removeSealed e).mark e }
  else { s with sealState := s.sealState.mark e }

/-- What `end_write_epochs` does. -/
def endEpochs (s : SpatioTemporalStore L) (es : List Epoch) : SpatioTemporalStore L :=
  { s with sealState := es.foldl SealState.unmark s.sealState }

theorem sealed_foldl_unmark (es : List Epoch) (s : SealState) :
    (es.foldl SealState.unmark s).sealed = s.sealed := by
  induction es generalizing s with
  | nil => rfl
  | cons e es ih => rw [List.foldl_cons, ih, SealState.sealed_unmark]

theorem marks_foldl_unmark (es : List Epoch) (s : SealState) (e : Epoch) :
    (es.foldl SealState.unmark s).marks e = s.marks e - es.count e := by
  induction es generalizing s with
  | nil => rfl
  | cons e' es ih =>
    rw [List.foldl_cons, ih, SealState.marks_unmark, List.count_cons]
    simp only [beq_iff_eq]
    omega

theorem sealIo_beginEpoch (s : SpatioTemporalStore L) (e : Epoch) :
    (s.beginEpoch e).sealIo = s.sealIo := by
  unfold beginEpoch
  split_ifs
  · rfl
  · rfl

/-- Beginning an epoch unseals it and adds a mark. -/
theorem unsealed_beginEpoch (s : SpatioTemporalStore L) (e : Epoch) :
    Unsealed [e] s ((s.beginEpoch e).endEpochs [e]) ∧
      ∀ e', (s.beginEpoch e).sealState.marks e' =
        s.sealState.marks e' + if e = e' then 1 else 0 := by
  unfold beginEpoch endEpochs
  split_ifs with h
  · constructor
    · refine ⟨rfl, KvTree.table_deleteRecord _ _, fun e' => ?_, rfl, fun e' => ?_, fun e' => ?_,
        rfl, rfl, rfl⟩
      · dsimp only
        rw [KvTree.record_deleteRecord]
        by_cases he : e' = e
        · simp [he, h]
        · simp [he]
      · simp [and_comm]
      · simp [SealState.marks_unmark, SealState.marks_mark]
    · intro e'
      simp [SealState.marks_mark]
  · constructor
    · refine ⟨rfl, rfl, fun e' => ?_, rfl, fun e' => ?_, fun e' => ?_, rfl, rfl, rfl⟩
      · rw [if_neg]
        rintro ⟨he, hs⟩
        rw [List.mem_singleton.1 he] at hs
        exact h hs
      · simp only [List.foldl_cons, List.foldl_nil, SealState.sealed_unmark, SealState.sealed_mark,
          List.mem_singleton]
        exact ⟨fun hs => ⟨hs, fun he => h (he ▸ hs)⟩, And.left⟩
      · simp [SealState.marks_unmark, SealState.marks_mark]
    · intro e'
      simp [SealState.marks_mark]

/-- From `s` to `s'`, the epochs were begun. -/
structure Begun (es : List Epoch) (s s' : SpatioTemporalStore L) : Prop where
  unsealed : Unsealed es s (s'.endEpochs es)
  marks : ∀ e, s'.sealState.marks e = s.sealState.marks e + es.count e

theorem Begun.nil (s : SpatioTemporalStore L) : Begun [] s s :=
  ⟨⟨rfl, rfl, by simp [endEpochs], rfl, by simp [endEpochs], fun _ => rfl, rfl, rfl, rfl⟩, by simp⟩

theorem Begun.concat {es : List Epoch} {s s' : SpatioTemporalStore L} (h : Begun es s s')
    (e : Epoch) : Begun (es ++ [e]) s (s'.beginEpoch e) := by
  obtain ⟨⟨h₁, h₂, h₃, h₄, h₅, -, h₇, h₈, h₉⟩, hm⟩ := h
  obtain ⟨⟨k₁, k₂, k₃, k₄, k₅, -, k₇, k₈, k₉⟩, km⟩ := unsealed_beginEpoch s' e
  simp only [endEpochs, sealed_foldl_unmark] at h₁ h₂ h₃ h₄ h₅ h₇ h₈ h₉ k₁ k₂ k₃ k₄ k₅ k₇ k₈ k₉
  have hmarks : ∀ e', (s'.beginEpoch e).sealState.marks e' =
      s.sealState.marks e' + (es ++ [e]).count e' := by
    intro e'
    rw [km, hm, List.count_append, List.count_singleton]
    simp only [beq_iff_eq]
    omega
  refine ⟨⟨k₁.trans h₁, k₂.trans h₂, fun e' => ?_, k₄.trans h₄, fun e' => ?_, fun e' => ?_,
    k₇.trans h₇, k₈.trans h₈, k₉.trans h₉⟩, hmarks⟩
  · have hrec : ((s'.beginEpoch e).endEpochs (es ++ [e])).tree.record e' =
        (s'.beginEpoch e).tree.record e' := rfl
    rw [hrec, k₃]
    simp only [h₃, h₅, List.mem_append, List.mem_singleton]
    by_cases hs : e' ∈ s.sealState.sealed
    · by_cases hes : e' ∈ es
      · simp [hs, hes]
      · simp [hs, hes]
    · simp [hs]
  · simp only [endEpochs, sealed_foldl_unmark]
    rw [k₅, h₅, List.mem_append, not_or, and_assoc]
  · show (List.foldl SealState.unmark _ _).marks e' = _
    rw [marks_foldl_unmark, hmarks]
    omega

end SpatioTemporalStore

/-! ## Transactions -/

section Runs

variable [Sha256] {pol : KvPolicy} {s s' : SpatioTemporalStore L}

theorem alone_stageAll {ws : List KvWrite} {r : Except String Unit}
    (h : Alone (storeSem L pol) (stageAll ws) s r s') :
    (r = .ok () ∨ ∃ err, r = .error err) ∧ s' = s := by
  induction ws with
  | nil =>
    obtain ⟨rfl, rfl⟩ := alone_ret.1 h
    exact ⟨.inl rfl, rfl⟩
  | cons w ws ih =>
    obtain ⟨x, s₁, hx, h₁⟩ := alone_bind.1 h
    obtain ⟨hr, rfl⟩ := sem_kvStage.1 (alone_op.1 hx)
    rcases hr with rfl | ⟨-, err, rfl⟩
    · exact ih h₁
    · obtain ⟨rfl, rfl⟩ := alone_ret.1 h₁
      exact ⟨.inr ⟨err, rfl⟩, rfl⟩

/-- A transaction commits its writes, or fails and changes nothing. -/
theorem alone_commitWrites {ws : List KvWrite} {r : Except String Unit}
    (h : Alone (storeSem L pol) (commitWrites ws) s r s') :
    r = .ok () ∧ s' = { s with tree := s.tree.commit ws } ∨ (∃ err, r = .error err) ∧ s' = s := by
  obtain ⟨x, s₁, hx, h₁⟩ := alone_bind.1 h
  obtain ⟨hr, rfl⟩ := sem_kvBegin.1 (alone_op.1 hx)
  rcases hr with rfl | ⟨-, err, rfl⟩
  · obtain ⟨y, s₂, hy, h₂⟩ := alone_bind.1 h₁
    obtain ⟨hr', rfl⟩ := alone_stageAll hy
    rcases hr' with rfl | ⟨err, rfl⟩
    · rcases sem_kvCommit.1 (alone_op.1 h₂) with ⟨-, rfl, rfl⟩ | ⟨-, herr, rfl⟩
      · exact .inl ⟨rfl, rfl⟩
      · exact .inr ⟨herr, rfl⟩
    · obtain ⟨rfl, rfl⟩ := alone_ret.1 h₂
      exact .inr ⟨⟨err, rfl⟩, rfl⟩
  · obtain ⟨rfl, rfl⟩ := alone_ret.1 h₁
    exact .inr ⟨⟨err, rfl⟩, rfl⟩

/-! ## Writes -/

/-- `begin_write_epoch` begins its epoch, or fails and changes nothing. -/
theorem alone_beginWriteEpoch {e : Epoch} {r : Except String Unit}
    (h : Alone (storeSem L pol) (beginWriteEpoch e) s r s') :
    r = .ok () ∧ s' = s.beginEpoch e ∨ (∃ err, r = .error err) ∧ s' = s := by
  obtain ⟨marked, s₁, hm, h₁⟩ := alone_bind.1 h
  rcases sem_markUnlessSealed.1 (alone_op.1 hm) with ⟨he, rfl, rfl⟩ | ⟨he, rfl, rfl⟩
  · obtain ⟨_, s₂, hl, h₂⟩ := alone_bind.1 h₁
    obtain ⟨hio, rfl⟩ := sem_lockSealIo.1 (alone_op.1 hl)
    obtain ⟨x, s₃, hx, h₃⟩ := alone_bind.1 h₂
    rcases alone_commitWrites hx with ⟨rfl, rfl⟩ | ⟨⟨err, rfl⟩, rfl⟩
    · obtain ⟨_, s₄, hs, h₄⟩ := alone_bind.1 h₃
      obtain rfl := sem_removeSealedAndMark.1 (alone_op.1 hs)
      obtain ⟨_, s₅, hu, h₅⟩ := alone_bind.1 h₄
      obtain rfl := sem_unlockSealIo.1 (alone_op.1 hu)
      obtain ⟨rfl, rfl⟩ := alone_ret.1 h₅
      refine .inl ⟨rfl, ?_⟩
      rw [SpatioTemporalStore.beginEpoch, if_pos he, ← hio]
    · obtain ⟨_, s₄, hu, h₄⟩ := alone_bind.1 h₃
      obtain rfl := sem_unlockSealIo.1 (alone_op.1 hu)
      obtain ⟨rfl, rfl⟩ := alone_ret.1 h₄
      refine .inr ⟨⟨err, rfl⟩, ?_⟩
      rw [← hio]
  · obtain ⟨rfl, rfl⟩ := alone_ret.1 h₁
    exact .inl ⟨rfl, by rw [SpatioTemporalStore.beginEpoch, if_neg he]⟩

theorem alone_beginWriteEpochsFrom {s₀ : SpatioTemporalStore L} {marked es : List Epoch}
    {r : Except String Unit} (hb : SpatioTemporalStore.Begun marked s₀ s)
    (h : Alone (storeSem L pol) (beginWriteEpochsFrom marked es) s r s') :
    r = .ok () ∧ SpatioTemporalStore.Begun (marked ++ es) s₀ s' ∨
      (∃ err, r = .error err) ∧ ∃ done, done <+: marked ++ es ∧ Unsealed done s₀ s' := by
  induction es generalizing marked s with
  | nil =>
    obtain ⟨rfl, rfl⟩ := alone_ret.1 h
    exact .inl ⟨rfl, by simpa using hb⟩
  | cons e es ih =>
    obtain ⟨x, s₁, hx, h₁⟩ := alone_bind.1 h
    rcases alone_beginWriteEpoch hx with ⟨rfl, rfl⟩ | ⟨⟨err, rfl⟩, rfl⟩
    · have := ih (hb.concat e) h₁
      rwa [List.append_assoc, List.singleton_append] at this
    · obtain ⟨_, s₂, hend, h₂⟩ := alone_bind.1 h₁
      obtain rfl := sem_endMarks.1 (alone_op.1 hend)
      obtain ⟨rfl, rfl⟩ := alone_ret.1 h₂
      exact .inr ⟨⟨err, rfl⟩, marked, List.prefix_append _ _, hb.unsealed⟩

theorem alone_publishAll {rows : List Row} {r : Unit}
    (h : Alone (storeSem L pol) (publishAll rows) s r s') :
    s' = rows.foldl SpatioTemporalStore.publish s := by
  induction rows generalizing s with
  | nil => exact (alone_ret.1 h).1
  | cons x rows ih =>
    obtain ⟨_, s₁, hx, h₁⟩ := alone_bind.1 h
    obtain rfl := sem_publish.1 (alone_op.1 hx)
    exact ih h₁

theorem alone_commitAndFold {edits : List MerkleEdit} {rows : List Row} {r : Except String Unit}
    (h : Alone (storeSem L pol) (commitAndFold edits rows) s r s') :
    r = .ok () ∧ Written edits rows s s' ∧ s'.sealState = s.sealState ∨
      (∃ err, r = .error err) ∧ s' = s := by
  obtain ⟨x, s₁, hx, h₁⟩ := alone_bind.1 h
  rcases alone_commitWrites hx with ⟨rfl, rfl⟩ | ⟨⟨err, rfl⟩, rfl⟩
  · obtain ⟨_, s₂, hf, h₂⟩ := alone_bind.1 h₁
    obtain rfl := sem_foldMerkle.1 (alone_op.1 hf)
    obtain ⟨_, s₃, hp, h₃⟩ := alone_bind.1 h₂
    obtain rfl := alone_publishAll hp
    obtain ⟨rfl, rfl⟩ := alone_ret.1 h₃
    rw [SpatioTemporalStore.foldl_publish]
    exact .inl ⟨rfl, ⟨rfl, rfl, rfl, rfl, fun _ => rfl, rfl, rfl, rfl⟩, rfl⟩
  · obtain ⟨rfl, rfl⟩ := alone_ret.1 h₁
    exact .inr ⟨⟨err, rfl⟩, rfl⟩

/-- **A write that runs alone** fails, leaving at most some of its epochs unsealed, or unseals its
epochs and writes its rows. -/
theorem alone_writeRows {es : List Epoch} {edits : List MerkleEdit} {rows : List Row}
    {r : Except String Unit} (h : Alone (storeSem L pol) (writeRows es edits rows) s r s') :
    (∃ err, r = .error err) ∧ (∃ done, done <+: es ∧ Unsealed done s s') ∨
      r = .ok () ∧ ∃ s₁, Unsealed es s s₁ ∧ Written edits rows s₁ s' := by
  obtain ⟨x, s₁, hx, h₁⟩ := alone_bind.1 h
  rcases alone_beginWriteEpochsFrom (.nil s) hx with ⟨rfl, hb⟩ | ⟨⟨err, rfl⟩, done, hd, hu⟩
  · rw [List.nil_append] at hb
    obtain ⟨y, s₂, hy, h₂⟩ := alone_bind.1 h₁
    obtain ⟨_, s₃, hend, h₃⟩ := alone_bind.1 h₂
    obtain rfl := sem_endMarks.1 (alone_op.1 hend)
    obtain ⟨rfl, rfl⟩ := alone_ret.1 h₃
    rcases alone_commitAndFold hy with ⟨rfl, hw, hs⟩ | ⟨herr, rfl⟩
    · refine .inr ⟨rfl, _, hb.unsealed, ⟨hw.indexer, hw.tree, hw.merkle, ?_, fun e => ?_,
        hw.sealIo, hw.receivers, hw.events⟩⟩
      · simp only [SpatioTemporalStore.endEpochs, hs]
      · simp only [SpatioTemporalStore.endEpochs, hs]
    · exact .inl ⟨herr, es, List.prefix_rfl, hb.unsealed⟩
  · obtain ⟨rfl, rfl⟩ := alone_ret.1 h₁
    exact .inl ⟨⟨err, rfl⟩, done, hd, hu⟩

theorem alone_store {ix : HybridSpatioTemporalIndexer} {x : BatchRecord} {r : Except String Key}
    (h : Alone (storeSem L pol) (store ix x) s r s') :
    (∃ err, r = .error err) ∧ (∃ done, done <+: [(x.row ix).1.epoch] ∧ Unsealed done s s') ∨
      r = .ok (x.row ix).1 ∧ ∃ s₁, Unsealed [(x.row ix).1.epoch] s s₁ ∧
        Written [.insert (x.row ix)] [x.row ix] s₁ s' := by
  obtain ⟨y, s₁, hy, h₁⟩ := alone_bind.1 h
  obtain ⟨rfl, rfl⟩ := alone_ret.1 h₁
  rcases alone_writeRows hy with ⟨⟨err, rfl⟩, hdone⟩ | ⟨rfl, hw⟩
  · exact .inl ⟨⟨err, rfl⟩, hdone⟩
  · exact .inr ⟨rfl, hw⟩

theorem alone_storeBatch {ix : HybridSpatioTemporalIndexer} {xs : List BatchRecord}
    {r : Except String (List Key)} (h : Alone (storeSem L pol) (storeBatch ix xs) s r s') :
    (∃ err, r = .error err) ∧
        (∃ done, done <+: distinctEpochs ((xs.map (BatchRecord.row ix)).map Prod.fst) ∧
          Unsealed done s s') ∨
      r = .ok ((xs.map (BatchRecord.row ix)).map Prod.fst) ∧
        ∃ s₁, Unsealed (distinctEpochs ((xs.map (BatchRecord.row ix)).map Prod.fst)) s s₁ ∧
          Written ((xs.map (BatchRecord.row ix)).map .insert) (xs.map (BatchRecord.row ix))
            s₁ s' := by
  obtain ⟨y, s₁, hy, h₁⟩ := alone_bind.1 h
  obtain ⟨rfl, rfl⟩ := alone_ret.1 h₁
  rcases alone_writeRows hy with ⟨⟨err, rfl⟩, hdone⟩ | ⟨rfl, hw⟩
  · exact .inl ⟨⟨err, rfl⟩, hdone⟩
  · exact .inr ⟨rfl, hw⟩

omit [Sha256] in
theorem Unsealed.refl (s : SpatioTemporalStore L) : Unsealed [] s s :=
  ⟨rfl, rfl, by simp, rfl, by simp, fun _ => rfl, rfl, rfl, rfl⟩

/-- **An `ingest` that runs alone** fails, or keeps the stored payload and changes nothing, or
replaces it. -/
theorem alone_ingest {k : Key} {v : Bytes} {r : Except String Bool}
    (h : Alone (storeSem L pol) (ingest k v) s r s') :
    (∃ err, r = .error err) ∧ (∃ done, done <+: [k.epoch] ∧ Unsealed done s s') ∨
      r = .ok false ∧ keepsExisting k v (s.table k) = true ∧ s' = s ∨
      r = .ok true ∧ keepsExisting k v (s.table k) = false ∧
        ∃ s₁, Unsealed [k.epoch] s s₁ ∧ Written (ingestEdits k v (s.table k)) [(k, v)] s₁ s' := by
  obtain ⟨x, s₁, hx, h₁⟩ := alone_bind.1 h
  obtain ⟨hr, rfl⟩ := sem_kvGet.1 (alone_op.1 hx)
  rcases hr with rfl | ⟨-, err, rfl⟩
  · change Alone _ (if keepsExisting k v (s₁.table k) then _ else _) _ _ _ at h₁
    cases hk : keepsExisting k v (s₁.table k) with
    | true =>
      rw [hk, if_pos rfl] at h₁
      obtain ⟨rfl, rfl⟩ := alone_ret.1 h₁
      exact .inr (.inl ⟨rfl, rfl, rfl⟩)
    | false =>
      rw [hk, if_neg (by simp)] at h₁
      obtain ⟨y, s₂, hy, h₂⟩ := alone_bind.1 h₁
      obtain ⟨rfl, rfl⟩ := alone_ret.1 h₂
      rcases alone_writeRows hy with ⟨⟨err, rfl⟩, hdone⟩ | ⟨rfl, hw⟩
      · exact .inl ⟨⟨err, rfl⟩, hdone⟩
      · exact .inr (.inr ⟨rfl, rfl, hw⟩)
  · obtain ⟨rfl, rfl⟩ := alone_ret.1 h₁
    exact .inl ⟨⟨err, rfl⟩, [], List.nil_prefix, .refl _⟩

/-! ## Sealing -/

omit [Sha256] in
theorem sealedSome_of_seal {e : Epoch} {b : Bytes} (hs : e ∉ s.sealState.sealed)
    (hb : s.merkle.serializeEpoch e = some b) :
    SealedSome s { s with
      tree := s.tree.commit [.set (sealKey e) b]
      sealState := s.sealState.insertSealed e } where
  indexer := rfl
  table := KvTree.table_setRecord _ _ _
  merkle := rfl
  epoch := by
    intro e'
    dsimp only
    rw [KvTree.record_setRecord]
    by_cases he : e' = e
    · subst he
      exact .inr ⟨hs, Finset.mem_insert_self _ _, b, hb, Function.update_self ..⟩
    · left
      rw [Function.update_of_ne he]
      exact ⟨rfl, by simp [he]⟩
  marks := fun _ => rfl
  sealIo := rfl
  receivers := rfl
  events := rfl

omit [Sha256] in
theorem removeSealed_insertSealed {t : SealState} {e : Epoch} (he : e ∉ t.sealed) :
    (t.insertSealed e).removeSealed e = t := by
  unfold SealState.removeSealed SealState.insertSealed
  dsimp only
  rw [Finset.erase_insert he]

theorem alone_sealCandidates {newly es : List Epoch} {r : Except String (List Epoch)}
    (h : Alone (storeSem L pol) (sealCandidates newly es) s r s') : SealedSome s s' := by
  induction es generalizing newly s with
  | nil =>
    obtain ⟨rfl, -⟩ := alone_ret.1 h
    exact .refl _
  | cons e es ih =>
    obtain ⟨_, s₁, hl, h₁⟩ := alone_bind.1 h
    obtain ⟨hio, rfl⟩ := sem_lockSealIo.1 (alone_op.1 hl)
    obtain ⟨x, s₂, hx, h₂⟩ := alone_bind.1 h₁
    rcases sem_trySeal.1 (alone_op.1 hx) with ⟨-, rfl, rfl⟩ | ⟨⟨hs, -⟩, rfl, rfl⟩
    · obtain ⟨_, s₃, hu, h₃⟩ := alone_bind.1 h₂
      obtain rfl := sem_unlockSealIo.1 (alone_op.1 hu)
      have := ih h₃
      rwa [← hio] at this
    · obtain ⟨y, s₃, hy, h₃⟩ := alone_bind.1 h₂
      obtain ⟨rfl, rfl⟩ := sem_serializeEpoch.1 (alone_op.1 hy)
      dsimp only at h₃
      cases hb : s.merkle.serializeEpoch e with
      | none =>
        rw [hb] at h₃
        obtain ⟨_, s₄, hr, h₄⟩ := alone_bind.1 h₃
        obtain rfl := sem_removeSealed.1 (alone_op.1 hr)
        obtain ⟨_, s₅, hu, h₅⟩ := alone_bind.1 h₄
        obtain rfl := sem_unlockSealIo.1 (alone_op.1 hu)
        have := ih h₅
        rwa [removeSealed_insertSealed hs, ← hio] at this
      | some b =>
        rw [hb] at h₃
        obtain ⟨z, s₄, hz, h₄⟩ := alone_bind.1 h₃
        rcases alone_commitWrites hz with ⟨rfl, rfl⟩ | ⟨⟨err, rfl⟩, rfl⟩
        · obtain ⟨_, s₅, hu, h₅⟩ := alone_bind.1 h₄
          obtain rfl := sem_unlockSealIo.1 (alone_op.1 hu)
          have htail := ih h₅
          rw [← hio] at htail
          exact (sealedSome_of_seal (s := s) hs hb).trans htail
        · obtain ⟨_, s₅, hr, h₅⟩ := alone_bind.1 h₄
          obtain rfl := sem_removeSealed.1 (alone_op.1 hr)
          obtain ⟨_, s₆, hu, h₆⟩ := alone_bind.1 h₅
          obtain rfl := sem_unlockSealIo.1 (alone_op.1 hu)
          obtain ⟨rfl, -⟩ := alone_ret.1 h₆
          rw [removeSealed_insertSealed hs, ← hio]
          exact .refl _

/-- **A sealing pass that runs alone** seals some epochs and changes nothing else. -/
theorem alone_sealSettledEpochs {ix : HybridSpatioTemporalIndexer} {now grace : ℕ}
    {r : Except String (List Epoch)}
    (h : Alone (storeSem L pol) (sealSettledEpochs ix now grace) s r s') : SealedSome s s' := by
  obtain ⟨x, s₁, hx, h₁⟩ := alone_bind.1 h
  obtain ⟨rfl, rfl⟩ := sem_merkleEpochs.1 (alone_op.1 hx)
  exact alone_sealCandidates h₁

end Runs

end InterstellarDb
