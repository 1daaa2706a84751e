import InterstellarDb.Store.Calls

/-!
# A batch is its records, one by one

When nothing fails and nobody holds `seal_io`, `store_batch` and one `store` after another end, each
in one way. Both store their rows (`Stored`): what that means for each part of the store depends on
the list of rows only, and the effects of two lists compose to that of their concatenation
(`Stored.trans`). So the two end in stores that agree (`storeBatch_agrees`).
-/

namespace InterstellarDb

open Atomic GreatestWins KvTree

variable {L : LeafDepth}

/-- The calls of `store` on some records, in order, up to the first that fails. -/
def storeEach (ix : HybridSpatioTemporalIndexer) :
    List BatchRecord → StoreProg (Except String (List Key))
  | [] => return .ok []
  | x :: xs => do
    match ← store ix x with
    | .error err => return .error err
    | .ok key => return (← storeEach ix xs).map fun keys => key :: keys

section Runs

variable [Sha256]

/-! ## Storing rows -/

/-- Some row lies in the epoch. -/
def HasEpoch (rows : List Row) (e : Epoch) : Prop := ∃ r ∈ rows, r.1.epoch = e

/-- From `s` to `s'`, the rows were stored: their epochs were unsealed, and the rows were written,
folded and published in order. -/
structure Stored (rows : List Row) (s s' : SpatioTemporalStore L) : Prop where
  indexer : s'.indexer = s.indexer
  table : s'.table = writeAll s.table rows
  merkle : s'.merkle = s.merkle.editAll (rows.map .insert)
  sealed : ∀ e, e ∈ s'.sealState.sealed ↔ e ∈ s.sealState.sealed ∧ ¬ HasEpoch rows e
  /-- A record is deleted with the place of its epoch among the sealed ones. -/
  record : ∀ e, e ∈ s'.sealState.sealed ∨ e ∉ s.sealState.sealed →
    s'.tree.record e = s.tree.record e
  record_none : ∀ e, e ∈ s.sealState.sealed → e ∉ s'.sealState.sealed → s'.tree.record e = none
  marks : ∀ e, s'.sealState.marks e = s.sealState.marks e
  sealIo : s'.sealIo = s.sealIo
  receivers : s'.receivers = s.receivers
  events : s'.events = s.events ++ s.newEvents rows

variable {s s₁ s₂ : SpatioTemporalStore L} {rows rows' : List Row}

omit [Sha256] in
theorem newEvents_congr (h : s₁.indexer = s.indexer) (hr : s₁.receivers = s.receivers) :
    s₁.newEvents rows = s.newEvents rows := by
  rw [SpatioTemporalStore.newEvents, SpatioTemporalStore.newEvents, h, hr]

omit [Sha256] in
theorem newEvents_append (s : SpatioTemporalStore L) :
    s.newEvents (rows ++ rows') = s.newEvents rows ++ s.newEvents rows' := by
  unfold SpatioTemporalStore.newEvents
  split_ifs
  · rfl
  · rw [List.map_append]

theorem Stored.nil (s : SpatioTemporalStore L) : Stored [] s s where
  indexer := rfl
  table := rfl
  merkle := rfl
  sealed := by simp [HasEpoch]
  record := fun _ _ => rfl
  record_none := fun _ h h' => absurd h h'
  marks := fun _ => rfl
  sealIo := rfl
  receivers := rfl
  events := by simp [SpatioTemporalStore.newEvents]

/-- **Storing some rows and then others** is storing all of them. -/
theorem Stored.trans (h : Stored rows s s₁) (h' : Stored rows' s₁ s₂) :
    Stored (rows ++ rows') s s₂ where
  indexer := h'.indexer.trans h.indexer
  table := by rw [h'.table, h.table, writeAll, writeAll, writeAll, List.foldl_append]
  merkle := by
    rw [h'.merkle, h.merkle, MerkleForest.editAll, MerkleForest.editAll, MerkleForest.editAll,
      List.map_append, List.foldl_append]
  sealed := by
    intro e
    have hor : HasEpoch (rows ++ rows') e ↔ HasEpoch rows e ∨ HasEpoch rows' e := by
      simp only [HasEpoch, List.mem_append, or_and_right, exists_or]
    rw [h'.sealed, h.sealed, hor, not_or, and_assoc]
  record := by
    intro e he
    have hmid : e ∈ s₁.sealState.sealed ∨ e ∉ s.sealState.sealed := by
      rcases he with he | he
      · exact .inl ((h'.sealed e).1 he).1
      · exact .inr he
    have hend : e ∈ s₂.sealState.sealed ∨ e ∉ s₁.sealState.sealed := by
      rcases he with he | he
      · exact .inl he
      · exact .inr fun hs => he ((h.sealed e).1 hs).1
    rw [h'.record e hend, h.record e hmid]
  record_none := by
    intro e hs hs₂
    by_cases hs₁ : e ∈ s₁.sealState.sealed
    · exact h'.record_none e hs₁ hs₂
    · rw [h'.record e (.inr hs₁)]
      exact h.record_none e hs hs₁
  marks := fun e => (h'.marks e).trans (h.marks e)
  sealIo := h'.sealIo.trans h.sealIo
  receivers := h'.receivers.trans h.receivers
  events := by
    rw [h'.events, h.events, newEvents_congr h.indexer h.receivers, newEvents_append,
      List.append_assoc]

/-- A write of rows into their epochs stores them. -/
theorem stored_of_written {es : List Epoch} (hes : ∀ e, e ∈ es ↔ HasEpoch rows e)
    (hu : Unsealed es s s₁) (hw : Written (rows.map .insert) rows s₁ s₂) : Stored rows s s₂ where
  indexer := hw.indexer.trans hu.indexer
  table := by
    show s₂.tree.table = _
    rw [hw.tree, table_setRows]
    exact congrArg (writeAll · rows) hu.table
  merkle := by rw [hw.merkle, hu.merkle]
  sealed := by
    intro e
    rw [hw.sealed, hu.sealed, hes]
  record := by
    intro e he
    rw [hw.tree, record_setRows, hu.record, if_neg]
    rintro ⟨hes', hs⟩
    rw [hw.sealed, hu.sealed] at he
    rcases he with he | he
    · exact he.2 hes'
    · exact he hs
  record_none := by
    intro e hs hs₂
    rw [hw.sealed, hu.sealed, not_and, not_not] at hs₂
    rw [hw.tree, record_setRows, hu.record, if_pos ⟨hs₂ hs, hs⟩]
  marks := fun e => (hw.marks e).trans (hu.marks e)
  sealIo := hw.sealIo.trans hu.sealIo
  receivers := hw.receivers.trans hu.receivers
  events := by rw [hw.events, hu.events, newEvents_congr hu.indexer hu.receivers]

/-- What two stores agree on. -/
structure Agree (s₁ s₂ : SpatioTemporalStore L) : Prop where
  table : s₁.table = s₂.table
  rows : s₁.rows = s₂.rows
  nodeHash : ∀ e d p, s₁.merkle.nodeHash e d p = s₂.merkle.nodeHash e d p
  count : ∀ e, s₁.merkle.count e = s₂.merkle.count e
  len : s₁.merkle.len = s₂.merkle.len
  sealed : s₁.sealState.sealed = s₂.sealState.sealed
  record : s₁.tree.record = s₂.tree.record
  marks : ∀ e, s₁.sealState.marks e = s₂.sealState.marks e
  events : s₁.events = s₂.events

/-- Stores that stored the same rows agree. -/
theorem Stored.agree (h : Stored rows s s₁) (h' : Stored rows s s₂) : Agree s₁ s₂ := by
  have htable : s₁.table = s₂.table := h.table.trans h'.table.symm
  have hmerkle : s₁.merkle = s₂.merkle := h.merkle.trans h'.merkle.symm
  have hsealed : s₁.sealState.sealed = s₂.sealState.sealed := by
    ext e
    rw [h.sealed, h'.sealed]
  refine ⟨htable, rows_congr htable, fun e d p => by rw [hmerkle], fun e => by rw [hmerkle],
    by rw [hmerkle], hsealed, ?_, fun e => (h.marks e).trans (h'.marks e).symm,
    h.events.trans h'.events.symm⟩
  funext e
  by_cases he : e ∈ s.sealState.sealed ∧ e ∉ s₁.sealState.sealed
  · rw [h.record_none e he.1 he.2, h'.record_none e he.1 (hsealed ▸ he.2)]
  · have hkeep : e ∈ s₁.sealState.sealed ∨ e ∉ s.sealState.sealed := by
      by_cases hs : e ∈ s.sealState.sealed
      · exact .inl (not_not.1 fun hn => he ⟨hs, hn⟩)
      · exact .inr hs
    rw [h.record e hkeep, h'.record e (hsealed ▸ hkeep)]

/-! ## Both ways end -/

/-- Epochs are begun when nobody holds `seal_io`. -/
theorem exec_beginWriteEpochsFrom {marked es : List Epoch} (hio : s.sealIo = false) :
    (beginWriteEpochsFrom marked es).exec StoreOp.run s =
      some (.ok (), es.foldl SpatioTemporalStore.beginEpoch s) := by
  induction es generalizing marked s with
  | nil => rfl
  | cons e es ih =>
    rw [beginWriteEpochsFrom, Prog.exec_bind, exec_beginWriteEpoch, if_neg (by simp [hio])]
    exact ih ((s.sealIo_beginEpoch e).trans hio)

/-- A write ends when nobody holds `seal_io`. -/
theorem exec_writeRows_of_idle (es : List Epoch) (edits : List MerkleEdit) (rows : List Row)
    (hio : s.sealIo = false) :
    ∃ s', (writeRows es edits rows).exec StoreOp.run s = some (.ok (), s') := by
  refine ⟨?_, ?_⟩
  rotate_left
  · rw [writeRows, Prog.exec_bind, beginWriteEpochs, exec_beginWriteEpochsFrom hio]
    show (commitAndFold edits rows >>= fun _ => _).exec StoreOp.run _ = _
    rw [Prog.exec_bind, exec_commitAndFold]
    rfl

theorem exec_store (ix : HybridSpatioTemporalIndexer) (x : BatchRecord) (hio : s.sealIo = false) :
    ∃ s', (store ix x).exec StoreOp.run s = some (.ok (x.row ix).1, s') ∧
      Stored [x.row ix] s s' := by
  obtain ⟨s', hexec⟩ := exec_writeRows_of_idle [keyEpoch (x.row ix).1] [.insert (x.row ix)]
    [x.row ix] hio
  have hstore : (store ix x).exec StoreOp.run s = some (.ok (x.row ix).1, s') := by
    show (writeRows _ _ _ >>= fun _ => _).exec StoreOp.run s = _
    rw [Prog.exec_bind]
    exact congrArg (Option.bind · _) hexec
  refine ⟨s', hstore, ?_⟩
  rcases alone_store (alone_of_exec (fun _ _ _ _ => sem_reliable) hstore) with
    ⟨⟨err, herr⟩, -⟩ | ⟨-, s₁, hu, hw⟩
  · cases herr
  · refine stored_of_written (fun e => ?_) hu hw
    simp [HasEpoch, eq_comm]

theorem exec_storeBatch (ix : HybridSpatioTemporalIndexer) (xs : List BatchRecord)
    (hio : s.sealIo = false) :
    ∃ s', (storeBatch ix xs).exec StoreOp.run s =
        some (.ok ((xs.map (BatchRecord.row ix)).map Prod.fst), s') ∧
      Stored (xs.map (BatchRecord.row ix)) s s' := by
  obtain ⟨s', hexec⟩ := exec_writeRows_of_idle
    (distinctEpochs ((xs.map (BatchRecord.row ix)).map Prod.fst))
    ((xs.map (BatchRecord.row ix)).map .insert) (xs.map (BatchRecord.row ix)) hio
  have hbatch : (storeBatch ix xs).exec StoreOp.run s =
      some (.ok ((xs.map (BatchRecord.row ix)).map Prod.fst), s') := by
    show (writeRows _ _ _ >>= fun _ => _).exec StoreOp.run s = _
    rw [Prog.exec_bind]
    exact congrArg (Option.bind · _) hexec
  refine ⟨s', hbatch, ?_⟩
  rcases alone_storeBatch (alone_of_exec (fun _ _ _ _ => sem_reliable) hbatch) with
    ⟨⟨err, herr⟩, -⟩ | ⟨-, s₁, hu, hw⟩
  · cases herr
  · refine stored_of_written (fun e => ?_) hu hw
    simp [mem_distinctEpochs, HasEpoch]

/-- Storing records one by one stores their rows, by induction on the records. -/
theorem exec_storeEach (ix : HybridSpatioTemporalIndexer) (xs : List BatchRecord)
    (hio : s.sealIo = false) :
    ∃ s', (storeEach ix xs).exec StoreOp.run s =
        some (.ok ((xs.map (BatchRecord.row ix)).map Prod.fst), s') ∧
      Stored (xs.map (BatchRecord.row ix)) s s' := by
  induction xs generalizing s with
  | nil => exact ⟨s, rfl, .nil s⟩
  | cons x xs ih =>
    obtain ⟨s₁, hfirst, hstored⟩ := exec_store ix x hio
    obtain ⟨s₂, hrest, hstored'⟩ := ih (hstored.sealIo.trans hio)
    refine ⟨s₂, ?_, hstored.trans hstored'⟩
    rw [storeEach, Prog.exec_bind, hfirst]
    show (storeEach ix xs >>= fun _ => _).exec StoreOp.run s₁ = _
    rw [Prog.exec_bind, hrest]
    rfl

/-- **A batch agrees with its records, one by one**: when nothing else runs and nothing fails, both
end, in one way each, with the same keys and with stores that agree. -/
theorem storeBatch_agrees (xs : List BatchRecord) (hio : s.sealIo = false) :
    ∃ keys s₁ s₂,
      (∀ r s', Alone (storeSem L .reliable) (storeBatch s.indexer xs) s r s' ↔
        r = .ok keys ∧ s' = s₁) ∧
      (∀ r s', Alone (storeSem L .reliable) (storeEach s.indexer xs) s r s' ↔
        r = .ok keys ∧ s' = s₂) ∧
      keys = xs.map (fun x => (x.row s.indexer).1) ∧ Agree s₁ s₂ := by
  obtain ⟨s₁, hbatch, h₁⟩ := exec_storeBatch s.indexer xs hio
  obtain ⟨s₂, heach, h₂⟩ := exec_storeEach s.indexer xs hio
  exact ⟨_, s₁, s₂, fun _ _ => alone_reliable_iff hbatch, fun _ _ => alone_reliable_iff heach,
    List.map_map, h₁.agree h₂⟩

end Runs

section Sample

local instance batchSha : Sha256 := sampleDigests

/-- Records of a sealed epoch, two of them under one key. -/
def sampleRecords : List BatchRecord :=
  [⟨-1000, -1000, -1000, 0, 0, [0x62]⟩, ⟨-1000, -1000, -1000, 0, 1, [0x62]⟩,
    ⟨-1000, -1000, -1000, 0, 0, [0x61]⟩]

theorem storeBatch_agrees_sealedOnce : ∃ keys s₁ s₂,
    (∀ r s', Alone (storeSem merkleLeafDepth .reliable)
      (storeBatch sealedOnce.indexer sampleRecords) sealedOnce r s' ↔ r = .ok keys ∧ s' = s₁) ∧
    (∀ r s', Alone (storeSem merkleLeafDepth .reliable)
      (storeEach sealedOnce.indexer sampleRecords) sealedOnce r s' ↔ r = .ok keys ∧ s' = s₂) ∧
    keys = sampleRecords.map (fun x => (x.row sealedOnce.indexer).1) ∧ Agree s₁ s₂ :=
  storeBatch_agrees sampleRecords (by decide +kernel)

end Sample

end InterstellarDb
