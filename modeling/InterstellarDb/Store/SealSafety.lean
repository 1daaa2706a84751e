import InterstellarDb.Store.SealProtocol

/-!
# Safety of seal records

Any number of methods run on one store at once, interleaved at their atomic operations, with
failing commits and crashes. In every reachable state, a seal record on disk is *backed*: its
epoch is marked as sealed, has no write in flight and serializes to the bytes of the record, and
no row of the epoch was committed after the record (`backed_of_reachable`).

The invariant (`SealInv`) adds to that what each thread knows by the protocol: the marks of the
store are those of the threads, `seal_io` has one holder at most, and the holder's phase is true
of the store. Most operations leave the sealed epochs alone (`Calm`); the others are performed by
the holder of `seal_io`, when no other thread is in a phase.
-/

namespace InterstellarDb

open Atomic

variable {L : LeafDepth}

/-! ## Records -/

/-- The last commit that wrote the record of the epoch wrote these bytes, and no later commit
wrote a row of the epoch. -/
def KvTree.SinceRecord (kv : KvTree) (e : Epoch) (b : Bytes) : Prop :=
  ∃ newer c older, kv.log = newer ++ c :: older ∧ KvWrite.set (sealKey e) b ∈ c ∧
    ∀ ws ∈ newer, ∀ w ∈ ws, w.key ≠ sealKey e ∧ ∀ k : Key, k.epoch = e → w.key ≠ k.bytes

theorem KvTree.sinceRecord_setRecord (kv : KvTree) (e : Epoch) (b : Bytes) :
    (kv.commit [.set (sealKey e) b]).SinceRecord e b :=
  ⟨[], _, kv.log, rfl, List.mem_singleton_self _, by simp⟩

theorem KvTree.SinceRecord.commit {kv : KvTree} {e : Epoch} {b : Bytes} (h : kv.SinceRecord e b)
    {ws : List KvWrite}
    (hws : ∀ w ∈ ws, w.key ≠ sealKey e ∧ ∀ k : Key, k.epoch = e → w.key ≠ k.bytes) :
    (kv.commit ws).SinceRecord e b := by
  obtain ⟨newer, c, older, hlog, hc, hnewer⟩ := h
  refine ⟨ws :: newer, c, older, ?_, hc, ?_⟩
  · show ws :: kv.log = _
    rw [hlog, List.cons_append]
  · intro ws' hws'
    rcases List.mem_cons.1 hws' with rfl | hws'
    · exact hws
    · exact hnewer ws' hws'

/-- Writes to the record of another epoch. -/
theorem KvTree.SinceRecord.commit_record {kv : KvTree} {e e' : Epoch} {b : Bytes}
    (h : kv.SinceRecord e b) (he : e ≠ e') {w : KvWrite} (hw : w.key = sealKey e') :
    (kv.commit [w]).SinceRecord e b := by
  refine h.commit fun w' hw' => ?_
  rw [List.mem_singleton.1 hw', hw]
  exact ⟨fun h => he (sealKey_injective h).symm, fun k _ => sealKey_ne_bytes e' k⟩

/-- A seal record is backed by the store. -/
structure Backed (s : SpatioTemporalStore L) (e : Epoch) (b : Bytes) : Prop where
  sealed : e ∈ s.sealState.sealed
  marks : s.sealState.marks e = 0
  bytes : s.merkle.serializeEpoch e = some b
  since : s.tree.SinceRecord e b

/-- Changes in other epochs leave the record of an epoch alone. -/
theorem serializeEpoch_editAll [Sha256] {f : MerkleForest L} {edits : List MerkleEdit} {e : Epoch}
    (h : ∀ x ∈ edits, x.epoch ≠ e) : (f.editAll edits).serializeEpoch e = f.serializeEpoch e := by
  suffices htree : (f.editAll edits).tree e = f.tree e by
    rw [MerkleForest.serializeEpoch_eq, MerkleForest.serializeEpoch_eq, htree]
  induction edits generalizing f with
  | nil => rfl
  | cons x edits ih =>
    have hx := h x (by simp)
    have hone : (f.edit x).tree e = f.tree e := by
      cases x with
      | insert r => exact (f.tree_insert r.1 r.2 e).trans (if_neg hx)
      | remove r =>
        show (f.remove r.1 r.2).tree e = _
        cases ht : f.trees[r.1.epoch]? with
        | none => rw [MerkleForest.remove_of_none ht]
        | some t => exact (MerkleForest.tree_remove ⟨t, ht⟩ r.2 e).trans (if_neg hx)
    rw [← hone]
    exact ih fun y hy => h y (List.mem_cons_of_mem _ hy)

/-- Opening again, an epoch with an accepted record serializes to the same bytes. -/
theorem serializeEpoch_openStore [Sha256] {ix : HybridSpatioTemporalIndexer} {kv : KvTree}
    {e : Epoch} {b : Bytes} {t : EpochTree L} (hb : kv.record e = some b)
    (ht : serializeTree t = some b) (ha : Accepts L b) :
    (openStore L ix kv).merkle.serializeEpoch e = some b := by
  rw [MerkleForest.serializeEpoch_eq, ← ht]
  refine serializeTree_congr (fun p hp => ?_) ?_
  · rw [← MerkleForest.nodeHash_eq, (nodeHash_openStore _ _ e L.valid_bits hp).1 b hb ha,
      nodeHash_recordTree ht ha L.valid_bits hp]
  · exact ((count_openStore _ _ _ e).1 b hb ha).trans (count_recordTree ht)

/-! ## The invariant -/

/-- The thread holds `seal_io`. -/
def IoPhase.holds : IoPhase → Bool
  | .free => false
  | _ => true

/-- What a thread knows of the store in a phase. -/
def IoPhase.Agrees (s : SpatioTemporalStore L) : IoPhase → Prop
  | .free => True
  | .held => True
  | .sealing e => e ∈ s.sealState.sealed ∧ s.sealState.marks e = 0 ∧ s.tree.record e = none
  | .serialized e b => e ∈ s.sealState.sealed ∧ s.sealState.marks e = 0 ∧
      s.tree.record e = none ∧ s.merkle.serializeEpoch e = some b
  | .deleted k => ∀ e, k = sealKey e → s.tree.record e = none

theorem IoPhase.agrees_of_not_holds {p : IoPhase} (h : p.holds = false)
    (s : SpatioTemporalStore L) : p.Agrees s := by
  cases p with
  | free => trivial
  | held => trivial
  | sealing e => cases h
  | serialized e b => cases h
  | deleted k => cases h

/-- **The invariant of the seal protocol.** -/
structure SealInv (s : SpatioTemporalStore L) (gs : List SealGhost) : Prop where
  marks : ∀ e, s.sealState.marks e = (gs.map fun g => g.marks e).sum
  io : gs.countP (fun g => g.io.holds) = s.sealIo.toNat
  record : ∀ e b, s.tree.record e = some b → Backed s e b
  phase : ∀ g ∈ gs, g.io.Agrees s

variable {s s' : SpatioTemporalStore L} {g g' : SealGhost} {l : List SealGhost}

theorem SealInv.perm {gs : List SealGhost} (h : SealInv s gs) (hp : gs.Perm l) : SealInv s l where
  marks := fun e => (h.marks e).trans (hp.map _).sum_eq
  io := (hp.countP_eq _).symm.trans h.io
  record := h.record
  phase := fun g hg => h.phase g (hp.mem_iff.2 hg)

/-- A step of the first thread keeps the invariant when its marks and its hold of `seal_io` change
with those of the store. -/
theorem SealInv.update (h : SealInv s (g :: l))
    (hmarks : ∀ e, s'.sealState.marks e + g.marks e = s.sealState.marks e + g'.marks e)
    (hio : s'.sealIo.toNat + g.io.holds.toNat = s.sealIo.toNat + g'.io.holds.toNat)
    (hrecord : ∀ e b, s'.tree.record e = some b → Backed s' e b) (hphase : g'.io.Agrees s')
    (hrest : ∀ x ∈ l, x.io.Agrees s') : SealInv s' (g' :: l) where
  marks := by
    intro e
    have h₁ := h.marks e
    have h₂ := hmarks e
    rw [List.map_cons, List.sum_cons] at h₁ ⊢
    omega
  io := by
    have h₁ := h.io
    rw [List.countP_cons] at h₁ ⊢
    cases hg : g.io.holds <;> cases hg' : g'.io.holds <;>
      simp only [hg, hg', Bool.toNat_true, Bool.toNat_false, ↓reduceIte,
        Bool.false_eq_true] at * <;>
      omega
  record := hrecord
  phase := by
    intro x hx
    rcases List.mem_cons.1 hx with rfl | hx
    · exact hphase
    · exact hrest x hx

/-- While a thread holds `seal_io`, no other one does. -/
theorem SealInv.others_free (h : SealInv s (g :: l)) (hg : g.io.holds = true) :
    s.sealIo = true ∧ ∀ x ∈ l, x.io.holds = false := by
  have hio := h.io
  rw [List.countP_cons, if_pos hg] at hio
  cases hs : s.sealIo with
  | false =>
    rw [hs] at hio
    simp at hio
  | true =>
    rw [hs, Bool.toNat_true, Nat.add_eq_right, List.countP_eq_zero] at hio
    exact ⟨rfl, fun x hx => by simpa using hio x hx⟩

/-! ## Operations that leave the sealed epochs alone -/

/-- From `s` to `s'`, the records, the sealed epochs and the trees of those without a write in
flight stay, and no row of these is written. -/
structure Calm (s s' : SpatioTemporalStore L) : Prop where
  record : s'.tree.record = s.tree.record
  sealed : s'.sealState.sealed = s.sealState.sealed
  epoch : ∀ e ∈ s.sealState.sealed, s.sealState.marks e = 0 →
    s'.sealState.marks e = 0 ∧ s'.merkle.serializeEpoch e = s.merkle.serializeEpoch e ∧
      ∀ b, s.tree.SinceRecord e b → s'.tree.SinceRecord e b

theorem Calm.backed (h : Calm s s') {e : Epoch} {b : Bytes} (hb : Backed s e b) :
    Backed s' e b := by
  obtain ⟨hm, hs, hsince⟩ := h.epoch e hb.sealed hb.marks
  exact ⟨h.sealed ▸ hb.sealed, hm, hs.trans hb.bytes, hsince b hb.since⟩

theorem Calm.agrees (h : Calm s s') {p : IoPhase} (hp : p.Agrees s) : p.Agrees s' := by
  cases p with
  | free => trivial
  | held => trivial
  | sealing e =>
    obtain ⟨hs, hm, hr⟩ := hp
    exact ⟨h.sealed ▸ hs, (h.epoch e hs hm).1, (congrFun h.record e).trans hr⟩
  | serialized e b =>
    obtain ⟨hs, hm, hr, hb⟩ := hp
    obtain ⟨hm', hb', -⟩ := h.epoch e hs hm
    exact ⟨h.sealed ▸ hs, hm', (congrFun h.record e).trans hr, hb'.trans hb⟩
  | deleted k => exact fun e he => (congrFun h.record e).trans (hp e he)

theorem SealInv.calm (h : SealInv s (g :: l)) (hc : Calm s s')
    (hmarks : ∀ e, s'.sealState.marks e + g.marks e = s.sealState.marks e + g'.marks e)
    (hio : s'.sealIo.toNat + g.io.holds.toNat = s.sealIo.toNat + g'.io.holds.toNat)
    (hphase : g'.io.Agrees s') : SealInv s' (g' :: l) :=
  h.update hmarks hio (fun e b hb => hc.backed (h.record e b (hc.record ▸ hb))) hphase
    fun x hx => hc.agrees (h.phase x (List.mem_cons_of_mem _ hx))

theorem SealInv.marks_pos (h : SealInv s (g :: l)) {e : Epoch} (he : 0 < g.marks e) :
    0 < s.sealState.marks e := by
  rw [h.marks e, List.map_cons, List.sum_cons]
  omega

theorem SealInv.markUnlessSealed (h : SealInv s (g :: l)) {e : Epoch}
    (he : e ∉ s.sealState.sealed) :
    SealInv { s with sealState := s.sealState.mark e } (g.mark [e] :: l) := by
  have hc : Calm s { s with sealState := s.sealState.mark e } := by
    refine ⟨rfl, rfl, fun e' he' hm => ⟨?_, rfl, fun _ h => h⟩⟩
    have hne : e ≠ e' := fun h => he (h ▸ he')
    dsimp only
    rw [SealState.marks_mark, if_neg hne, hm]
  refine h.calm hc (fun e' => ?_) rfl (hc.agrees (h.phase g (by simp)))
  simp only [SealState.marks_mark, SealGhost.mark, List.count_singleton, beq_iff_eq]
  omega

theorem SealInv.endMarks (h : SealInv s (g :: l)) {es : List Epoch}
    (hes : ∀ e, es.count e ≤ g.marks e) :
    SealInv { s with sealState := es.foldl SealState.unmark s.sealState } (g.unmark es :: l) := by
  have hmarks := SpatioTemporalStore.marks_foldl_unmark es s.sealState
  have hc : Calm s { s with sealState := es.foldl SealState.unmark s.sealState } := by
    refine ⟨rfl, SpatioTemporalStore.sealed_foldl_unmark es s.sealState, fun e _ hm => ?_⟩
    refine ⟨?_, rfl, fun _ h => h⟩
    dsimp only
    rw [hmarks, hm, Nat.zero_sub]
  refine h.calm hc (fun e => ?_) rfl (hc.agrees (h.phase g (by simp)))
  have h₁ := h.marks e
  have h₂ := hes e
  rw [List.map_cons, List.sum_cons] at h₁
  simp only [hmarks, SealGhost.unmark]
  omega

/-- Rows are committed in marked epochs only. -/
theorem SealInv.commitRows (h : SealInv s (g :: l)) {rows : List Row}
    (hrows : ∀ r ∈ rows, 0 < g.marks r.1.epoch) :
    SealInv { s with tree := s.tree.commit (KvTree.setRows rows) } (g :: l) := by
  have hc : Calm s { s with tree := s.tree.commit (KvTree.setRows rows) } := by
    refine ⟨KvTree.record_setRows _ _, rfl, fun e _ hm => ⟨hm, rfl, fun b hb => hb.commit ?_⟩⟩
    intro w hw
    obtain ⟨r, hr, rfl⟩ := List.mem_map.1 hw
    refine ⟨(sealKey_ne_bytes e r.1).symm, fun k hk hb => ?_⟩
    obtain rfl : r.1 = k := Key.ext hb
    have := h.marks_pos (hrows r hr)
    rw [hk] at this
    omega
  exact h.calm hc (fun _ => rfl) rfl (hc.agrees (h.phase g (by simp)))

/-- The forest changes in marked epochs only. -/
theorem SealInv.foldMerkle [Sha256] (h : SealInv s (g :: l)) {edits : List MerkleEdit}
    (hedits : ∀ x ∈ edits, 0 < g.marks x.epoch) :
    SealInv { s with merkle := s.merkle.editAll edits } (g :: l) := by
  have hc : Calm s { s with merkle := s.merkle.editAll edits } := by
    refine ⟨rfl, rfl, fun e _ hm => ⟨hm, serializeEpoch_editAll fun x hx he => ?_, fun _ h => h⟩⟩
    have := h.marks_pos (hedits x hx)
    rw [he] at this
    omega
  exact h.calm hc (fun _ => rfl) rfl (hc.agrees (h.phase g (by simp)))

theorem SealInv.lockSealIo (h : SealInv s (g :: l)) (hs : s.sealIo = false) (hg : g.io = .free) :
    SealInv { s with sealIo := true } (g.withIo .held :: l) := by
  have hc : Calm s { s with sealIo := true } := ⟨rfl, rfl, fun _ _ hm => ⟨hm, rfl, fun _ h => h⟩⟩
  refine h.calm hc (fun _ => rfl) ?_ trivial
  simp only [hs, hg, SealGhost.io_withIo]
  rfl

theorem SealInv.unlockSealIo (h : SealInv s (g :: l)) (hg : g.io = .held) :
    SealInv { s with sealIo := false } (g.withIo .free :: l) := by
  have hc : Calm s { s with sealIo := false } := ⟨rfl, rfl, fun _ _ hm => ⟨hm, rfl, fun _ h => h⟩⟩
  refine h.calm hc (fun _ => rfl) ?_ trivial
  have hs := (h.others_free (by rw [hg]; rfl)).1
  simp only [hs, hg, SealGhost.io_withIo]
  rfl

/-! ## Operations of the holder -/

/-- A step of the holder of `seal_io` that keeps its hold. -/
theorem SealInv.holder (h : SealInv s (g :: l)) (hg : g.io.holds = true) (hg' : g'.io.holds = true)
    (hmarks : ∀ e, s'.sealState.marks e + g.marks e = s.sealState.marks e + g'.marks e)
    (hio : s'.sealIo = s.sealIo) (hrecord : ∀ e b, s'.tree.record e = some b → Backed s' e b)
    (hphase : g'.io.Agrees s') : SealInv s' (g' :: l) := by
  refine h.update hmarks (by rw [hio, hg, hg']) hrecord hphase fun x hx => ?_
  exact IoPhase.agrees_of_not_holds ((h.others_free hg).2 x hx) s'

theorem SealInv.removeSealedAndMark (h : SealInv s (g :: l)) {e : Epoch}
    (hg : g.io = .deleted (sealKey e)) :
    SealInv { s with sealState := (s.sealState.removeSealed e).mark e }
      ((g.withIo .held).mark [e] :: l) := by
  have hnone : s.tree.record e = none := by
    have := h.phase g (by simp)
    rw [hg] at this
    exact this e rfl
  refine h.holder (by rw [hg]; rfl) rfl (fun e' => ?_) rfl (fun e' b hb => ?_) trivial
  · simp only [SealState.marks_mark, SealState.marks_removeSealed, SealGhost.mark,
      SealGhost.withIo, List.count_singleton, beq_iff_eq]
    omega
  · obtain ⟨hs, hm, hbytes, hsince⟩ := h.record e' b hb
    have hne : e' ≠ e := fun h => by cases (h ▸ hnone).symm.trans hb
    refine ⟨Finset.mem_erase.2 ⟨hne, hs⟩, ?_, hbytes, hsince⟩
    dsimp only
    rw [SealState.marks_mark, SealState.marks_removeSealed, if_neg hne.symm, hm]

theorem SealInv.trySeal (h : SealInv s (g :: l)) (hg : g.io = .held) {e : Epoch}
    (hs : e ∉ s.sealState.sealed) (hm : s.sealState.marks e = 0) :
    SealInv { s with sealState := s.sealState.insertSealed e } (g.withIo (.sealing e) :: l) := by
  have hnone : s.tree.record e = none := by
    rw [Option.eq_none_iff_forall_ne_some]
    exact fun b hb => hs (h.record e b hb).sealed
  refine h.holder (by rw [hg]; rfl) rfl (fun _ => rfl) rfl (fun e' b hb => ?_)
    ⟨Finset.mem_insert_self _ _, hm, hnone⟩
  obtain ⟨hs', hm', hbytes, hsince⟩ := h.record e' b hb
  exact ⟨Finset.mem_insert_of_mem hs', hm', hbytes, hsince⟩

theorem SealInv.removeSealed (h : SealInv s (g :: l)) {e : Epoch}
    (hg : g.io = .sealing e ∨ ∃ b, g.io = .serialized e b) :
    SealInv { s with sealState := s.sealState.removeSealed e } (g.withIo .held :: l) := by
  have hphase := h.phase g (by simp)
  have hnone : g.io.holds = true ∧ s.tree.record e = none := by
    rcases hg with hg | ⟨b, hg⟩
    · rw [hg] at hphase ⊢
      exact ⟨rfl, hphase.2.2⟩
    · rw [hg] at hphase ⊢
      exact ⟨rfl, hphase.2.2.1⟩
  refine h.holder hnone.1 rfl (fun _ => rfl) rfl (fun e' b hb => ?_) trivial
  obtain ⟨hs, hm, hbytes, hsince⟩ := h.record e' b hb
  have hne : e' ≠ e := fun h => by cases (h ▸ hnone.2).symm.trans hb
  exact ⟨Finset.mem_erase.2 ⟨hne, hs⟩, hm, hbytes, hsince⟩

theorem SealInv.serializeEpoch (h : SealInv s (g :: l)) {e : Epoch} (hg : g.io = .sealing e) :
    SealInv s (g.withIo (g.io.serialize e (s.merkle.serializeEpoch e)) :: l) := by
  have hphase := h.phase g (by simp)
  rw [hg] at hphase ⊢
  obtain ⟨hs, hm, hr⟩ := hphase
  cases hb : s.merkle.serializeEpoch e with
  | none => exact h.holder (by rw [hg]; rfl) rfl (fun _ => rfl) rfl h.record ⟨hs, hm, hr⟩
  | some b => exact h.holder (by rw [hg]; rfl) rfl (fun _ => rfl) rfl h.record ⟨hs, hm, hr, hb⟩

/-- The deletion of a record. -/
theorem SealInv.commitDelete (h : SealInv s (g :: l)) (hg : g.io = .held) (e : Epoch) :
    SealInv { s with tree := s.tree.commit [.delete (sealKey e)] }
      (g.withIo (.deleted (sealKey e)) :: l) := by
  have hrecord := KvTree.record_deleteRecord s.tree e
  refine h.holder (by rw [hg]; rfl) rfl (fun _ => rfl) rfl (fun e' b hb => ?_) fun e' he => ?_
  · dsimp only at hb
    rw [hrecord] at hb
    have hne : e' ≠ e := by
      rintro rfl
      rw [Function.update_self] at hb
      cases hb
    rw [Function.update_of_ne hne] at hb
    obtain ⟨hs, hm, hbytes, hsince⟩ := h.record e' b hb
    exact ⟨hs, hm, hbytes, hsince.commit_record hne rfl⟩
  · dsimp only
    rw [hrecord, sealKey_injective he, Function.update_self]

/-- The record of an epoch is written while it is sealed and has no write in flight. -/
theorem SealInv.commitRecord (h : SealInv s (g :: l)) {e : Epoch} {b : Bytes}
    (hg : g.io = .serialized e b) :
    SealInv { s with tree := s.tree.commit [.set (sealKey e) b] } (g.withIo .held :: l) := by
  have hphase := h.phase g (by simp)
  rw [hg] at hphase
  obtain ⟨hs, hm, -, hbytes⟩ := hphase
  refine h.holder (by rw [hg]; rfl) rfl (fun _ => rfl) rfl (fun e' b' hb => ?_) trivial
  dsimp only at hb
  rw [KvTree.record_setRecord] at hb
  by_cases he : e' = e
  · subst he
    rw [Function.update_self] at hb
    obtain rfl := Option.some.inj hb
    exact ⟨hs, hm, hbytes, s.tree.sinceRecord_setRecord e' b⟩
  · rw [Function.update_of_ne he] at hb
    obtain ⟨hs, hm, hbytes, hsince⟩ := h.record e' b' hb
    exact ⟨hs, hm, hbytes, hsince.commit_record he rfl⟩

/-! ## Runs -/

section Runs

theorem SealInv.publish (h : SealInv s (g :: l)) (x : Row) : SealInv (s.publish x) (g :: l) := by
  unfold SpatioTemporalStore.publish
  split_ifs
  · exact h
  · have hc : Calm s
        { s with events := s.events ++ [SpatioTemporalStore.observationEvent s.indexer x] } :=
      ⟨rfl, rfl, fun _ _ hm => ⟨hm, rfl, fun _ h => h⟩⟩
    exact h.calm hc (fun _ => rfl) rfl (hc.agrees (h.phase g (by simp)))

/-- A commit, of any of the three kinds. -/
theorem SealInv.kvCommit (h : SealInv s (g :: l)) {ws : List KvWrite} (ha : g.MayCommit ws) :
    SealInv { s with tree := s.tree.commit ws } (g.withIo (g.io.commit ws) :: l) := by
  cases ha with
  | rows rows hio hrows =>
    rw [hio, show IoPhase.free.commit (KvTree.setRows rows) = .free from rfl,
      SealGhost.withIo_eq_self hio]
    exact h.commitRows hrows
  | delete e hio =>
    rw [hio]
    exact h.commitDelete hio e
  | record e b hio =>
    rw [hio]
    exact h.commitRecord hio

/-- A thread that starts. -/
theorem SealInv.start (h : SealInv s l) : SealInv s (SealGhost.start :: l) where
  marks := by
    intro e
    rw [h.marks e, List.map_cons, List.sum_cons, SealGhost.start, Nat.zero_add]
  io := by
    rw [List.countP_cons, h.io]
    rfl
  record := h.record
  phase := by
    intro g hg
    rcases List.mem_cons.1 hg with rfl | hg
    · trivial
    · exact h.phase g hg

theorem sealInv_empty [Sha256] (ix : HybridSpatioTemporalIndexer) :
    SealInv (openStore L ix .empty) [] where
  marks := fun _ => rfl
  io := rfl
  record := by
    intro e b hb
    simp [KvTree.record, KvTree.get, KvTree.empty] at hb
  phase := by simp

variable [Sha256] {pol : KvPolicy}

/-- **The invariant is kept by every operation that the protocol allows.** -/
theorem SealInv.step {o : StoreOp} {r : o.Resp} (h : SealInv s (g :: l)) (ha : g.allow o)
    (ho : storeSem L pol o s r s') : SealInv s' (g.next o r :: l) := by
  cases o with
  | markUnlessSealed e =>
    rcases sem_markUnlessSealed.1 ho with ⟨-, rfl, rfl⟩ | ⟨he, rfl, rfl⟩
    · exact h
    · exact h.markUnlessSealed he
  | removeSealedAndMark e =>
    obtain rfl := sem_removeSealedAndMark.1 ho
    exact h.removeSealedAndMark ha
  | endMarks es =>
    obtain rfl := sem_endMarks.1 ho
    exact h.endMarks ha
  | trySeal e =>
    rcases sem_trySeal.1 ho with ⟨-, rfl, rfl⟩ | ⟨⟨hs, hm⟩, rfl, rfl⟩
    · exact h
    · refine h.trySeal ha hs ?_
      rw [SealState.marks, Std.ExtTreeMap.getD_eq_getD_getElem?, hm, Option.getD_none]
  | removeSealed e =>
    obtain rfl := sem_removeSealed.1 ho
    exact h.removeSealed ha
  | lockSealIo =>
    obtain ⟨hs, rfl⟩ := sem_lockSealIo.1 ho
    exact h.lockSealIo hs ha
  | unlockSealIo =>
    obtain rfl := sem_unlockSealIo.1 ho
    exact h.unlockSealIo ha
  | kvBegin =>
    obtain ⟨-, rfl⟩ := sem_kvBegin.1 ho
    exact h
  | kvStage w =>
    obtain ⟨-, rfl⟩ := sem_kvStage.1 ho
    exact h
  | kvCommit n ws =>
    rcases sem_kvCommit.1 ho with ⟨-, rfl, rfl⟩ | ⟨-, ⟨err, rfl⟩, rfl⟩
    · exact h.kvCommit ha
    · exact h
  | kvGet k =>
    obtain ⟨-, rfl⟩ := sem_kvGet.1 ho
    exact h
  | foldMerkle edits =>
    obtain rfl := sem_foldMerkle.1 ho
    exact h.foldMerkle ha
  | merkleEpochs =>
    obtain ⟨-, rfl⟩ := sem_merkleEpochs.1 ho
    exact h
  | serializeEpoch e =>
    obtain ⟨rfl, rfl⟩ := sem_serializeEpoch.1 ho
    exact h.serializeEpoch ha
  | publish x =>
    obtain rfl := sem_publish.1 ho
    exact h.publish x

/-- A disk whose records are backed is opened with no thread running. -/
theorem SealInv.openStore (h : SealInv s l) (hL : L.bits < 32) (ix : HybridSpatioTemporalIndexer) :
    SealInv (openStore L ix s.tree) [] where
  marks := fun _ => rfl
  io := rfl
  record := by
    intro e b hb
    have hback := h.record e b hb
    have hbytes := hback.bytes
    rw [MerkleForest.serializeEpoch_eq] at hbytes
    have ha := accepts_of_serializeTree hL hbytes
    exact ⟨mem_sealed_openStore.2 ⟨b, hb, ha⟩, rfl, serializeEpoch_openStore hb hbytes ha,
      hback.since⟩
  phase := by simp

/-- The program is that of a method of the store. -/
def IsMethod (p : StoreProg (Except String Bool)) : Prop := ∃ ix c, p = StoreCall.prog ix c

/-- A step of a store on which methods run: an operation of one of them, or the start of another
one; or a crash, and the store is opened again. -/
inductive SealStep : Pool storeSig (SpatioTemporalStore merkleLeafDepth) (Except String Bool) →
    Pool storeSig (SpatioTemporalStore merkleLeafDepth) (Except String Bool) → Prop
  | op {c c' : Pool storeSig (SpatioTemporalStore merkleLeafDepth) (Except String Bool)}
      (h : Pool.Step (storeSem merkleLeafDepth .faulty) IsMethod (fun _ _ => True) c c') :
      SealStep c c'
  | crash {c : Pool storeSig (SpatioTemporalStore merkleLeafDepth) (Except String Bool)}
      (ix : HybridSpatioTemporalIndexer) :
      SealStep c ⟨InterstellarDb.openStore merkleLeafDepth ix c.state.tree, []⟩

/-- The marks that a thread holds on an epoch, by the operations that it performed. -/
def marksHeld (past : List (Σ o : StoreOp, o.Resp)) (e : Epoch) : ℕ :=
  (sealProtocol.replay SealGhost.start past).marks e

/-- The ghost values of the threads of a pool keep the invariant. -/
abbrev SealTracked (c : Pool storeSig (SpatioTemporalStore L) (Except String Bool)) : Prop :=
  Tracked (P := sealProtocol) (fun _ _ => True) (· = SealGhost.start) SealInv c

theorem sealTracked_step {c c' : Pool storeSig (SpatioTemporalStore L) (Except String Bool)}
    (h : Pool.Step (storeSem L pol) IsMethod (fun _ _ => True) c c') (hc : SealTracked c) :
    SealTracked c' := by
  refine Tracked.step (fun hJ _ _ ha ho => ?_) ?_ h hc
  · exact ((hJ.perm List.perm_middle).step ha ho).perm List.perm_middle.symm
  · rintro p ⟨ix, call, rfl⟩
    refine ⟨SealGhost.start, rfl, (follows_prog ix call rfl).mono fun _ _ _ => trivial, ?_⟩
    intro s gs hJ
    exact hJ.start.perm (List.perm_append_singleton SealGhost.start gs).symm

/-- **Seal records are safe.** From an empty disk on, in every state that methods, failing commits
and crashes can reach, the record of an epoch is backed by the store, and no thread holds a mark
on the epoch. -/
theorem backed_of_reachable (ix : HybridSpatioTemporalIndexer)
    {c : Pool storeSig (SpatioTemporalStore merkleLeafDepth) (Except String Bool)}
    (h : Relation.ReflTransGen SealStep
      ⟨InterstellarDb.openStore merkleLeafDepth ix .empty, []⟩ c) :
    ∀ e b, c.state.tree.record e = some b →
      Backed c.state e b ∧ ∀ t ∈ c.threads, marksHeld t.past e = 0 := by
  suffices hc : SealTracked c by
    intro e b hb
    obtain ⟨l, hl, ht, hJ⟩ := hc
    have hback := hJ.record e b hb
    refine ⟨hback, fun t htc => ?_⟩
    rw [← hl] at htc
    obtain ⟨x, hx, rfl⟩ := List.mem_map.1 htc
    obtain ⟨g₀, rfl, hg⟩ := (ht x hx).past
    have hsum := (hJ.marks e).symm.trans hback.marks
    have hzero := List.sum_eq_zero_iff.1 hsum
    rw [marksHeld, ← hg]
    exact hzero _ (List.mem_map_of_mem (List.mem_map_of_mem hx))
  induction h with
  | refl => exact tracked_nil (sealInv_empty ix)
  | tail _ hstep ih =>
    cases hstep with
    | op hop => exact sealTracked_step hop ih
    | crash ix' =>
      obtain ⟨l, -, -, hJ⟩ := ih
      exact tracked_nil (hJ.openStore (by decide) ix')

end Runs

/-! ## A write and a sealing pass, interleaved -/

section Sample

local instance sealSafetySha : Sha256 := sampleDigests

theorem sem_faulty {o : StoreOp} {s s' : SpatioTemporalStore L} {r : o.Resp}
    (h : o.run s = some (r, s')) : storeSem L .faulty o s r s' := by
  refine .inl ⟨?_, h⟩
  cases o <;> trivial

/-- A write and a sealing pass that start on an empty disk. -/
def sealStartPool : Pool storeSig (SpatioTemporalStore merkleLeafDepth) (Except String Bool) :=
  ⟨sampleStore, [.new ((storeCorner 0 [0x61]).prog testIndexer),
    .new ((StoreCall.sealSettledEpochs 7200 0).prog testIndexer)]⟩

/-- The sealing pass begins before the write has ended, and takes `seal_io` after. -/
def sealedPool :
    Option (Pool storeSig (SpatioTemporalStore merkleLeafDepth) (Except String Bool)) :=
  Pool.schedule StoreOp.run (fun _ _ => true) [0, 0, 0, 0, 0, 1, 0, 0, 1, 1, 1, 1, 1, 1, 1]
    sealStartPool

theorem backed_of_reachable_sample : ∃ c b, sealedPool = some c ∧
    c.state.tree.record 0 = some b ∧ Backed c.state 0 b := by
  have hrecord : (sealedPool.bind fun c => c.state.tree.record 0).isSome := by decide +kernel
  obtain ⟨b, hb⟩ := Option.isSome_iff_exists.1 hrecord
  obtain ⟨c, hc, hb⟩ := Option.bind_eq_some_iff.1 hb
  have hops : Pool.Runs (storeSem merkleLeafDepth .faulty) IsMethod (fun _ _ => True)
      sealStartPool c :=
    Pool.runs_of_schedule (fun _ _ _ _ => sem_faulty) (fun _ _ _ => trivial) hc
  have hreach : Relation.ReflTransGen SealStep
      ⟨InterstellarDb.openStore merkleLeafDepth testIndexer .empty, []⟩ c := by
    refine .head (.op (.start ⟨testIndexer, storeCorner 0 [0x61], rfl⟩))
      (.head (.op (.start ⟨testIndexer, .sealSettledEpochs 7200 0, rfl⟩)) ?_)
    exact hops.lift id fun _ _ => SealStep.op
  exact ⟨c, b, hc, hb, (backed_of_reachable testIndexer hreach 0 b hb).1⟩

end Sample

end InterstellarDb
