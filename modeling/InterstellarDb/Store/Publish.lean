import InterstellarDb.Foundations.Atomic.Trace
import InterstellarDb.Index.KeyOrder
import InterstellarDb.Store.Calls

/-!
# Publishing a replicated row

`publish` decodes the key of the row that it announces. A key that a peer sends is checked for its
length only, and the epoch and the offset of such a key are independent of each other.

* Decoding a key overflows nowhere and gives a second of the key's own epoch exactly when the
  instant fits into 64 bits and the offset is shorter than an epoch (`publishesInEpoch_iff`).
* So what `ingest` publishes is right, in every run and whoever interferes, exactly for those keys
  (`ingestPublishes_iff`).
-/

namespace InterstellarDb

open Atomic GreatestWins

variable {L : LeafDepth}

/-! ## Keys that fit -/

namespace HybridSpatioTemporalIndexer

/-- The instant of the key fits into 64 bits of nanoseconds, and its offset is shorter than an
epoch. -/
def FitsEpoch (ix : HybridSpatioTemporalIndexer) (k : Key) : Prop :=
  k.epoch * ix.epochDuration * nanosPerSec + k.offset < 2 ^ 64 ∧
    k.offset < ix.epochDuration * nanosPerSec

instance (ix : HybridSpatioTemporalIndexer) (k : Key) : Decidable (ix.FitsEpoch k) :=
  inferInstanceAs (Decidable (_ ∧ _))

variable {ix : HybridSpatioTemporalIndexer}

/-- The epoch of the second that a key denotes, with the carry of its offset. -/
theorem totalSecs_div (ix : HybridSpatioTemporalIndexer) (k : Key) :
    (k.epoch * ix.epochDuration * nanosPerSec + k.offset) / nanosPerSec / ix.epochDuration =
      k.epoch + k.offset / (ix.epochDuration * nanosPerSec) := by
  have hpos : 0 < ix.epochDuration * nanosPerSec := Nat.mul_pos ix.epochDuration_pos nanosPerSec_pos
  rw [Nat.div_div_eq_div_mul, Nat.mul_comm nanosPerSec, mul_assoc, Nat.mul_comm,
    Nat.mul_add_div hpos]

end HybridSpatioTemporalIndexer

/-! ## Publish, checked -/

/-- `publish` with the arithmetic of `decode_key` checked. -/
def SpatioTemporalStore.checkedPublish (s : SpatioTemporalStore L) (r : Row) :
    Option (SpatioTemporalStore L) :=
  if s.receivers = 0 then some s
  else do
    let (x, y, z, secs, nanos) ← s.indexer.checkedDecodeKey r.1
    return { s with events := s.events ++ [⟨r.1, x, y, z, secs, nanos, r.2⟩] }

/-- Publishing the row overflows nowhere, does what `publish` does, and every event that it sends
has its second in the epoch of its key. -/
def SpatioTemporalStore.PublishesInEpoch (s : SpatioTemporalStore L) (r : Row) : Prop :=
  s.checkedPublish r = some (s.publish r) ∧
    ∃ new, (s.publish r).events = s.events ++ new ∧
      ∀ ev ∈ new, ev.timestampSecs / s.indexer.epochDuration = ev.key.epoch

/-- **When publishing a row is right**: nobody listens, or the key fits. -/
theorem publishesInEpoch_iff {s : SpatioTemporalStore L} {r : Row} :
    s.PublishesInEpoch r ↔ s.receivers = 0 ∨ s.indexer.FitsEpoch r.1 := by
  have hpos : 0 < s.indexer.epochDuration * nanosPerSec :=
    Nat.mul_pos s.indexer.epochDuration_pos HybridSpatioTemporalIndexer.nanosPerSec_pos
  have hsecs := HybridSpatioTemporalIndexer.totalSecs_div s.indexer r.1
  unfold SpatioTemporalStore.PublishesInEpoch SpatioTemporalStore.checkedPublish
    SpatioTemporalStore.publish
  by_cases hr : s.receivers = 0
  · rw [if_pos hr, if_pos hr]
    exact iff_of_true
      ⟨rfl, [], (List.append_nil _).symm, fun _ h => absurd h List.not_mem_nil⟩ (.inl hr)
  · rw [if_neg hr, if_neg hr, or_iff_right hr]
    constructor
    · rintro ⟨hchecked, new, hnew, hepoch⟩
      obtain ⟨x, hx, -⟩ := Option.bind_eq_some_iff.1 hchecked
      obtain ⟨hfits, rfl⟩ := HybridSpatioTemporalIndexer.checkedDecodeKey_eq_some.1 hx
      obtain rfl := List.append_cancel_left hnew
      have h := hepoch _ (List.mem_singleton_self _)
      simp only [SpatioTemporalStore.observationEvent, HybridSpatioTemporalIndexer.decodeKey,
        HybridSpatioTemporalIndexer.totalNanos, Nat.mod_eq_of_lt hfits, hsecs] at h
      exact ⟨hfits, (Nat.div_eq_zero_iff_lt hpos).1 (Nat.left_eq_add.1 h.symm)⟩
    · rintro ⟨hfits, hlt⟩
      have hchecked := HybridSpatioTemporalIndexer.checkedDecodeKey_eq_some.2
        ⟨hfits, (rfl : s.indexer.decodeKey r.1 = _)⟩
      refine ⟨by rw [hchecked]; rfl, _, rfl, fun ev hev => ?_⟩
      rw [List.mem_singleton] at hev
      simp only [hev, SpatioTemporalStore.observationEvent, HybridSpatioTemporalIndexer.decodeKey,
        HybridSpatioTemporalIndexer.totalNanos, Nat.mod_eq_of_lt hfits, hsecs,
        Nat.div_eq_of_lt hlt, add_zero]

/-! ## A write publishes its rows only -/

section Only

variable {C : StoreOp → Prop}

theorem only_commitWrites (h : ∀ o, (∀ x, o ≠ .publish x) → C o) (ws : List KvWrite) :
    Follows (S := storeSig) (.only C) (fun _ _ => True) () (commitWrites ws) := by
  refine follows_commitWrites (Protocol.neutral_only ?_) (fun _ => Protocol.neutral_only ?_)
    (fun _ => trivial) fun n => ⟨?_, fun _ => trivial⟩
  · exact h _ fun _ => by simp
  · exact h _ fun _ => by simp
  · exact h _ fun _ => by simp

theorem only_beginWriteEpoch (h : ∀ o, (∀ x, o ≠ .publish x) → C o) (e : Epoch) :
    Follows (S := storeSig) (.only C) (fun _ _ => True) () (beginWriteEpoch e) := by
  refine ⟨h _ fun _ => by simp, fun marked => ?_⟩
  cases marked with
  | true => trivial
  | false =>
    refine ⟨h _ fun _ => by simp, fun _ => (only_commitWrites h _).bind fun r _ _ => ?_⟩
    cases r with
    | error err => exact ⟨h _ fun _ => by simp, fun _ => trivial⟩
    | ok _ => exact ⟨h _ fun _ => by simp, fun _ => ⟨h _ fun _ => by simp, fun _ => trivial⟩⟩

theorem only_beginWriteEpochsFrom (h : ∀ o, (∀ x, o ≠ .publish x) → C o) (marked es : List Epoch) :
    Follows (S := storeSig) (.only C) (fun _ _ => True) () (beginWriteEpochsFrom marked es) := by
  induction es generalizing marked with
  | nil => trivial
  | cons e es ih =>
    refine (only_beginWriteEpoch h e).bind fun r _ _ => ?_
    cases r with
    | error err => exact ⟨h _ fun _ => by simp, fun _ => trivial⟩
    | ok _ => exact ih _

/-- **A write publishes its rows** and nothing else. -/
theorem only_writeRows {rows : List Row} (h : ∀ o, (∀ x, o = .publish x → x ∈ rows) → C o)
    (es : List Epoch) (edits : List MerkleEdit) :
    Follows (S := storeSig) (.only C) (fun _ _ => True) () (writeRows es edits rows) := by
  have hother : ∀ o, (∀ x, o ≠ .publish x) → C o := fun o ho => h o fun x hx => absurd hx (ho x)
  refine (only_beginWriteEpochsFrom hother [] es).bind fun r _ _ => ?_
  cases r with
  | error err => trivial
  | ok _ =>
    have hcommit : Follows (S := storeSig) (.only C) (fun _ _ => True) ()
        (commitAndFold edits rows) := by
      refine (only_commitWrites hother _).bind fun r _ _ => ?_
      cases r with
      | error err => trivial
      | ok _ =>
        refine ⟨hother _ fun _ => by simp, fun _ => ?_⟩
        refine (follows_publishAll fun x hx => Protocol.neutral_only (h _ fun y hy => ?_)).bind
          fun _ _ _ => trivial
        rwa [← StoreOp.publish.inj hy]
    exact hcommit.bind fun _ _ _ => ⟨hother _ fun _ => by simp, fun _ => trivial⟩

/-- `ingest` publishes its row and nothing else. -/
theorem only_ingest [Sha256] (k : Key) (v : Bytes) :
    Follows (S := storeSig) (.only fun o => ∀ x, o = .publish x → x = (k, v)) (fun _ _ => True) ()
      (ingest k v) := by
  refine ⟨fun _ => by simp, fun r => ?_⟩
  cases r with
  | error err => trivial
  | ok existing =>
    show Follows _ _ _ (if keepsExisting k v existing then _ else _)
    split_ifs
    · trivial
    · refine (only_writeRows (fun o ho x hx => ?_) _ _).bind fun _ _ _ => trivial
      exact List.mem_singleton.1 (ho x hx)

end Only

/-! ## What ingest publishes -/

/-- Moves of the environment: whatever happens, the indexer of a store stays. -/
def KeepsIndexer (s s' : SpatioTemporalStore L) : Prop := s'.indexer = s.indexer

section Ingest

variable [Sha256]

/-- What `ingest` of the row publishes is right: in every run, on every store of the indexer and
whoever interferes, the publication overflows nowhere and gives a second of the epoch of the key. -/
def IngestPublishes (ix : HybridSpatioTemporalIndexer) (k : Key) (v : Bytes) : Prop :=
  ∀ (L : LeafDepth) (pol : KvPolicy) (s s' : SpatioTemporalStore L) (r : Except String Bool)
    (log : List (StoreOp × SpatioTemporalStore L)), s.indexer = ix →
    Run (unlogged KeepsIndexer) (logged (storeSem L pol)) (ingest k v) (s, []) r (s', log) →
    ∀ x y, (StoreOp.publish x, y) ∈ log → y.PublishesInEpoch x

omit [Sha256] in
theorem indexer_publish (s : SpatioTemporalStore L) (x : Row) :
    (s.publish x).indexer = s.indexer := by
  unfold SpatioTemporalStore.publish
  split_ifs
  · rfl
  · rfl

/-- No operation changes the indexer. -/
theorem indexer_step {pol : KvPolicy} {o : StoreOp} {r : o.Resp} {s s' : SpatioTemporalStore L}
    (ho : storeSem L pol o s r s') : s'.indexer = s.indexer := by
  rcases ho with ⟨-, hrun⟩ | ⟨-, -, rfl⟩
  · cases o <;> grind [StoreOp.run, indexer_publish]
  · rfl

theorem exists_run_call {o : StoreOp} {k : o.Resp → StoreProg (Except String Bool)} {r : o.Resp}
    {s s₁ : SpatioTemporalStore L} {past : List (StoreOp × SpatioTemporalStore L)}
    {M : List (StoreOp × SpatioTemporalStore L) → Prop} (ho : o.run s = some (r, s₁))
    (h : ∃ a s' log, Run (unlogged KeepsIndexer) (logged (storeSem L .reliable)) (k r)
      (s₁, past ++ [(o, s)]) a (s', log) ∧ M log) :
    ∃ a s' log, Run (unlogged KeepsIndexer) (logged (storeSem L .reliable)) (.call o k)
      (s, past) a (s', log) ∧ M log := by
  obtain ⟨a, s', log, hrun, hM⟩ := h
  exact ⟨a, s', log, ⟨(s, past), r, (s₁, past ++ [(o, s)]), ⟨rfl, rfl⟩, ⟨sem_reliable ho, rfl⟩,
    hrun⟩, hM⟩

/-- Where the key is new and its epoch is not sealed, `ingest` publishes its row, whatever the
key. -/
theorem exists_run_publish {s : SpatioTemporalStore L} {k : Key} (v : Bytes)
    (hnew : s.table k = none) (hunsealed : k.epoch ∉ s.sealState.sealed) :
    ∃ r s' log, Run (unlogged KeepsIndexer) (logged (storeSem L .reliable)) (ingest k v) (s, []) r
      (s', log) ∧
        ∃ y, (StoreOp.publish (k, v), y) ∈ log ∧ y.receivers = s.receivers ∧
          y.indexer = s.indexer := by
  have hget : StoreOp.run (.kvGet k.bytes) s = some (.ok none, s) := by
    rw [StoreOp.run, show s.tree.get k.bytes = none from hnew]
  have hmark : StoreOp.run (.markUnlessSealed k.epoch) s =
      some (true, { s with sealState := s.sealState.mark k.epoch }) := if_neg hunsealed
  refine exists_run_call hget ?_
  refine exists_run_call hmark ?_
  refine exists_run_call (o := .kvBegin) rfl ?_
  refine exists_run_call (o := .kvStage _) rfl ?_
  refine exists_run_call (o := .kvCommit _ _) rfl ?_
  refine exists_run_call (o := .foldMerkle _) rfl ?_
  refine exists_run_call (o := .publish _) rfl ?_
  refine exists_run_call (o := .endMarks _) rfl ?_
  exact ⟨_, _, _, ⟨⟨rfl, rfl⟩, rfl⟩, _,
    List.mem_append_left _ (List.mem_append_right _ (List.mem_singleton_self _)), rfl, rfl⟩

/-- A store on an empty disk, to which somebody listens. -/
def listeningStore (ix : HybridSpatioTemporalIndexer) : SpatioTemporalStore merkleLeafDepth :=
  { openStore merkleLeafDepth ix .empty with receivers := 1 }

theorem exists_run_publish_listeningStore (ix : HybridSpatioTemporalIndexer) (k : Key) (v : Bytes) :
    ∃ r s' log, Run (unlogged KeepsIndexer) (logged (storeSem merkleLeafDepth .reliable))
      (ingest k v) (listeningStore ix, []) r (s', log) ∧
        ∃ y, (StoreOp.publish (k, v), y) ∈ log ∧ y.receivers = 1 ∧ y.indexer = ix := by
  have hnew : KvTree.empty.table k = none := by simp [KvTree.table, KvTree.get, KvTree.empty]
  have hunsealed : k.epoch ∉ (openStore merkleLeafDepth ix .empty).sealState.sealed := by
    rw [mem_sealed_openStore]
    rintro ⟨b, hb, -⟩
    simp [KvTree.record, KvTree.get, KvTree.empty] at hb
  exact exists_run_publish (s := listeningStore ix) v hnew hunsealed

/-- **What `ingest` publishes is right exactly for the keys that fit.** -/
theorem ingestPublishes_iff (ix : HybridSpatioTemporalIndexer) (k : Key) (v : Bytes) :
    IngestPublishes ix k v ↔ ix.FitsEpoch k := by
  constructor
  · intro h
    obtain ⟨r, s', log, hrun, y, hmem, hreceivers, hindexer⟩ :=
      exists_run_publish_listeningStore ix k v
    rcases publishesInEpoch_iff.1 (h _ _ _ _ _ _ rfl hrun _ _ hmem) with hzero | hfits
    · rw [hreceivers] at hzero
      cases hzero
    · rwa [hindexer] at hfits
  · rintro hfits L pol s s' r log rfl hrun x y hmem
    obtain ⟨hx, hy⟩ := hrun.forall_log (I := fun t : SpatioTemporalStore L => t.indexer = s.indexer)
      (fun _ _ hmove hI => Eq.trans hmove hI) (fun _ _ _ _ ho hI => (indexer_step ho).trans hI)
      (only_ingest k v) rfl (fun _ hpast => absurd hpast List.not_mem_nil) _ hmem
    obtain rfl := hx x rfl
    rw [publishesInEpoch_iff, hy]
    exact .inr hfits

end Ingest

/-! ## A key that does not fit -/

section Sample

local instance publishSha : Sha256 := sampleDigests

/-- A key of the last epoch. -/
def farKey : Key := .ofFields ⟨2 ^ 32 - 1, by norm_num⟩ 0 0

/-- A peer may send a key whose instant does not fit into 64 bits. -/
theorem not_ingestPublishes : ¬ IngestPublishes testIndexer farKey [] := by
  intro h
  obtain ⟨r, s', log, hrun, y, hmem, hreceivers, hindexer⟩ :=
    exists_run_publish_listeningStore testIndexer farKey []
  obtain ⟨hchecked, -⟩ := h _ _ _ _ _ _ rfl hrun _ _ hmem
  have hdecode : testIndexer.checkedDecodeKey farKey = none := by decide +kernel
  have hnone : y.checkedPublish (farKey, []) = none := by
    rw [SpatioTemporalStore.checkedPublish, hreceivers, hindexer, hdecode]
    rfl
  rw [hnone] at hchecked
  cases hchecked

end Sample

end InterstellarDb
