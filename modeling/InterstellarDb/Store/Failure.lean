import InterstellarDb.Store.Calls

/-!
# Failed writes

A write may fail at any operation of the key-value tree. Whichever one it is, the write leaves no
trace (`noTrace_of_error`) but for the epochs that it had unsealed by then: they lose their record
and their place among the sealed epochs together.
-/

namespace InterstellarDb

open Atomic

variable {L : LeafDepth}

/-- From `s` to `s'`, at most some epochs of the call were unsealed. -/
structure NoTrace (c : StoreCall) (s s' : SpatioTemporalStore L) : Prop where
  indexer : s'.indexer = s.indexer
  table : s'.table = s.table
  rows : s'.rows = s.rows
  merkle : s'.merkle = s.merkle
  events : s'.events = s.events
  receivers : s'.receivers = s.receivers
  sealIo : s'.sealIo = s.sealIo
  marks : ∀ e, s'.sealState.marks e = s.sealState.marks e
  /-- An epoch that was unsealed is one of the call, and has neither a record nor a place among the
  sealed epochs. -/
  seals : ∀ e,
    (s'.tree.record e = s.tree.record e ∧ (e ∈ s'.sealState.sealed ↔ e ∈ s.sealState.sealed)) ∨
      e ∈ c.epochs s.indexer ∧ e ∈ s.sealState.sealed ∧ s'.tree.record e = none ∧
        e ∉ s'.sealState.sealed

/-- Unsealing epochs of the call leaves no other trace. -/
theorem noTrace_of_unsealed {c : StoreCall} {s s' : SpatioTemporalStore L} {done : List Epoch}
    (hdone : ∀ e ∈ done, e ∈ c.epochs s.indexer) (h : Unsealed done s s') : NoTrace c s s' := by
  refine ⟨h.indexer, h.table, h.rows, h.merkle, h.events, h.receivers, h.sealIo, h.marks,
    fun e => ?_⟩
  by_cases hlost : e ∈ done ∧ e ∈ s.sealState.sealed
  · right
    refine ⟨hdone e hlost.1, hlost.2, ?_, fun hs => ((h.sealed e).1 hs).2 hlost.1⟩
    rw [h.record, if_pos hlost]
  · left
    refine ⟨by rw [h.record, if_neg hlost], ?_⟩
    rw [h.sealed, and_iff_left_iff_imp]
    exact fun hs hd => hlost ⟨hd, hs⟩

section Runs

variable [Sha256]

/-- **Failed writes leave no trace**, wherever the key-value tree fails. -/
theorem noTrace_of_error {pol : KvPolicy} {c : StoreCall} {s s' : SpatioTemporalStore L}
    {err : String} (hc : ∀ now grace, c ≠ .sealSettledEpochs now grace)
    (h : Alone (storeSem L pol) (c.prog s.indexer) s (.error err) s') : NoTrace c s s' := by
  have hwrite : ∃ done, done <+: c.epochs s.indexer ∧ Unsealed done s s' := by
    cases c with
    | store x =>
      obtain ⟨y, s₁, hy, h₁⟩ := alone_bind.1 h
      obtain ⟨rfl, hr⟩ := alone_ret.1 h₁
      rcases alone_store hy with ⟨-, hu⟩ | ⟨rfl, -⟩
      · exact hu
      · cases hr
    | storeBatch xs =>
      obtain ⟨y, s₁, hy, h₁⟩ := alone_bind.1 h
      obtain ⟨rfl, hr⟩ := alone_ret.1 h₁
      rcases alone_storeBatch hy with ⟨-, hu⟩ | ⟨rfl, -⟩
      · exact hu
      · cases hr
    | ingest k v =>
      rcases alone_ingest h with ⟨-, hu⟩ | ⟨hr, -⟩ | ⟨hr, -⟩
      · exact hu
      · cases hr
      · cases hr
    | sealSettledEpochs now grace => exact absurd rfl (hc now grace)
  obtain ⟨done, hdone, hu⟩ := hwrite
  exact noTrace_of_unsealed (fun e he => hdone.subset he) hu

/-! ## A write whose commit fails -/

/-- The operations, where those of a kind fail. -/
def runFailing (fails : StoreOp → Bool) (o : StoreOp) (s : SpatioTemporalStore L) :
    Option (o.Resp × SpatioTemporalStore L) :=
  if fails o then (o.failure "disk full").map fun r => (r, s) else o.run s

theorem sem_runFailing {fails : StoreOp → Bool} (o : StoreOp) (s : SpatioTemporalStore L)
    (r : o.Resp) (s' : SpatioTemporalStore L) (h : runFailing fails o s = some (r, s')) :
    storeSem L .faulty o s r s' := by
  unfold runFailing at h
  split_ifs at h
  · obtain ⟨r', hr, heq⟩ := Option.map_eq_some_iff.1 h
    cases heq
    refine .inr ⟨?_, ⟨_, hr⟩, rfl⟩
    cases o <;> trivial
  · refine .inl ⟨?_, h⟩
    cases o <;> trivial

end Runs

section Sample

local instance failureSha : Sha256 := sampleDigests

/-- The commit of a row. -/
def isDataCommit : StoreOp → Bool
  | .kvCommit _ [.set k _] => k.length == 20
  | _ => false

/-- A write to the sealed epoch whose data commit fails. -/
theorem noTrace_of_error_sample : ∃ s', NoTrace (storeCorner 1 [0x62]) sealedOnce s' ∧
    0 ∈ sealedOnce.sealState.sealed ∧ 0 ∉ s'.sealState.sealed := by
  have hrun : ((((storeCorner 1 [0x62]).prog sealedOnce.indexer).exec (runFailing isDataCommit)
      sealedOnce).map fun x => (x.1, decide (0 ∈ x.2.sealState.sealed))) =
        some (.error "disk full", false) := by
    decide +kernel
  obtain ⟨⟨r, s'⟩, hexec, hout⟩ := Option.map_eq_some_iff.1 hrun
  obtain ⟨rfl, hsealed⟩ := Prod.mk.inj hout
  refine ⟨s', noTrace_of_error ?_ (alone_of_exec sem_runFailing hexec), by decide +kernel,
    of_decide_eq_false hsealed⟩
  exact fun _ _ h => StoreCall.noConfusion h

end Sample

end InterstellarDb
