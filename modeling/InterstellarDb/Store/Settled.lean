import InterstellarDb.Store.SealSafety

/-!
# Sealing settled epochs

When nothing fails and nobody holds `seal_io`, a sealing pass ends in one way: it seals exactly the
settled epochs (`seals_settled`), and a second pass finds nothing to seal.

* An entry of the in-flight map is never `0` (`SealState.Counted`), so an epoch has an entry
  exactly when writes to it are in flight.
* A pass tests each candidate in the state that the candidates before it left. As these are other
  epochs, it seals those that can be sealed at its start (`exec_sealCandidates`).
-/

namespace InterstellarDb

open Atomic

variable {L : LeafDepth}

/-! ## The in-flight map -/

namespace SealState

/-- Every entry of the in-flight map counts at least one write. -/
def Counted (s : SealState) : Prop := ∀ e : Epoch, s.inflight[e]? ≠ some 0

variable {s : SealState}

theorem Counted.mark (h : s.Counted) (e : Epoch) : (s.mark e).Counted := by
  intro e'
  rw [SealState.mark, Std.ExtTreeMap.getElem?_insert]
  split_ifs
  · simp
  · exact h e'

theorem Counted.unmark (h : s.Counted) (e : Epoch) : (s.unmark e).Counted := by
  intro e'
  unfold SealState.unmark
  cases s.inflight[e]? with
  | none => exact h e'
  | some n =>
    dsimp only
    by_cases h₀ : n - 1 = 0
    · rw [if_pos h₀, Std.ExtTreeMap.getElem?_erase]
      split_ifs
      · simp
      · exact h e'
    · rw [if_neg h₀, Std.ExtTreeMap.getElem?_insert]
      split_ifs
      · exact fun hn => h₀ (Option.some.inj hn)
      · exact h e'

theorem Counted.foldl_unmark (h : s.Counted) (es : List Epoch) :
    (es.foldl SealState.unmark s).Counted := by
  induction es generalizing s with
  | nil => exact h
  | cons e es ih => exact ih (h.unmark e)

/-- Without a write in flight, an epoch has no entry. -/
theorem Counted.inflight_eq_none (h : s.Counted) {e : Epoch} :
    s.inflight[e]? = none ↔ s.marks e = 0 := by
  rw [marks, Std.ExtTreeMap.getD_eq_getD_getElem?]
  cases hn : s.inflight[e]? with
  | none => simp
  | some n =>
    have : n ≠ 0 := fun h₀ => h e (by rw [hn, h₀])
    simp [this]

/-- Sealing an epoch and unsealing it again. -/
theorem removeSealed_insertSealed {e : Epoch} (he : e ∉ s.sealed) :
    (s.insertSealed e).removeSealed e = s := by
  rw [insertSealed, removeSealed, Finset.erase_insert he]

end SealState

section Runs

variable [Sha256] {pol : KvPolicy} {s s' : SpatioTemporalStore L}

/-- One operation keeps the map counted. -/
theorem counted_step {o : StoreOp} {r : o.Resp} (ho : storeSem L pol o s r s')
    (h : s.sealState.Counted) : s'.sealState.Counted := by
  rw [sealState_step ho]
  cases o with
  | markUnlessSealed e =>
    cases r with
    | true => exact h.mark e
    | false => exact h
  | removeSealedAndMark e => exact SealState.Counted.mark (s := s.sealState.removeSealed e) h e
  | endMarks es => exact h.foldl_unmark es
  | trySeal e =>
    cases r with
    | true => exact h
    | false => exact h
  | _ => exact h

/-- From an opened store on, whatever runs, the map is counted. -/
theorem counted_of_runs {ix : HybridSpatioTemporalIndexer} {kv : KvTree}
    {Start : StoreProg (Except String Bool) → Prop}
    {C : SpatioTemporalStore L → Thread storeSig (Except String Bool) → Prop}
    {c : Pool storeSig (SpatioTemporalStore L) (Except String Bool)}
    (h : Pool.Runs (storeSem L pol) Start C ⟨openStore L ix kv, []⟩ c) :
    c.state.sealState.Counted := by
  induction h with
  | refl =>
    intro e
    simp [openStore]
  | tail _ hstep ih =>
    cases hstep with
    | run l₁ l₂ hC ho => exact counted_step ho ih
    | start hp => exact ih

/-! ## A pass over the candidates -/

/-- The epoch can be sealed: it is not yet, no write to it is in flight, and it has a record. -/
def SpatioTemporalStore.sealable (s : SpatioTemporalStore L) (e : Epoch) : Bool :=
  decide (e ∉ s.sealState.sealed) && (s.sealState.inflight[e]?).isNone &&
    (s.merkle.serializeEpoch e).isSome

/-- The store after the epoch was sealed. -/
def SpatioTemporalStore.sealEpoch (s : SpatioTemporalStore L) (e : Epoch) :
    SpatioTemporalStore L :=
  { s with
    tree := (s.merkle.serializeEpoch e).elim s.tree fun b => s.tree.commit [.set (sealKey e) b]
    sealState := s.sealState.insertSealed e }

omit [Sha256] in
theorem sealable_iff {e : Epoch} :
    s.sealable e = true ↔ e ∉ s.sealState.sealed ∧ s.sealState.inflight[e]? = none ∧
      (s.merkle.serializeEpoch e).isSome := by
  rw [SpatioTemporalStore.sealable, Bool.and_eq_true, Bool.and_eq_true, decide_eq_true_eq,
    Option.isNone_iff_eq_none, and_assoc]

omit [Sha256] in
theorem sealable_sealEpoch {e e' : Epoch} (he : e' ≠ e) :
    (s.sealEpoch e).sealable e' = s.sealable e' := by
  rw [Bool.eq_iff_iff, sealable_iff, sealable_iff]
  simp only [SpatioTemporalStore.sealEpoch, SealState.sealed_insertSealed, Finset.mem_insert, he,
    false_or]
  rfl

/-- The loop at a candidate: it is sealed when it can be, and the state stays otherwise. -/
theorem exec_sealCandidates_cons (newly : List Epoch) (e : Epoch) (es : List Epoch)
    (hio : s.sealIo = false) :
    (sealCandidates newly (e :: es)).exec StoreOp.run s =
      if s.sealable e then (sealCandidates (newly ++ [e]) es).exec StoreOp.run (s.sealEpoch e)
      else (sealCandidates newly es).exec StoreOp.run s := by
  have hunlock : StoreOp.run .unlockSealIo { s with sealIo := true } = some ((), s) := by
    rw [StoreOp.run, ← hio]
  have hlock : StoreOp.run .lockSealIo s = some ((), { s with sealIo := true }) := by
    rw [StoreOp.run, hio]
    rfl
  refine (Prog.exec_call hlock).trans ?_
  -- the three ways on: not tried, nothing to serialize, a record
  by_cases htry : e ∈ s.sealState.sealed ∨ (s.sealState.inflight[e]?).isSome
  · have hs : ¬ s.sealable e = true := by
      rw [sealable_iff, ← and_assoc, ← Option.not_isSome_iff_eq_none, ← not_or]
      exact fun h => h.1 htry
    rw [if_neg hs]
    exact (Prog.exec_call (if_pos htry)).trans (Prog.exec_call hunlock)
  refine (Prog.exec_call (if_neg htry)).trans ?_
  rw [not_or, Option.not_isSome_iff_eq_none] at htry
  cases hb : s.merkle.serializeEpoch e with
  | none =>
    have hs : ¬ s.sealable e = true := by
      rw [sealable_iff, hb]
      simp
    rw [if_neg hs]
    refine (Prog.exec_call (congrArg (fun b => some (b, _)) hb)).trans ?_
    have hremove : StoreOp.run (.removeSealed e)
        { s with sealState := s.sealState.insertSealed e, sealIo := true } =
          some ((), { s with sealIo := true }) := by
      rw [StoreOp.run, SealState.removeSealed_insertSealed htry.1]
    exact (Prog.exec_call hremove).trans (Prog.exec_call hunlock)
  | some b =>
    have hs : s.sealable e = true := sealable_iff.2 ⟨htry.1, htry.2, by rw [hb]; rfl⟩
    have hseal : s.sealEpoch e =
        { s with
          tree := s.tree.commit [.set (sealKey e) b]
          sealState := s.sealState.insertSealed e
          sealIo := false } := by
      rw [SpatioTemporalStore.sealEpoch, hb, ← hio]
      rfl
    rw [if_pos hs, hseal]
    refine (Prog.exec_call (congrArg (fun b => some (b, _)) hb)).trans ?_
    refine (Prog.exec_bind StoreOp.run (commitWrites [.set (sealKey e) b]) _ _).trans ?_
    rw [exec_commitWrites]
    exact Prog.exec_call rfl

/-- **The loop seals the candidates that can be sealed when it starts**, by induction on them. -/
theorem exec_sealCandidates (newly : List Epoch) {es : List Epoch} (hes : es.Nodup)
    (hio : s.sealIo = false) :
    (sealCandidates newly es).exec StoreOp.run s =
      some (.ok (newly ++ es.filter s.sealable),
        (es.filter s.sealable).foldl SpatioTemporalStore.sealEpoch s) := by
  induction es generalizing s newly with
  | nil => simp [sealCandidates, Prog.exec]
  | cons e es ih =>
    obtain ⟨he, hes⟩ := List.nodup_cons.1 hes
    rw [exec_sealCandidates_cons newly e es hio]
    split_ifs with hs
    · -- the candidates left are other epochs, which this one does not matter to
      have hrest : es.filter (s.sealEpoch e).sealable = es.filter s.sealable := by
        refine List.filter_congr fun e' he' => sealable_sealEpoch ?_
        rintro rfl
        exact he he'
      rw [ih (s := s.sealEpoch e) (newly ++ [e]) hes hio, hrest, List.filter_cons_of_pos hs,
        List.foldl_cons, List.append_assoc, List.singleton_append]
    · rw [ih newly hes hio, List.filter_cons_of_neg hs]

/-! ## What a pass does -/

/-- From `s` to `s'`, the epochs were sealed. -/
structure SealedEpochs (es : List Epoch) (s s' : SpatioTemporalStore L) : Prop where
  record : ∀ e ∈ es, ∃ b, s.merkle.serializeEpoch e = some b ∧ s'.tree.record e = some b
  /-- Nothing else on disk changes, neither a record nor a row. -/
  get : ∀ k, (∀ e ∈ es, k ≠ sealKey e) → s'.tree.get k = s.tree.get k
  table : s'.table = s.table
  sealed : ∀ e, e ∈ s'.sealState.sealed ↔ e ∈ s.sealState.sealed ∨ e ∈ es
  inflight : s'.sealState.inflight = s.sealState.inflight
  merkle : s'.merkle = s.merkle
  indexer : s'.indexer = s.indexer
  sealIo : s'.sealIo = s.sealIo
  receivers : s'.receivers = s.receivers
  events : s'.events = s.events

omit [Sha256] in
theorem sealedEpochs_nil (s : SpatioTemporalStore L) : SealedEpochs [] s s where
  record := by simp
  get := fun _ _ => rfl
  table := rfl
  sealed := by simp
  inflight := rfl
  merkle := rfl
  indexer := rfl
  sealIo := rfl
  receivers := rfl
  events := rfl

omit [Sha256] in
theorem sealedEpochs_foldl {es : List Epoch} (hes : ∀ e ∈ es, (s.merkle.serializeEpoch e).isSome) :
    SealedEpochs es s (es.foldl SpatioTemporalStore.sealEpoch s) := by
  induction es generalizing s with
  | nil => exact sealedEpochs_nil s
  | cons e es ih =>
    obtain ⟨b, hb⟩ := Option.isSome_iff_exists.1 (hes e (List.mem_cons_self ..))
    have hget : ∀ k, (s.sealEpoch e).tree.get k =
        if sealKey e = k then some b else s.tree.get k := by
      intro k
      rw [SpatioTemporalStore.sealEpoch, hb]
      exact KvTree.get_set s.tree (sealKey e) b k
    have hrest := ih (s := s.sealEpoch e) fun e' he' => hes e' (List.mem_cons_of_mem _ he')
    refine ⟨fun e' he' => ?_, fun k hk => ?_, ?_, fun e' => ?_, hrest.inflight, hrest.merkle,
      hrest.indexer, hrest.sealIo, hrest.receivers, hrest.events⟩
    · by_cases hmem : e' ∈ es
      · exact hrest.record e' hmem
      · obtain rfl : e' = e := (List.mem_cons.1 he').resolve_right hmem
        refine ⟨b, hb, ?_⟩
        rw [List.foldl_cons, KvTree.record, hrest.get, hget, if_pos rfl]
        intro e' he' heq
        exact hmem (sealKey_injective heq ▸ he')
    · rw [List.foldl_cons, hrest.get k fun e' he' => hk e' (List.mem_cons_of_mem _ he'), hget,
        if_neg (hk e (List.mem_cons_self ..)).symm]
    · rw [List.foldl_cons, hrest.table]
      funext k
      show (s.sealEpoch e).tree.get k.bytes = _
      rw [hget, if_neg (sealKey_ne_bytes e k)]
      rfl
    · rw [List.foldl_cons, hrest.sealed]
      simp only [SpatioTemporalStore.sealEpoch, SealState.sealed_insertSealed, Finset.mem_insert,
        List.mem_cons]
      tauto

/-- The epoch is settled and waits to be sealed: it has a leaf hash, it is not sealed, no write to
it is in flight, and it ended more than the grace period ago. -/
structure AwaitsSeal (s : SpatioTemporalStore L) (nowSecs graceSecs : ℕ) (e : Epoch) : Prop where
  epoch : e ∈ s.merkle.epochs
  leaf : ∃ p, s.merkle.nodeHash e L.bits p ≠ 0
  unsealed : e ∉ s.sealState.sealed
  marks : s.sealState.marks e = 0
  ended : (e.val + 1) * s.indexer.epochDuration ≤ nowSecs - graceSecs

/-- The epochs that a pass tests. -/
def candidates (s : SpatioTemporalStore L) (nowSecs graceSecs : ℕ) : List Epoch :=
  s.merkle.epochs.filter fun e => e.val < (nowSecs - graceSecs) / s.indexer.epochDuration

omit [Sha256] in
theorem pairwise_candidates (now grace : ℕ) : (candidates s now grace).Pairwise (· < ·) :=
  s.merkle.pairwise_epochs.filter _

omit [Sha256] in
theorem mem_sealable_candidates (h : s.sealState.Counted) {now grace : ℕ} {e : Epoch} :
    e ∈ (candidates s now grace).filter s.sealable ↔ AwaitsSeal s now grace e := by
  rw [List.mem_filter, candidates, List.mem_filter, decide_eq_true_eq, sealable_iff,
    h.inflight_eq_none, MerkleForest.isSome_serializeEpoch,
    Nat.lt_iff_add_one_le, Nat.le_div_iff_mul_le s.indexer.epochDuration_pos]
  constructor
  · rintro ⟨⟨hepoch, hended⟩, hunsealed, hmarks, hleaf⟩
    exact ⟨hepoch, hleaf, hunsealed, hmarks, hended⟩
  · rintro ⟨hepoch, hleaf, hunsealed, hmarks, hended⟩
    exact ⟨⟨hepoch, hended⟩, hunsealed, hmarks, hleaf⟩

/-- A pass seals the candidates that can be sealed when it starts. -/
theorem exec_sealSettledEpochs (hio : s.sealIo = false) (now grace : ℕ) :
    (sealSettledEpochs s.indexer now grace).exec StoreOp.run s =
      some (.ok ((candidates s now grace).filter s.sealable),
        ((candidates s now grace).filter s.sealable).foldl SpatioTemporalStore.sealEpoch s) := by
  have hnodup : (candidates s now grace).Nodup := (pairwise_candidates now grace).imp ne_of_lt
  refine (Prog.exec_call rfl).trans ?_
  exact exec_sealCandidates [] hnodup hio

/-- **A sealing pass seals exactly the settled epochs.** From an opened store, whatever has run on
it, when nobody holds `seal_io`: the pass ends in one way, with the settled epochs in ascending
order and with their records written and nothing else changed; and a second pass with the same
arguments seals nothing and changes nothing. -/
theorem seals_settled {ix : HybridSpatioTemporalIndexer} {kv : KvTree}
    {c : Pool storeSig (SpatioTemporalStore L) (Except String Bool)}
    (h : Pool.Runs (storeSem L pol) IsMethod (fun _ _ => True) ⟨openStore L ix kv, []⟩ c)
    (hio : c.state.sealIo = false) (now grace : ℕ) :
    ∃ es s',
      (∀ r s'', Alone (storeSem L .reliable) (sealSettledEpochs c.state.indexer now grace)
        c.state r s'' ↔ r = .ok es ∧ s'' = s') ∧
      (∀ e, e ∈ es ↔ AwaitsSeal c.state now grace e) ∧ es.Pairwise (· < ·) ∧
      SealedEpochs es c.state s' ∧
      ∀ r s'', Alone (storeSem L .reliable) (sealSettledEpochs s'.indexer now grace) s' r s'' ↔
        r = .ok [] ∧ s'' = s' := by
  have hcounted := counted_of_runs h
  set s := c.state
  set es := (candidates s now grace).filter s.sealable with hes
  have hsealed : SealedEpochs es s (es.foldl SpatioTemporalStore.sealEpoch s) :=
    sealedEpochs_foldl fun e he => (sealable_iff.1 (List.mem_filter.1 he).2).2.2
  refine ⟨es, _, fun r s'' => alone_reliable_iff (exec_sealSettledEpochs hio now grace),
    fun e => mem_sealable_candidates hcounted, (pairwise_candidates now grace).filter _, hsealed,
    fun r s'' => alone_reliable_iff ?_⟩
  set s' := es.foldl SpatioTemporalStore.sealEpoch s
  -- what could be sealed now is sealed
  have hnil : (candidates s' now grace).filter s'.sealable = [] := by
    rw [List.filter_eq_nil_iff]
    intro e he hs'
    rw [candidates, hsealed.merkle, hsealed.indexer] at he
    rw [sealable_iff, hsealed.sealed, hsealed.inflight, hsealed.merkle, not_or] at hs'
    obtain ⟨⟨hs, hmem⟩, hmark, hrec⟩ := hs'
    exact hmem (List.mem_filter.2 ⟨he, sealable_iff.2 ⟨hs, hmark, hrec⟩⟩)
  have hexec := exec_sealSettledEpochs (hsealed.sealIo.trans hio) now grace
  rw [hnil] at hexec
  exact hexec

end Runs

/-! ## A pass beside a paused writer -/

section Sample

local instance settledSha : Sha256 := sampleDigests

/-- The call that stores a payload at the lower corner of the range in the epoch 1. -/
def storeNext (payload : Bytes) : StoreCall := .store ⟨-1000, -1000, -1000, 3600, 0, payload⟩

/-- A store into the epoch 0, and two into the epoch 1. -/
def settledStartPool : Pool storeSig (SpatioTemporalStore merkleLeafDepth) (Except String Bool) :=
  ⟨sampleStore, [.new ((storeCorner 0 [0x61]).prog testIndexer),
    .new ((storeNext [0x62]).prog testIndexer), .new ((storeNext [0x63]).prog testIndexer)]⟩

/-- The first two stores end, and the third one pauses after its begin mark. -/
def settledPool :
    Option (Pool storeSig (SpatioTemporalStore merkleLeafDepth) (Except String Bool)) :=
  Pool.schedule StoreOp.run (fun _ _ => true)
    [0, 0, 0, 0, 0, 0, 0, 1, 1, 1, 1, 1, 1, 1, 2] settledStartPool

theorem seals_settled_sample : ∃ c es s', settledPool = some c ∧
    (∀ r s'', Alone (storeSem merkleLeafDepth .reliable)
      (sealSettledEpochs c.state.indexer 20000 0) c.state r s'' ↔ r = .ok es ∧ s'' = s') ∧
    0 ∈ es ∧ 1 ∉ es := by
  have hcheck : (settledPool.map fun c => decide (c.state.sealIo = false ∧
      c.state.merkle.epochs = [0, 1] ∧ c.state.merkle.nodeHash 0 15 0 ≠ 0 ∧
      0 ∉ c.state.sealState.sealed ∧ c.state.sealState.marks 0 = 0 ∧
      c.state.sealState.marks 1 = 1 ∧ c.state.indexer.epochDuration = 3600)) = some true := by
    decide +kernel
  obtain ⟨c, hc, hcheck⟩ := Option.map_eq_some_iff.1 hcheck
  obtain ⟨hio, hepochs, hleaf, hsealed, hmarks, hmarks₁, hdur⟩ := of_decide_eq_true hcheck
  have hreach : Pool.Runs (storeSem merkleLeafDepth .reliable) IsMethod (fun _ _ => True)
      ⟨openStore merkleLeafDepth testIndexer .empty, []⟩ c := by
    refine .head (.start ⟨testIndexer, storeCorner 0 [0x61], rfl⟩)
      (.head (.start ⟨testIndexer, storeNext [0x62], rfl⟩)
        (.head (.start ⟨testIndexer, storeNext [0x63], rfl⟩) ?_))
    exact Pool.runs_of_schedule (fun _ _ _ _ => sem_reliable) (fun _ _ _ => trivial) hc
  obtain ⟨es, s', hruns, hmem, -⟩ := seals_settled hreach hio 20000 0
  refine ⟨c, es, s', hc, hruns, (hmem 0).2 ?_, fun h => ?_⟩
  · refine ⟨by simp [hepochs], ⟨0, hleaf⟩, hsealed, hmarks, ?_⟩
    rw [hdur]
    norm_num
  · have := ((hmem 1).1 h).marks
    omega

end Sample

end InterstellarDb
