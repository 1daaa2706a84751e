import InterstellarDb.Store.Alone
import InterstellarDb.Store.Open

/-!
# Calls and sessions, one after another

The four methods that change a store, as one type of calls. A call that runs alone has one of
three outcomes (`alone_call`): a write that failed, which leaves at most some epochs unsealed; a
call that wrote no row, which leaves at most some epochs sealed; and a write of all its rows.

A session is a store with the leaf depth it was opened with. Sessions make calls, and close for
another session to open the disk (`Session.Step`).
-/

namespace InterstellarDb

open Atomic GreatestWins

/-- A call of a method that changes the store. -/
inductive StoreCall where
  | store (x : BatchRecord)
  | storeBatch (xs : List BatchRecord)
  | ingest (key : Key) (payload : Bytes)
  | sealSettledEpochs (nowSecs graceSecs : ℕ)

namespace StoreCall

/-- The method of a call. It answers whether it accepted the rows it was given. -/
def prog [Sha256] (ix : HybridSpatioTemporalIndexer) : StoreCall → StoreProg (Except String Bool)
  | .store x => return (← InterstellarDb.store ix x).map fun _ => true
  | .storeBatch xs => return (← InterstellarDb.storeBatch ix xs).map fun _ => true
  | .ingest k v => InterstellarDb.ingest k v
  | .sealSettledEpochs now grace =>
    return (← InterstellarDb.sealSettledEpochs ix now grace).map fun _ => false

/-- The rows that a call is given. -/
def rows (ix : HybridSpatioTemporalIndexer) : StoreCall → List Row
  | .store x => [x.row ix]
  | .storeBatch xs => xs.map (BatchRecord.row ix)
  | .ingest k v => [(k, v)]
  | .sealSettledEpochs _ _ => []

/-- The epochs that a call writes to, in the order in which they are begun. -/
def epochs (ix : HybridSpatioTemporalIndexer) : StoreCall → List Epoch
  | .store x => [keyEpoch (x.row ix).1]
  | .storeBatch xs => distinctEpochs ((xs.map (BatchRecord.row ix)).map Prod.fst)
  | .ingest k _ => [keyEpoch k]
  | .sealSettledEpochs _ _ => []

/-- The forest changes of a call, from the stored payload of each key. -/
def edits (ix : HybridSpatioTemporalIndexer) (m : Key → Option Bytes) : StoreCall → List MerkleEdit
  | .ingest k v => ingestEdits k v (m k)
  | c => (c.rows ix).map .insert

/-- The call stores its rows without looking at what is stored. -/
def IsStore : StoreCall → Prop
  | .store _ => True
  | .storeBatch _ => True
  | _ => False

end StoreCall

variable {L : LeafDepth}

/-- What a call that wrote its rows did. -/
structure CallWrote [Sha256] (c : StoreCall) (s s' : SpatioTemporalStore L) : Prop where
  /-- An `ingest` that writes does not keep the stored payload. -/
  replaces : ∀ k v, c = .ingest k v → keepsExisting k v (s.table k) = false
  writes : ∀ now grace, c ≠ .sealSettledEpochs now grace
  run : ∃ es s₁, (∀ e, e ∈ es ↔ ∃ r ∈ c.rows s.indexer, r.1.epoch = e) ∧ Unsealed es s s₁ ∧
    Written (c.edits s.indexer s.table) (c.rows s.indexer) s₁ s'

theorem mem_distinctEpochs {keys : List Key} {e : Epoch} :
    e ∈ distinctEpochs keys ↔ ∃ k ∈ keys, k.epoch = e := by
  rw [distinctEpochs, Std.ExtTreeSet.mem_toList, Std.ExtTreeSet.mem_ofList,
    List.contains_iff_mem, List.mem_map]
  rfl

/-- **The outcomes of a call that runs alone.** -/
theorem alone_call [Sha256] {pol : KvPolicy} {c : StoreCall} {s s' : SpatioTemporalStore L}
    {r : Except String Bool} (h : Alone (storeSem L pol) (c.prog s.indexer) s r s') :
    (∃ err, r = .error err) ∧ (∃ done, done <+: c.epochs s.indexer ∧ Unsealed done s s') ∨
      r ≠ .ok true ∧ SealedSome s s' ∨ r = .ok true ∧ CallWrote c s s' := by
  cases c with
  | store x =>
    obtain ⟨y, s₁, hy, h₁⟩ := alone_bind.1 h
    obtain ⟨rfl, rfl⟩ := alone_ret.1 h₁
    rcases alone_store hy with ⟨⟨err, rfl⟩, hu⟩ | ⟨rfl, s₂, hu, hw⟩
    · exact .inl ⟨⟨err, rfl⟩, hu⟩
    · refine .inr (.inr ⟨rfl, ⟨by simp, by simp, _, s₂, fun e => ?_, hu, hw⟩⟩)
      simp [StoreCall.rows, eq_comm]
  | storeBatch xs =>
    obtain ⟨y, s₁, hy, h₁⟩ := alone_bind.1 h
    obtain ⟨rfl, rfl⟩ := alone_ret.1 h₁
    rcases alone_storeBatch hy with ⟨⟨err, rfl⟩, hu⟩ | ⟨rfl, s₂, hu, hw⟩
    · exact .inl ⟨⟨err, rfl⟩, hu⟩
    · refine .inr (.inr ⟨rfl, ⟨by simp, by simp, _, s₂, fun e => ?_, hu, hw⟩⟩)
      simp [mem_distinctEpochs, StoreCall.rows]
  | ingest k v =>
    rcases alone_ingest h with h | ⟨rfl, -, rfl⟩ | ⟨rfl, hk, s₂, hu, hw⟩
    · exact .inl h
    · exact .inr (.inl ⟨by simp, .refl _⟩)
    · refine .inr (.inr ⟨rfl, ⟨?_, by simp, _, s₂, fun e => ?_, hu, hw⟩⟩)
      · rintro _ _ ⟨⟩
        exact hk
      · simp [StoreCall.rows, eq_comm]
  | sealSettledEpochs now grace =>
    obtain ⟨y, s₁, hy, h₁⟩ := alone_bind.1 h
    obtain ⟨rfl, rfl⟩ := alone_ret.1 h₁
    refine .inr (.inl ⟨?_, alone_sealSettledEpochs hy⟩)
    cases y <;> simp [Except.map]

/-! ## Tables after writes -/

section WriteAll

open KvTree

variable {m : Key → Option Bytes} {l : List Row}

theorem writeAll_of_notMem {k : Key} (hk : k ∉ l.map Prod.fst) : writeAll m l k = m k := by
  induction l generalizing m with
  | nil => rfl
  | cons r l ih =>
    rw [List.map_cons, List.mem_cons, not_or] at hk
    show writeAll (Function.update m r.1 (some r.2)) l k = m k
    rw [ih hk.2, Function.update_of_ne hk.1]

/-- Every row read back after the writes is a written one or was there before. -/
theorem mem_or_of_writeAll {k : Key} {v : Bytes} (h : writeAll m l k = some v) :
    (k, v) ∈ l ∨ m k = some v := by
  induction l generalizing m with
  | nil => exact .inr h
  | cons r l ih =>
    rcases ih (m := Function.update m r.1 (some r.2)) h with h | h
    · exact .inl (List.mem_cons_of_mem _ h)
    · rcases eq_some_of_update h with h | ⟨rfl, rfl⟩
      · exact .inr h
      · exact .inl (List.mem_cons_self ..)

theorem CallWrote.table [Sha256] {c : StoreCall} {s s' : SpatioTemporalStore L}
    (h : CallWrote c s s') : s'.table = writeAll s.table (c.rows s.indexer) := by
  obtain ⟨es, s₁, -, hu, hw⟩ := h.run
  show s'.tree.table = _
  rw [hw.tree, table_setRows]
  congr 1
  exact hu.table

theorem CallWrote.rows_writeAll [Sha256] {c : StoreCall} {s s' : SpatioTemporalStore L}
    (h : CallWrote c s s') : Rows (writeAll s.table (c.rows s.indexer)) s'.rows := by
  rw [← h.table]
  exact s'.tree.rows_table

theorem CallWrote.merkle [Sha256] {c : StoreCall} {s s' : SpatioTemporalStore L}
    (h : CallWrote c s s') : s'.merkle = s.merkle.editAll (c.edits s.indexer s.table) := by
  obtain ⟨es, s₁, -, hu, hw⟩ := h.run
  rw [hw.merkle, hu.merkle]

end WriteAll

/-! ## Sessions -/

/-- An open store, with the leaf depth that it was opened with. -/
abbrev Session := Σ L : LeafDepth, SpatioTemporalStore L

/-- A step of sessions on one disk: a call that runs alone and meets the condition `C`, or a
close and an `open` at one of the leaf depths `D`. -/
inductive Session.Step [Sha256] (pol : KvPolicy) (D : Set LeafDepth)
    (C : Session → StoreCall → Except String Bool → Prop) : Session → Session → Prop
  | call {L : LeafDepth} {s s' : SpatioTemporalStore L} {c : StoreCall} {r : Except String Bool}
      (h : Alone (storeSem L pol) (c.prog s.indexer) s r s') (hC : C ⟨L, s⟩ c r) :
      Step pol D C ⟨L, s⟩ ⟨L, s'⟩
  | reopen {L : LeafDepth} {s : SpatioTemporalStore L} (L' : LeafDepth) (hL' : L' ∈ D)
      (ix : HybridSpatioTemporalIndexer) : Step pol D C ⟨L, s⟩ ⟨L', openStore L' ix s.tree⟩

/-- A run of sessions. -/
abbrev Session.Runs [Sha256] (pol : KvPolicy) (D : Set LeafDepth)
    (C : Session → StoreCall → Except String Bool → Prop) : Session → Session → Prop :=
  Relation.ReflTransGen (Session.Step pol D C)

/-! ## Concrete calls -/

section Concrete

variable [Sha256]

theorem sem_reliable {o : StoreOp} {s s' : SpatioTemporalStore L} {r : o.Resp}
    (h : o.run s = some (r, s')) : storeSem L .reliable o s r s' := by
  refine .inl ⟨?_, h⟩
  cases o <;> trivial

theorem run_of_sem_reliable {o : StoreOp} {s s' : SpatioTemporalStore L} {r : o.Resp}
    (h : storeSem L .reliable o s r s') : o.run s = some (r, s') := by
  rcases h with ⟨-, h⟩ | ⟨hfail, -⟩
  · exact h
  · cases o <;> exact hfail.elim

/-- The answer of a call, and the store after it, when nothing fails. -/
def SpatioTemporalStore.perform (s : SpatioTemporalStore L) (c : StoreCall) :
    Option (Except String Bool × SpatioTemporalStore L) :=
  (c.prog s.indexer).exec StoreOp.run s

/-- The store after a call, when nothing fails. -/
def SpatioTemporalStore.after (s : SpatioTemporalStore L) (c : StoreCall) : SpatioTemporalStore L :=
  ((s.perform c).map Prod.snd).getD s

/-- A call that performs is a call that runs alone. -/
theorem alone_after {s : SpatioTemporalStore L} {c : StoreCall} {r : Except String Bool}
    (h : (s.perform c).map Prod.fst = some r) :
    Alone (storeSem L .reliable) (c.prog s.indexer) s r (s.after c) := by
  obtain ⟨⟨_, s'⟩, hx, rfl⟩ := Option.map_eq_some_iff.1 h
  have hafter : s.after c = s' := by
    rw [SpatioTemporalStore.after, hx, Option.map_some, Option.getD_some]
  rw [hafter]
  exact alone_of_exec (fun _ _ _ _ => sem_reliable) hx

/-! ## When nothing fails -/

variable {s : SpatioTemporalStore L}

/-- A program that ends runs in one way only. -/
theorem alone_reliable_iff {α : Type} {p : StoreProg α} {x r : α} {s' s'' : SpatioTemporalStore L}
    (hexec : p.exec StoreOp.run s = some (x, s')) :
    Alone (storeSem L .reliable) p s r s'' ↔ r = x ∧ s'' = s' := by
  constructor
  · intro h
    have := exec_of_alone (fun _ _ _ _ => run_of_sem_reliable) h
    rw [hexec] at this
    cases this
    exact ⟨rfl, rfl⟩
  · rintro ⟨rfl, rfl⟩
    exact alone_of_exec (fun _ _ _ _ => sem_reliable) hexec

theorem exec_stageAll (ws : List KvWrite) (s : SpatioTemporalStore L) :
    (stageAll ws).exec StoreOp.run s = some (.ok (), s) := by
  induction ws with
  | nil => rfl
  | cons w ws ih => exact ih

theorem exec_commitWrites (ws : List KvWrite) (s : SpatioTemporalStore L) :
    (commitWrites ws).exec StoreOp.run s = some (.ok (), { s with tree := s.tree.commit ws }) := by
  show (stageAll ws >>= fun _ => _).exec StoreOp.run s = _
  rw [Prog.exec_bind, exec_stageAll]
  rfl

/-- A sealed epoch is begun when nobody holds `seal_io`. -/
theorem exec_beginWriteEpoch (e : Epoch) (s : SpatioTemporalStore L) :
    (beginWriteEpoch e).exec StoreOp.run s =
      if e ∈ s.sealState.sealed ∧ s.sealIo = true then none else some (.ok (), s.beginEpoch e) := by
  unfold beginWriteEpoch SpatioTemporalStore.beginEpoch
  rw [Prog.exec_bind]
  by_cases he : e ∈ s.sealState.sealed
  · cases hio : s.sealIo with
    | true => simp [op, Prog.exec, StoreOp.run, he, hio]
    | false => simp [op, Prog.exec, StoreOp.run, he, hio, Prog.exec_bind, exec_commitWrites]
  · simp [op, Prog.exec, StoreOp.run, he]

theorem exec_publishAll (rows : List Row) (s : SpatioTemporalStore L) :
    (publishAll rows).exec StoreOp.run s = some ((), rows.foldl SpatioTemporalStore.publish s) := by
  induction rows generalizing s with
  | nil => rfl
  | cons r rows ih => exact ih (s.publish r)

theorem exec_commitAndFold (edits : List MerkleEdit) (rows : List Row) (s : SpatioTemporalStore L) :
    (commitAndFold edits rows).exec StoreOp.run s =
      some (.ok (), rows.foldl SpatioTemporalStore.publish
        { s with
          tree := s.tree.commit (KvTree.setRows rows)
          merkle := s.merkle.editAll edits }) := by
  rw [commitAndFold, Prog.exec_bind, exec_commitWrites]
  show (publishAll rows >>= fun _ => _).exec StoreOp.run _ = _
  rw [Prog.exec_bind, exec_publishAll]
  rfl

/-- A write to one epoch ends, or waits for `seal_io`. -/
theorem exec_writeRows (e : Epoch) (edits : List MerkleEdit) (rows : List Row)
    (s : SpatioTemporalStore L) :
    s.sealIo = true ∧ (writeRows [e] edits rows).exec StoreOp.run s = none ∨
      ∃ s', (writeRows [e] edits rows).exec StoreOp.run s = some (.ok (), s') ∧
        s'.sealIo = s.sealIo := by
  rw [writeRows, Prog.exec_bind, beginWriteEpochs, beginWriteEpochsFrom, Prog.exec_bind,
    exec_beginWriteEpoch]
  split_ifs with hwait
  · exact .inl ⟨hwait.2, rfl⟩
  · refine .inr ⟨?_, ?_, ?_⟩
    rotate_left
    · show (commitAndFold edits rows >>= fun _ => _).exec StoreOp.run (s.beginEpoch e) = _
      rw [Prog.exec_bind, exec_commitAndFold, SpatioTemporalStore.foldl_publish]
      rfl
    · exact s.sealIo_beginEpoch e

/-- **An `ingest` ends well** when nothing fails, unless it waits for `seal_io`. -/
theorem exec_ingest (k : Key) (v : Bytes) (s : SpatioTemporalStore L) :
    s.sealIo = true ∧ (ingest k v).exec StoreOp.run s = none ∨
      ∃ b s', (ingest k v).exec StoreOp.run s = some (.ok b, s') ∧ s'.sealIo = s.sealIo := by
  have hexec : (ingest k v).exec StoreOp.run s =
      if keepsExisting k v (s.tree.get k.bytes) then some (.ok false, s) else
        ((writeRows [keyEpoch k] (ingestEdits k v (s.tree.get k.bytes)) [(k, v)]).exec
          StoreOp.run s).bind fun x => some (x.1.map fun _ => true, x.2) := by
    show (if keepsExisting k v (s.tree.get k.bytes) then (return .ok false) else
      (writeRows _ _ _ >>= fun result => pure (result.map fun _ => true)) :
        StoreProg _).exec StoreOp.run s = _
    split_ifs
    · rfl
    · rw [Prog.exec_bind]
      rfl
  rw [hexec]
  split_ifs
  · exact .inr ⟨false, s, rfl, rfl⟩
  · rcases exec_writeRows (keyEpoch k) (ingestEdits k v (s.tree.get k.bytes)) [(k, v)] s with
      ⟨hio, hnone⟩ | ⟨s', hs', hio⟩
    · exact .inl ⟨hio, by rw [hnone, Option.bind_none]⟩
    · exact .inr ⟨true, s', by rw [hs']; rfl, hio⟩

/-- When nothing fails, an `ingest` does not answer with an error. -/
theorem ok_of_alone_ingest {k : Key} {v : Bytes} {r : Except String Bool}
    {s' : SpatioTemporalStore L} (h : Alone (storeSem L .reliable) (ingest k v) s r s') :
    ∃ b, r = .ok b := by
  have hexec := exec_of_alone (fun _ _ _ _ => run_of_sem_reliable) h
  rcases exec_ingest k v s with ⟨-, hnone⟩ | ⟨b, s₁, hsome, -⟩
  · rw [hnone] at hexec
    cases hexec
  · rw [hsome] at hexec
    exact ⟨b, (congrArg Prod.fst (Option.some.inj hexec)).symm⟩

end Concrete

section Sample

local instance callsSha : Sha256 := sampleDigests

/-- A store on an empty disk. -/
def sampleStore : SpatioTemporalStore merkleLeafDepth :=
  openStore merkleLeafDepth testIndexer .empty

/-- The call that stores a payload at the lower corner of the range, some nanoseconds into the
epoch 0. -/
def storeCorner (nanos : ℕ) (payload : Bytes) : StoreCall :=
  .store ⟨-1000, -1000, -1000, 0, nanos, payload⟩

/-- The store after the first write. -/
def storedOnce : SpatioTemporalStore merkleLeafDepth := sampleStore.after (storeCorner 0 [0x61])

/-- The store after its epoch was sealed. -/
def sealedOnce : SpatioTemporalStore merkleLeafDepth := storedOnce.after (.sealSettledEpochs 7200 0)

theorem alone_storedOnce :
    Alone (storeSem merkleLeafDepth .reliable) (StoreCall.prog testIndexer (storeCorner 0 [0x61]))
      sampleStore (.ok true) storedOnce :=
  alone_after (s := sampleStore) (c := storeCorner 0 [0x61]) (by decide +kernel)

end Sample

end InterstellarDb
