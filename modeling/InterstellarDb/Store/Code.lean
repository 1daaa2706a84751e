import Std.Data.ExtTreeSet
import InterstellarDb.Foundations.Atomic.Pool
import InterstellarDb.Store.Ops

/-!
# The code of the store

The asynchronous methods of the store, as programs over its atomic operations. The `?` operator
is a match on the answer. The three write paths share their shape (`writeRows`): begin the
epochs, commit the rows, fold them into the forest, publish them, end the epochs. The parts that
only stage writes and publish events keep to every protocol that leaves these operations free.
-/

namespace InterstellarDb

open Atomic GreatestWins

/-- Programs over the store operations. -/
abbrev StoreProg (α : Type) := Prog storeSig α

/-- Perform one operation. -/
abbrev atomic (o : StoreOp) : StoreProg o.Resp := @op storeSig o

/-- The `set` and `delete` calls of a transaction. -/
def stageAll : List KvWrite → StoreProg (Except String Unit)
  | [] => return .ok ()
  | w :: ws => do
    match ← atomic (.kvStage w) with
    | .error err => return .error err
    | .ok () => stageAll ws

/-- A transaction: begin, stage the writes, commit. -/
def commitWrites (ws : List KvWrite) : StoreProg (Except String Unit) := do
  match ← atomic .kvBegin with
  | .error err => return .error err
  | .ok begun =>
    match ← stageAll ws with
    | .error err => return .error err
    | .ok () => atomic (.kvCommit begun ws)

/-! ## Marks -/

/-- `begin_write_epoch`: mark a write to the epoch as in flight, first unsealing it if needed. -/
def beginWriteEpoch (epoch : Epoch) : StoreProg (Except String Unit) := do
  if ← atomic (.markUnlessSealed epoch) then
    return .ok ()
  else
    -- sealed: the record goes before the data of this write can land
    atomic .lockSealIo
    match ← commitWrites [.delete (sealKey epoch)] with
    | .error err =>
      atomic .unlockSealIo
      return .error err
    | .ok () =>
      atomic (.removeSealedAndMark epoch)
      atomic .unlockSealIo
      return .ok ()

/-- The loop of `begin_write_epochs`, with the epochs marked so far. -/
def beginWriteEpochsFrom (marked : List Epoch) : List Epoch → StoreProg (Except String Unit)
  | [] => return .ok ()
  | e :: rest => do
    match ← beginWriteEpoch e with
    | .error err =>
      atomic (.endMarks marked)
      return .error err
    | .ok () => beginWriteEpochsFrom (marked ++ [e]) rest

/-- `begin_write_epochs`; on failure, no epoch is left marked. -/
def beginWriteEpochs (epochs : List Epoch) : StoreProg (Except String Unit) :=
  beginWriteEpochsFrom [] epochs

/-- `end_write_epochs`. -/
def endWriteEpochs (epochs : List Epoch) : StoreProg Unit := atomic (.endMarks epochs)

/-! ## Writes -/

/-- Publish rows, one event after another. -/
def publishAll : List Row → StoreProg Unit
  | [] => return ()
  | r :: rows => do
    atomic (.publish r)
    publishAll rows

/-- The `async` block of the write paths: commit the rows, fold the edits, publish the rows. -/
def commitAndFold (edits : List MerkleEdit) (rows : List Row) : StoreProg (Except String Unit) := do
  match ← commitWrites (KvTree.setRows rows) with
  | .error err => return .error err
  | .ok () =>
    atomic (.foldMerkle edits)
    publishAll rows
    return .ok ()

/-- The common shape of the write paths. -/
def writeRows (epochs : List Epoch) (edits : List MerkleEdit) (rows : List Row) :
    StoreProg (Except String Unit) := do
  match ← beginWriteEpochs epochs with
  | .error err => return .error err
  | .ok () =>
    let result ← commitAndFold edits rows
    endWriteEpochs epochs
    return result

/-- A record of a batch: a position, a second, the nanoseconds in the second and a payload. -/
structure BatchRecord where
  x : ℚ
  y : ℚ
  z : ℚ
  secs : ℕ
  nanos : ℕ
  payload : Bytes

/-- The row that a record becomes. -/
def BatchRecord.row (ix : HybridSpatioTemporalIndexer) (r : BatchRecord) : Row :=
  (ix.generateKey r.x r.y r.z r.secs r.nanos, r.payload)

/-- The distinct epochs of keys, ascending, `BTreeSet<u32>`. -/
def distinctEpochs (keys : List Key) : List Epoch :=
  (Std.ExtTreeSet.ofList (keys.map keyEpoch)).toList

/-- `store_batch`. -/
def storeBatch (ix : HybridSpatioTemporalIndexer) (records : List BatchRecord) :
    StoreProg (Except String (List Key)) := do
  let rows := records.map (BatchRecord.row ix)
  let keys := rows.map Prod.fst
  let result ← writeRows (distinctEpochs keys) (rows.map .insert) rows
  return result.map fun _ => keys

/-- `store`. -/
def store (ix : HybridSpatioTemporalIndexer) (r : BatchRecord) :
    StoreProg (Except String Key) := do
  let key := (r.row ix).1
  let result ← writeRows [keyEpoch key] [.insert (key, r.payload)] [(key, r.payload)]
  return result.map fun _ => key

section Ingest

variable [Sha256]

/-- The forest changes of `ingest`: the replaced row out, the new one in. -/
def ingestEdits (key : Key) (payload : Bytes) (existing : Option Bytes) : List MerkleEdit :=
  (match existing with
    | none => []
    | some current => [.remove (key, current)]) ++ [.insert (key, payload)]

/-- The stored payload stays: it is the same one, or its digest is not smaller. -/
def keepsExisting (key : Key) (payload : Bytes) (existing : Option Bytes) : Bool :=
  match existing with
  | none => false
  | some current => current == payload || decide (itemDigest key payload ≤ itemDigest key current)

/-- The stored payload stays exactly when it dominates the new one. -/
theorem keepsExisting_iff {m : Key → Option Bytes} {k : Key} {v : Bytes} :
    keepsExisting k v (m k) = true ↔ Dominates itemDigest m k v := by
  unfold Dominates
  cases hk : m k with
  | none => simp [keepsExisting]
  | some c =>
    simp only [keepsExisting, Bool.or_eq_true, beq_iff_eq, decide_eq_true_eq, Option.some.injEq,
      exists_eq_left', or_iff_right_iff_imp]
    rintro rfl
    exact le_rfl

theorem keepsExisting_eq_false {m : Key → Option Bytes} {k : Key} {v : Bytes} :
    keepsExisting k v (m k) = false ↔ ¬ Dominates itemDigest m k v := by
  rw [← keepsExisting_iff, Bool.not_eq_true]

/-- `ingest`. The existing row is read in a transaction of its own. -/
def ingest (key : Key) (payload : Bytes) : StoreProg (Except String Bool) := do
  match ← atomic (.kvGet key.bytes) with
  | .error err => return .error err
  | .ok existing =>
    if keepsExisting key payload existing then
      return .ok false
    else
      let result ← writeRows [keyEpoch key] (ingestEdits key payload existing) [(key, payload)]
      return result.map fun _ => true

end Ingest

/-! ## Sealing -/

/-- The loop of `seal_settled_epochs`, with the epochs sealed so far. -/
def sealCandidates (newlySealed : List Epoch) : List Epoch → StoreProg (Except String (List Epoch))
  | [] => return .ok newlySealed
  | epoch :: rest => do
    atomic .lockSealIo
    -- the mark in `sealed` comes before the record, so that later writers wait for `seal_io`
    if ← atomic (.trySeal epoch) then
      match ← atomic (.serializeEpoch epoch) with
      | none =>
        atomic (.removeSealed epoch)
        atomic .unlockSealIo
        sealCandidates newlySealed rest
      | some bytes =>
        match ← commitWrites [.set (sealKey epoch) bytes] with
        | .error err =>
          atomic (.removeSealed epoch)
          atomic .unlockSealIo
          return .error err
        | .ok () =>
          atomic .unlockSealIo
          sealCandidates (newlySealed ++ [epoch]) rest
    else
      atomic .unlockSealIo
      sealCandidates newlySealed rest

/-- `seal_settled_epochs`. -/
def sealSettledEpochs (ix : HybridSpatioTemporalIndexer) (nowSecs graceSecs : ℕ) :
    StoreProg (Except String (List Epoch)) := do
  let cutoff := (nowSecs - graceSecs) / ix.epochDuration
  let epochs ← atomic .merkleEpochs
  sealCandidates [] (epochs.filter fun e => e.val < cutoff)

/-! ## Parts that keep to a protocol -/

section Follows

variable {P : Protocol storeSig} {g : P.Ghost}

theorem follows_stageAll (h : ∀ w, P.Neutral g (.kvStage w)) (ws : List KvWrite) :
    Follows P (fun _ g' => g' = g) g (stageAll ws) := by
  induction ws with
  | nil => rfl
  | cons w ws ih =>
    refine (h w).call fun r => ?_
    cases r with
    | error err => rfl
    | ok _ => exact ih

/-- A transaction keeps to a protocol when its commit does. -/
theorem follows_commitWrites {ws : List KvWrite} {Q : Except String Unit → P.Ghost → Prop}
    (hbegin : P.Neutral g .kvBegin) (hstage : ∀ w, P.Neutral g (.kvStage w))
    (hfail : ∀ err, Q (.error err) g)
    (hcommit : ∀ n, P.allow g (.kvCommit n ws) ∧ ∀ r, Q r (P.next g (.kvCommit n ws) r)) :
    Follows P Q g (commitWrites ws) := by
  refine hbegin.call fun r => ?_
  cases r with
  | error err => exact hfail err
  | ok begun =>
    refine (follows_stageAll hstage ws).bind fun r g' hg => ?_
    obtain rfl : g' = g := hg
    cases r with
    | error err => exact hfail err
    | ok _ => exact follows_op.2 (hcommit begun)

theorem follows_publishAll {rows : List Row} (h : ∀ r ∈ rows, P.Neutral g (.publish r)) :
    Follows P (fun _ g' => g' = g) g (publishAll rows) := by
  induction rows with
  | nil => rfl
  | cons r rows ih =>
    refine (h r (List.mem_cons_self ..)).call fun _ => ?_
    exact ih fun x hx => h x (List.mem_cons_of_mem _ hx)

end Follows

end InterstellarDb
