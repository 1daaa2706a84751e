import InterstellarDb.Index.Indexer
import InterstellarDb.Merkle.Record
import InterstellarDb.Store.Kv

/-!
# The state of a store

A store is the key-value tree on disk and, in memory, the Merkle forest, the seal bookkeeping
behind its mutex, the `seal_io` lock and the change tap. Each lock section is one function on the
state.
-/

namespace InterstellarDb

open Std

/-- `MERKLE_LEAF_DEPTH_BITS`. -/
def merkleLeafDepth : LeafDepth := ⟨15, by decide, by decide, by decide⟩

/-- `SealState`: the epochs with a seal record on disk, and how many writes to each epoch are
between their begin and their end mark. -/
structure SealState where
  sealed : Finset Epoch
  inflight : ExtTreeMap Epoch ℕ

namespace SealState

/-- `SealState::default`. -/
def empty : SealState := ⟨∅, ∅⟩

/-- The number of writes in flight to an epoch. -/
def marks (s : SealState) (e : Epoch) : ℕ := s.inflight.getD e 0

/-- `*inflight.entry(epoch).or_insert(0) += 1`. -/
def mark (s : SealState) (epoch : Epoch) : SealState :=
  { s with inflight := s.inflight.insert epoch (s.inflight.getD epoch 0 + 1) }

/-- Take one mark of an epoch away, and its entry with the last one. -/
def unmark (s : SealState) (epoch : Epoch) : SealState :=
  match s.inflight[epoch]? with
  | none => s
  | some n =>
    let n := n - 1
    { s with inflight := if n = 0 then s.inflight.erase epoch else s.inflight.insert epoch n }

/-- `sealed.insert(epoch)`. -/
def insertSealed (s : SealState) (epoch : Epoch) : SealState :=
  { s with sealed := insert epoch s.sealed }

/-- `sealed.remove(&epoch)`. -/
def removeSealed (s : SealState) (epoch : Epoch) : SealState :=
  { s with sealed := s.sealed.erase epoch }

@[simp] theorem sealed_mark (s : SealState) (e : Epoch) : (s.mark e).sealed = s.sealed := rfl

@[simp] theorem sealed_insertSealed (s : SealState) (e : Epoch) :
    (s.insertSealed e).sealed = insert e s.sealed := rfl

@[simp] theorem sealed_removeSealed (s : SealState) (e : Epoch) :
    (s.removeSealed e).sealed = s.sealed.erase e := rfl

@[simp] theorem marks_removeSealed (s : SealState) (e e' : Epoch) :
    (s.removeSealed e).marks e' = s.marks e' := rfl

@[simp] theorem sealed_unmark (s : SealState) (e : Epoch) : (s.unmark e).sealed = s.sealed := by
  unfold unmark
  split <;> rfl

theorem marks_mark (s : SealState) (e e' : Epoch) :
    (s.mark e).marks e' = s.marks e' + if e = e' then 1 else 0 := by
  unfold marks mark
  dsimp only
  rw [ExtTreeMap.getD_insert]
  by_cases h : e = e'
  · simp [h]
  · simp [h]

theorem marks_unmark (s : SealState) (e e' : Epoch) :
    (s.unmark e).marks e' = s.marks e' - if e = e' then 1 else 0 := by
  unfold marks unmark
  cases hn : s.inflight[e]? with
  | none =>
    by_cases h : e = e'
    · subst h
      simp [ExtTreeMap.getD_eq_getD_getElem?, hn]
    · simp [h]
  | some n =>
    dsimp only
    by_cases h : e = e'
    · subst h
      by_cases h₀ : n - 1 = 0
      · simp [h₀, ExtTreeMap.getD_eq_getD_getElem?, hn]
      · simp [h₀, ExtTreeMap.getD_eq_getD_getElem?, hn]
    · by_cases h₀ : n - 1 = 0
      · simp [h, h₀, ExtTreeMap.getD_erase]
      · simp [h, h₀, ExtTreeMap.getD_insert]

end SealState

/-- `ObservationEvent`: a change notification. -/
structure ObservationEvent where
  key : Key
  x : ℚ
  y : ℚ
  z : ℚ
  timestampSecs : ℕ
  timestampNanos : ℕ
  payload : Bytes
  deriving DecidableEq

/-- `SpatioTemporalStore`, with the number of receivers of its change tap and the events sent. -/
structure SpatioTemporalStore (L : LeafDepth) where
  indexer : HybridSpatioTemporalIndexer
  tree : KvTree
  merkle : MerkleForest L
  sealState : SealState
  sealIo : Bool
  receivers : ℕ
  events : List ObservationEvent

namespace SpatioTemporalStore

variable {L : LeafDepth}

/-- The event of a row. -/
def observationEvent (ix : HybridSpatioTemporalIndexer) (r : Row) : ObservationEvent :=
  let (x, y, z, secs, nanos) := ix.decodeKey r.1
  ⟨r.1, x, y, z, secs, nanos, r.2⟩

/-- `publish`: send the event of a row, unless nobody listens. -/
def publish (s : SpatioTemporalStore L) (r : Row) : SpatioTemporalStore L :=
  if s.receivers = 0 then s
  else { s with events := s.events ++ [observationEvent s.indexer r] }

/-- The events that publishing rows sends. -/
def newEvents (s : SpatioTemporalStore L) (rows : List Row) : List ObservationEvent :=
  if s.receivers = 0 then [] else rows.map (observationEvent s.indexer)

/-- The stored payload of each key. -/
abbrev table (s : SpatioTemporalStore L) : Key → Option Bytes := s.tree.table

/-- The stored rows. -/
abbrev rows (s : SpatioTemporalStore L) : Finset Row := s.tree.rows

/-- Publishing rows appends their events and changes nothing else. -/
theorem foldl_publish (s : SpatioTemporalStore L) (rows : List Row) :
    rows.foldl publish s = { s with events := s.events ++ s.newEvents rows } := by
  induction rows generalizing s with
  | nil => simp [newEvents]
  | cons r rows ih =>
    rw [List.foldl_cons, ih]
    by_cases h : s.receivers = 0
    · simp [publish, newEvents, h]
    · simp [publish, newEvents, h]

end SpatioTemporalStore

theorem mem_rows {L : LeafDepth} {s : SpatioTemporalStore L} {r : Row} :
    r ∈ s.rows ↔ s.table r.1 = some r.2 := s.tree.rows_table r.1 r.2

end InterstellarDb
