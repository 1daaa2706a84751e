import Mathlib.Data.Multiset.DershowitzManna
import InterstellarDb.Foundations.Atomic.Prog
import InterstellarDb.Sync.Service

/-!
# The client side of a sync

`syncOnce` drives one pull round: it compares the epoch roots, descends into the cells where the
peer's hash differs from its own, fetches the rows of the divergent leaf cells and ingests them.
It is a program over the three RPCs, the reads of its own node hashes and `ingest`, so it runs
against any peer; nothing is assumed here about the answers.

The work list is a queue of cells (`WorkItem`) that carry the proof that `node_hash` accepts their
depth. Every round of the loop takes one cell off and adds deeper ones, however many the peer
sends, so the loop ends (`WorkItem.queue_induction` is the induction that goes with it). As the
queue is first in, first out, the loop works level by level (`syncLoop_eq_pullLevels`).
-/

namespace InterstellarDb

open Atomic

/-! ## Operations -/

/-- The operations of a pull round. -/
inductive SyncOp where
  | roots
  | children (epoch : Epoch) (depthBits nodePrefix : ℕ)
  | fetch (startKey endKey : Bytes)
  /-- Read a node hash of the own forest. -/
  | nodeHash (epoch : Epoch) (depthBits nodePrefix : ℕ)
  /-- Ingest a row into the own store. -/
  | ingest (key : Key) (payload : Bytes)
  deriving DecidableEq

/-- The answers. A stream of rows can fail after any of its rows. -/
abbrev SyncOp.Resp : SyncOp → Type
  | .roots => Except Status SyncRootsResponse
  | .children _ _ _ => Except Status (List ChildHash)
  | .fetch _ _ => Except Status (List (Except Status SyncRow))
  | .nodeHash _ _ _ => NodeHash
  | .ingest _ _ => Except String Bool

/-- The operations of a pull round, as a signature. -/
abbrev syncSig : Sig := ⟨SyncOp, SyncOp.Resp⟩

/-- Programs over these operations. -/
abbrev SyncProg := Prog syncSig

/-- Perform one of them. -/
abbrev remote (o : SyncOp) : SyncProg o.Resp := op (S := syncSig) o

/-- The errors of a pull round: a status of the peer, an error of the own store, or a complaint
about what the peer sent. -/
inductive SyncError where
  | status (status : Status)
  | store (message : String)
  | malformed (message : String)
  deriving DecidableEq

/-- `SyncStats`. -/
structure SyncStats where
  leavesFetched : ℕ
  rowsReceived : ℕ
  rowsApplied : ℕ
  deriving DecidableEq

/-- `SyncStats::default`. -/
def SyncStats.default : SyncStats := ⟨0, 0, 0⟩

/-! ## The work list -/

/-- A divergent cell of the work list, at a depth that `node_hash` accepts. -/
@[ext] structure WorkItem (D : LeafDepth) where
  epoch : Epoch
  depth : ℕ
  nodePrefix : ℕ
  valid : D.Valid depth

namespace WorkItem

variable {D : LeafDepth}

/-- A cell at depth 0. -/
def root (x : Epoch × ℕ) : WorkItem D := ⟨x.1, 0, x.2, D.valid_zero⟩

/-- A child of a cell that is not a leaf cell. -/
def child (item : WorkItem D) (h : item.depth ≠ D.bits) (nodePrefix : ℕ) : WorkItem D where
  epoch := item.epoch
  depth := item.depth + 3
  nodePrefix := nodePrefix
  valid := by
    obtain ⟨h₃, hle⟩ := item.valid
    have := D.mod_three
    exact ⟨by omega, by omega⟩

/-- How far a cell is from the leaves. -/
def height (item : WorkItem D) : ℕ := D.bits - item.depth

/-- The heights of the cells of the work list. -/
def heights (work : List (WorkItem D)) : Multiset ℕ := work.map height

theorem heights_lt_cons (item : WorkItem D) (work : List (WorkItem D)) :
    (heights work).IsDershowitzMannaLT (heights (item :: work)) := by
  refine ⟨heights work, 0, {item.height}, by simp, by simp, ?_, by simp⟩
  rw [heights, heights, List.map_cons, add_comm, Multiset.singleton_add, Multiset.cons_coe]

theorem heights_lt_children (item : WorkItem D) (h : item.depth ≠ D.bits)
    (work : List (WorkItem D)) (l : List ℕ) :
    (heights (work ++ l.map (item.child h))).IsDershowitzMannaLT (heights (item :: work)) := by
  refine ⟨heights work, heights (l.map (item.child h)), {item.height}, by simp, ?_, ?_, ?_⟩
  · rw [heights, heights, heights, List.map_append, Multiset.coe_add]
  · rw [heights, heights, List.map_cons, add_comm, Multiset.singleton_add, Multiset.cons_coe]
  · intro n hn
    refine ⟨item.height, Multiset.mem_singleton_self _, ?_⟩
    simp only [heights, Multiset.mem_coe, List.mem_map] at hn
    obtain ⟨_, ⟨q, -, rfl⟩, rfl⟩ := hn
    have hle := item.valid.2
    unfold height child
    dsimp only
    omega

/-- **Induction over work lists**: take a leaf cell off, or replace a cell by children of it at
the end. -/
theorem queue_induction {motive : List (WorkItem D) → Prop} (nil : motive [])
    (leaf : ∀ item work, item.depth = D.bits → motive work → motive (item :: work))
    (inner : ∀ item work (h : item.depth ≠ D.bits),
      (∀ l : List ℕ, motive (work ++ l.map (item.child h))) → motive (item :: work)) :
    ∀ work, motive work
  | [] => nil
  | item :: work =>
    if h : item.depth = D.bits then leaf item work h (queue_induction nil leaf inner work)
    else inner item work h fun _ => queue_induction nil leaf inner _
termination_by work => heights work
decreasing_by
  · exact heights_lt_cons item work
  · exact heights_lt_children item h work _

end WorkItem

/-! ## `sync_once` -/

/-- The hash that the peer sent for a cell is not zero, and differs from the own one. -/
def diverges (epoch : Epoch) (depth : ℕ) (cell : ChildHash) : SyncProg (Except SyncError Bool) :=
  match hashFromBytes cell.hash with
  | .error status => return .error (.status status)
  | .ok theirs =>
    if theirs = 0 then return .ok false
    else do
      let ours ← remote (.nodeHash epoch depth cell.nodePrefix)
      return .ok (decide (theirs ≠ ours))

/-- The divergent cells among those that the peer sent: the loops of `sync_once` that fill the
work list. -/
def divergent (depth : ℕ) : List (Epoch × ChildHash) →
    SyncProg (Except SyncError (List (Epoch × ℕ)))
  | [] => return .ok []
  | (epoch, cell) :: cells => do
    match ← diverges epoch depth cell with
    | .error err => return .error err
    | .ok pushed =>
      return (← divergent depth cells).map fun l =>
        if pushed then (epoch, cell.nodePrefix) :: l else l

/-- Ingest the rows of a stream, one after another. -/
def ingestRows : List (Except Status SyncRow) → SyncStats →
    SyncProg (Except SyncError SyncStats)
  | [], stats => return .ok stats
  | .error status :: _, _ => return .error (.status status)
  | .ok row :: rows, stats =>
    match Key.tryFrom row.key with
    | none => return .error (.malformed "peer sent a row with a malformed key")
    | some key => do
      let stats := { stats with rowsReceived := stats.rowsReceived + 1 }
      match ← remote (.ingest key row.payload) with
      | .error err => return .error (.store err)
      | .ok changed =>
        ingestRows rows
          (if changed then { stats with rowsApplied := stats.rowsApplied + 1 } else stats)

/-- Fetch the rows of a leaf cell and ingest them. -/
def pullLeaf {D : LeafDepth} (item : WorkItem D) (stats : SyncStats) :
    SyncProg (Except SyncError SyncStats) := do
  let (start, stop) := leafKeyRange item.epoch item.nodePrefix item.depth
  match ← remote (.fetch start.bytes stop.bytes) with
  | .error status => return .error (.status status)
  | .ok rows => ingestRows rows { stats with leavesFetched := stats.leavesFetched + 1 }

theorem pullLeaf_eq {D : LeafDepth} (item : WorkItem D) (stats : SyncStats) :
    pullLeaf item stats = (remote (.fetch
      (leafKeyRange item.epoch item.nodePrefix item.depth).1.bytes
      (leafKeyRange item.epoch item.nodePrefix item.depth).2.bytes) >>= fun r => match r with
        | .error status => return .error (.status status)
        | .ok rows => ingestRows rows { stats with leavesFetched := stats.leavesFetched + 1 }) := by
  rw [pullLeaf]
  refine congrArg (remote _ >>= ·) (funext fun r => ?_)
  cases r with
  | error status => rfl
  | ok rows => rfl

/-- The divergent children of a cell. -/
def pullChildren {D : LeafDepth} (item : WorkItem D) : SyncProg (Except SyncError (List ℕ)) := do
  match ← remote (.children item.epoch item.depth item.nodePrefix) with
  | .error status => return .error (.status status)
  | .ok children =>
    return (← divergent (item.depth + 3) (children.map fun c => (item.epoch, c))).map
      (List.map Prod.snd)

/-- The loop of `sync_once` over the work list. -/
def syncLoop {D : LeafDepth} : List (WorkItem D) → SyncStats →
    SyncProg (Except SyncError SyncStats)
  | [], stats => return .ok stats
  | item :: work, stats =>
    if h : item.depth = D.bits then do
      match ← pullLeaf item stats with
      | .error err => return .error err
      | .ok stats => syncLoop work stats
    else do
      match ← pullChildren item with
      | .error err => return .error err
      | .ok children => syncLoop (work ++ children.map (item.child h)) stats
termination_by work => WorkItem.heights work
decreasing_by
  · exact WorkItem.heights_lt_cons item work
  · exact WorkItem.heights_lt_children item h work children

/-- The shallower of the two leaf depths, when the peer's is one. -/
def descendTo (L : LeafDepth) (remoteLeaf : ℕ) : Option LeafDepth :=
  if h : remoteLeaf < 3 ∨ remoteLeaf % 3 ≠ 0 then none
  else some {
    bits := min remoteLeaf L.bits
    three_le := by
      have := L.three_le
      omega
    le_63 := (Nat.min_le_right _ _).trans L.le_63
    mod_three := by
      have := L.mod_three
      omega }

theorem descendTo_eq_none {L : LeafDepth} {n : ℕ} :
    descendTo L n = none ↔ n < 3 ∨ n % 3 ≠ 0 := by
  unfold descendTo
  split_ifs with h
  · exact iff_of_true rfl h
  · exact iff_of_false (by simp) h

theorem bits_of_descendTo {L : LeafDepth} {n : ℕ} {D : LeafDepth} (h : descendTo L n = some D) :
    D.bits ≤ L.bits := by
  unfold descendTo at h
  split_ifs at h
  obtain rfl := Option.some.inj h
  exact Nat.min_le_right _ _

/-- Leaf depths have a shallower one. -/
theorem exists_descendTo (L L' : LeafDepth) :
    ∃ D, descendTo L L'.bits = some D ∧ D.bits = min L.bits L'.bits := by
  have h₁ := L'.three_le
  have h₂ := L'.mod_three
  refine ⟨_, dif_neg (by omega), ?_⟩
  exact Nat.min_comm _ _

/-- What `sync_once` does after the answer of `Roots`. -/
def pullFrom (L : LeafDepth) (response : SyncRootsResponse) :
    SyncProg (Except SyncError SyncStats) := do
  match descendTo L response.leafDepthBits with
  | none =>
    return .error (.malformed s!"peer reported invalid leaf depth {response.leafDepthBits}")
  | some D =>
    match ← divergent 0 (response.roots.map fun root => (root.epoch, ⟨0, root.hash⟩)) with
    | .error err => return .error err
    | .ok roots => syncLoop (D := D) (roots.map .root) .default

/-- `sync_once`. -/
def syncOnce (L : LeafDepth) : SyncProg (Except SyncError SyncStats) := do
  match ← remote .roots with
  | .error status => return .error (.status status)
  | .ok response => pullFrom L response

/-! ## Level by level -/

section Levels

variable {D : LeafDepth}

/-- The cell of an epoch, `n` levels above the leaves. -/
def WorkItem.above (n : ℕ) (x : Epoch × ℕ) : WorkItem D where
  epoch := x.1
  depth := D.bits - 3 * n
  nodePrefix := x.2
  valid := by
    have := D.mod_three
    exact ⟨by omega, Nat.sub_le _ _⟩

/-- Pull leaf cells, one after another. -/
def pullLeaves (D : LeafDepth) : List (Epoch × ℕ) → SyncStats →
    SyncProg (Except SyncError SyncStats)
  | [], stats => return .ok stats
  | x :: l, stats => do
    match ← pullLeaf (.above (D := D) 0 x) stats with
    | .error err => return .error err
    | .ok stats => pullLeaves D l stats

/-- The divergent children of cells that are `n + 1` levels above the leaves. -/
def pullLevel (D : LeafDepth) (n : ℕ) : List (Epoch × ℕ) →
    SyncProg (Except SyncError (List (Epoch × ℕ)))
  | [] => return .ok []
  | x :: l => do
    match ← pullChildren (.above (D := D) (n + 1) x) with
    | .error err => return .error err
    | .ok children => return (← pullLevel D n l).map (children.map (x.1, ·) ++ ·)

/-- The loop of `sync_once`, from the cells `n` levels above the leaves on. -/
def pullLevels (D : LeafDepth) : ℕ → List (Epoch × ℕ) → SyncStats →
    SyncProg (Except SyncError SyncStats)
  | 0, l, stats => pullLeaves D l stats
  | n + 1, l, stats => do
    match ← pullLevel D n l with
    | .error err => return .error err
    | .ok l => pullLevels D n l stats

theorem syncLoop_nil (stats : SyncStats) :
    syncLoop ([] : List (WorkItem D)) stats = return .ok stats := by
  rw [syncLoop]

theorem syncLoop_leaf {item : WorkItem D} (h : item.depth = D.bits) (work : List (WorkItem D))
    (stats : SyncStats) :
    syncLoop (item :: work) stats = (pullLeaf item stats >>= fun r => match r with
      | .error err => return .error err
      | .ok stats => syncLoop work stats) := by
  rw [syncLoop, dif_pos h]

theorem syncLoop_inner {item : WorkItem D} (h : item.depth ≠ D.bits) (work : List (WorkItem D))
    (stats : SyncStats) :
    syncLoop (item :: work) stats = (pullChildren item >>= fun r => match r with
      | .error err => return .error err
      | .ok children => syncLoop (work ++ children.map (item.child h)) stats) := by
  rw [syncLoop, dif_neg h]

theorem syncLoop_leaves (l : List (Epoch × ℕ)) (stats : SyncStats) :
    syncLoop (l.map (.above (D := D) 0)) stats = pullLeaves D l stats := by
  induction l generalizing stats with
  | nil => exact syncLoop_nil stats
  | cons x l ih =>
    rw [List.map_cons, syncLoop_leaf rfl, pullLeaves]
    congr 1
    funext r
    cases r with
    | error err => rfl
    | ok stats => exact ih stats

/-- The cells at the front of the queue are replaced by their divergent children at its end. -/
theorem syncLoop_append {n : ℕ} (hn : n < D.levels) (l next : List (Epoch × ℕ))
    (stats : SyncStats) :
    syncLoop (l.map (.above (D := D) (n + 1)) ++ next.map (.above n)) stats =
      (pullLevel D n l >>= fun r => match r with
        | .error err => return .error err
        | .ok more => syncLoop ((next ++ more).map (.above (D := D) n)) stats) := by
  have hlevels := D.three_mul_levels
  have hdepth : ∀ x : Epoch × ℕ, (WorkItem.above (D := D) (n + 1) x).depth ≠ D.bits := by
    intro x
    show D.bits - 3 * (n + 1) ≠ D.bits
    omega
  have hchild : ∀ (x : Epoch × ℕ) (q : ℕ),
      (WorkItem.above (D := D) (n + 1) x).child (hdepth x) q = .above n (x.1, q) := by
    intro x q
    refine WorkItem.ext rfl ?_ rfl
    show D.bits - 3 * (n + 1) + 3 = D.bits - 3 * n
    omega
  induction l generalizing next with
  | nil => simp [pullLevel]
  | cons x l ih =>
    rw [List.map_cons, List.cons_append, syncLoop_inner (hdepth x), pullLevel, bind_assoc]
    congr 1
    funext r
    cases r with
    | error err => rfl
    | ok children =>
      have hmap : children.map ((WorkItem.above (D := D) (n + 1) x).child (hdepth x)) =
          (children.map (x.1, ·)).map (.above n) := by
        rw [List.map_map]
        exact List.map_congr_left fun q _ => hchild x q
      dsimp only
      rw [hmap, List.append_assoc, ← List.map_append, ih, bind_assoc]
      congr 1
      funext r
      cases r with
      | error err => rfl
      | ok more =>
        show syncLoop ((next ++ children.map (x.1, ·) ++ more).map (.above (D := D) n)) stats =
          syncLoop ((next ++ (children.map (x.1, ·) ++ more)).map (.above (D := D) n)) stats
        rw [List.append_assoc]

/-- **The queue works level by level.** -/
theorem syncLoop_eq_pullLevels {n : ℕ} (hn : n ≤ D.levels) (l : List (Epoch × ℕ))
    (stats : SyncStats) : syncLoop (l.map (.above (D := D) n)) stats = pullLevels D n l stats := by
  induction n generalizing l with
  | zero => exact syncLoop_leaves l stats
  | succ n ih =>
    have happend := syncLoop_append hn l [] stats
    rw [List.map_nil, List.append_nil] at happend
    rw [happend, pullLevels]
    congr 1
    funext r
    cases r with
    | error err => rfl
    | ok more => exact ih (Nat.le_of_succ_le hn) more

theorem WorkItem.root_eq_above : (WorkItem.root : Epoch × ℕ → WorkItem D) = .above D.levels := by
  have hlevels := D.three_mul_levels
  funext x
  refine WorkItem.ext rfl ?_ rfl
  show 0 = D.bits - 3 * D.levels
  omega

theorem syncLoop_roots (l : List (Epoch × ℕ)) (stats : SyncStats) :
    syncLoop (l.map (.root (D := D))) stats = pullLevels D D.levels l stats := by
  rw [WorkItem.root_eq_above, syncLoop_eq_pullLevels le_rfl]

end Levels

/-- `sync_once`, with its work list level by level. -/
def levelwise (L : LeafDepth) : SyncProg (Except SyncError SyncStats) := do
  match ← remote .roots with
  | .error status => return .error (.status status)
  | .ok response =>
    match descendTo L response.leafDepthBits with
    | none =>
      return .error (.malformed s!"peer reported invalid leaf depth {response.leafDepthBits}")
    | some D =>
      match ← divergent 0 (response.roots.map fun root => (root.epoch, ⟨0, root.hash⟩)) with
      | .error err => return .error err
      | .ok roots => pullLevels D D.levels roots .default

theorem syncOnce_eq_levelwise (L : LeafDepth) : syncOnce L = levelwise L := by
  unfold syncOnce levelwise pullFrom
  simp only [syncLoop_roots]

end InterstellarDb
