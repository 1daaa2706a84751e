import InterstellarDb.Foundations.Atomic.Pool
import InterstellarDb.Store.Calls

/-!
# The seal protocol

Which operations a thread may perform, given the marks that it holds and what it is doing under
`seal_io` (`sealProtocol`). Rows are committed and folded only in epochs that the thread has
marked, a record is deleted only under `seal_io`, an epoch leaves `sealed` only after that, and a
record is written only for an epoch put into `sealed` under the same hold of `seal_io`.

Every method of the store keeps to the protocol (`follows_prog`).
-/

namespace InterstellarDb

open Atomic

/-- What a thread is doing under `seal_io`. -/
inductive IoPhase where
  /-- It does not hold `seal_io`. -/
  | free
  | held
  /-- It put the epoch into `sealed`. -/
  | sealing (epoch : Epoch)
  /-- It serialized the tree of the epoch. -/
  | serialized (epoch : Epoch) (bytes : Bytes)
  /-- It deleted the record under the key. -/
  | deleted (key : Bytes)

/-- The phase after a commit. -/
def IoPhase.commit : IoPhase → List KvWrite → IoPhase
  | .serialized _ _, _ => .held
  | .held, [.delete k] => .deleted k
  | p, _ => p

/-- The phase after serializing an epoch. -/
def IoPhase.serialize : IoPhase → Epoch → Option Bytes → IoPhase
  | _, e, some b => .serialized e b
  | p, _, none => p

/-- The marks that a thread holds on each epoch, and its phase. -/
structure SealGhost where
  marks : Epoch → ℕ
  io : IoPhase

namespace SealGhost

/-- The ghost value of a thread that starts. -/
def start : SealGhost := ⟨fun _ => 0, .free⟩

/-- With more marks. -/
def mark (g : SealGhost) (es : List Epoch) : SealGhost :=
  { g with marks := fun e => g.marks e + es.count e }

/-- With fewer marks. -/
def unmark (g : SealGhost) (es : List Epoch) : SealGhost :=
  { g with marks := fun e => g.marks e - es.count e }

/-- In another phase. -/
def withIo (g : SealGhost) (io : IoPhase) : SealGhost := { g with io }

@[simp] theorem io_withIo (g : SealGhost) (io : IoPhase) : (g.withIo io).io = io := rfl

theorem withIo_eq_self {g : SealGhost} {io : IoPhase} (h : g.io = io) : g.withIo io = g := by
  subst h
  rfl

@[simp] theorem mark_mark (g : SealGhost) (es es' : List Epoch) :
    (g.mark es).mark es' = g.mark (es ++ es') := by
  simp only [mark, List.count_append, add_assoc]

@[simp] theorem unmark_mark (g : SealGhost) (es : List Epoch) : (g.mark es).unmark es = g := by
  simp only [mark, unmark, Nat.add_sub_cancel]

theorem marks_pos_mark (g : SealGhost) {es : List Epoch} {e : Epoch} (he : e ∈ es) :
    0 < (g.mark es).marks e := Nat.add_pos_right _ (List.count_pos_iff.2 he)

/-- The commits that a thread may make: rows in epochs it marked; under `seal_io`, the deletion of
a record; and the record of the tree that it serialized. -/
inductive MayCommit (g : SealGhost) : List KvWrite → Prop
  | rows (l : List Row) (hio : g.io = .free) (hl : ∀ r ∈ l, 0 < g.marks r.1.epoch) :
      MayCommit g (KvTree.setRows l)
  | delete (e : Epoch) (hio : g.io = .held) : MayCommit g [.delete (sealKey e)]
  | record (e : Epoch) (b : Bytes) (hio : g.io = .serialized e b) :
      MayCommit g [.set (sealKey e) b]

/-- The operations that a thread may perform. -/
def allow (g : SealGhost) : StoreOp → Prop
  | .removeSealedAndMark e => g.io = .deleted (sealKey e)
  | .endMarks es => ∀ e, es.count e ≤ g.marks e
  | .trySeal _ => g.io = .held
  | .removeSealed e => g.io = .sealing e ∨ ∃ b, g.io = .serialized e b
  | .lockSealIo => g.io = .free
  | .unlockSealIo => g.io = .held
  | .kvCommit _ ws => g.MayCommit ws
  | .foldMerkle edits => ∀ x ∈ edits, 0 < g.marks x.epoch
  | .serializeEpoch e => g.io = .sealing e
  | _ => True

/-- The ghost value after an answer. -/
def next (g : SealGhost) : (o : StoreOp) → o.Resp → SealGhost
  | .markUnlessSealed e, true => g.mark [e]
  | .removeSealedAndMark e, _ => (g.withIo .held).mark [e]
  | .endMarks es, _ => g.unmark es
  | .trySeal e, true => g.withIo (.sealing e)
  | .removeSealed _, _ => g.withIo .held
  | .lockSealIo, _ => g.withIo .held
  | .unlockSealIo, _ => g.withIo .free
  | .kvCommit _ ws, .ok _ => g.withIo (g.io.commit ws)
  | .serializeEpoch e, r => g.withIo (g.io.serialize e r)
  | _, _ => g

end SealGhost

/-- The protocol that the methods of the store keep to. -/
def sealProtocol : Protocol storeSig := ⟨SealGhost, SealGhost.allow, SealGhost.next⟩

/-! ## The methods keep to the protocol -/

section Follows

variable {g : SealGhost}

/-- The ghost value after a part that succeeds or fails. -/
def Ends {α : Type} (ok err : SealGhost) : Except String α → SealGhost → Prop
  | .ok _, g => g = ok
  | .error _, g => g = err

theorem follows_commit {ws : List KvWrite} (h : g.MayCommit ws) :
    Follows sealProtocol (fun r g' => Ends (g.withIo (g.io.commit ws)) g r g') g
      (commitWrites ws) := by
  refine follows_commitWrites ⟨trivial, fun _ => rfl⟩ (fun _ => ⟨trivial, fun _ => rfl⟩)
    (fun _ => rfl) fun n => ⟨h, fun r => ?_⟩
  cases r with
  | error err => rfl
  | ok _ => rfl

theorem follows_beginWriteEpoch (hio : g.io = .free) (e : Epoch) :
    Follows sealProtocol (fun r g' => Ends (g.mark [e]) g r g') g (beginWriteEpoch e) := by
  refine ⟨trivial, fun marked => ?_⟩
  cases marked with
  | true => rfl
  | false =>
    refine ⟨hio, fun _ => ?_⟩
    refine (follows_commit (.delete e rfl)).bind fun r g' hg => ?_
    cases r with
    | error err =>
      obtain rfl : g' = g.withIo .held := hg
      exact ⟨rfl, fun _ => SealGhost.withIo_eq_self hio⟩
    | ok _ =>
      obtain rfl : g' = g.withIo (.deleted (sealKey e)) := hg
      refine ⟨rfl, fun _ => ⟨rfl, fun _ => ?_⟩⟩
      show (g.withIo .free).mark [e] = g.mark [e]
      rw [SealGhost.withIo_eq_self hio]

theorem follows_beginWriteEpochsFrom (hio : g.io = .free) (marked es : List Epoch) :
    Follows sealProtocol (fun r g' => Ends (g.mark (marked ++ es)) g r g') (g.mark marked)
      (beginWriteEpochsFrom marked es) := by
  induction es generalizing marked with
  | nil =>
    show g.mark marked = g.mark (marked ++ [])
    rw [List.append_nil]
  | cons e es ih =>
    refine (follows_beginWriteEpoch (g := g.mark marked) hio e).bind fun r g' hg => ?_
    cases r with
    | error err =>
      obtain rfl : g' = g.mark marked := hg
      exact ⟨fun e => Nat.le_add_left _ _, fun _ => g.unmark_mark marked⟩
    | ok _ =>
      obtain rfl : g' = (g.mark marked).mark [e] := hg
      have := ih (marked ++ [e])
      rw [List.append_assoc, List.singleton_append] at this
      rw [SealGhost.mark_mark]
      exact this

theorem follows_beginWriteEpochs (hio : g.io = .free) (es : List Epoch) :
    Follows sealProtocol (fun r g' => Ends (g.mark es) g r g') g (beginWriteEpochs es) :=
  follows_beginWriteEpochsFrom hio [] es

theorem follows_commitAndFold {edits : List MerkleEdit} {rows : List Row} (hio : g.io = .free)
    (hrows : ∀ r ∈ rows, 0 < g.marks r.1.epoch) (hedits : ∀ x ∈ edits, 0 < g.marks x.epoch) :
    Follows sealProtocol (fun _ g' => g' = g) g (commitAndFold edits rows) := by
  have hcommit : g.withIo (g.io.commit (KvTree.setRows rows)) = g := by
    apply SealGhost.withIo_eq_self
    rw [hio]
    rfl
  refine (follows_commit (.rows rows hio hrows)).bind fun r g' hg => ?_
  rw [hcommit] at hg
  cases r with
  | error err => exact hg
  | ok _ =>
    obtain rfl : g' = g := hg
    refine ⟨hedits, fun _ => ?_⟩
    exact (follows_publishAll fun _ _ => ⟨trivial, fun _ => rfl⟩).bind fun _ _ hg => hg

/-- A write keeps to the protocol when it marks the epochs of its rows and edits. -/
theorem follows_writeRows {es : List Epoch} {edits : List MerkleEdit} {rows : List Row}
    (hio : g.io = .free) (hrows : ∀ r ∈ rows, r.1.epoch ∈ es) (hedits : ∀ x ∈ edits, x.epoch ∈ es) :
    Follows sealProtocol (fun _ g' => g' = g) g (writeRows es edits rows) := by
  refine (follows_beginWriteEpochs hio es).bind fun r g' hg => ?_
  cases r with
  | error err => exact hg
  | ok _ =>
    obtain rfl : g' = g.mark es := hg
    refine (follows_commitAndFold (g := g.mark es) hio (fun r hr => g.marks_pos_mark (hrows r hr))
      fun x hx => g.marks_pos_mark (hedits x hx)).bind fun r g' hg => ?_
    obtain rfl : g' = g.mark es := hg
    exact ⟨fun e => Nat.le_add_left _ _, fun _ => g.unmark_mark es⟩

theorem follows_sealCandidates (hio : g.io = .free) (newly es : List Epoch) :
    Follows sealProtocol (fun _ g' => g' = g) g (sealCandidates newly es) := by
  have hfree : ∀ io, (g.withIo io).withIo .free = g := fun io => SealGhost.withIo_eq_self hio
  induction es generalizing newly with
  | nil => rfl
  | cons e es ih =>
    refine ⟨hio, fun _ => ⟨rfl, fun sealing => ?_⟩⟩
    cases sealing with
    | false =>
      refine ⟨rfl, fun _ => ?_⟩
      exact (hfree .held).symm ▸ ih newly
    | true =>
      refine ⟨rfl, fun bytes => ?_⟩
      cases bytes with
      | none =>
        refine ⟨.inl rfl, fun _ => ⟨rfl, fun _ => ?_⟩⟩
        exact (hfree .held).symm ▸ ih newly
      | some b =>
        refine (follows_commit (.record e b rfl)).bind fun r g' hg => ?_
        cases r with
        | error err =>
          obtain rfl : g' = g.withIo (.serialized e b) := hg
          exact ⟨.inr ⟨b, rfl⟩, fun _ => ⟨rfl, fun _ => hfree .held⟩⟩
        | ok _ =>
          obtain rfl : g' = g.withIo .held := hg
          refine ⟨rfl, fun _ => ?_⟩
          exact (hfree .held).symm ▸ ih _

theorem epoch_of_mem_ingestEdits {k : Key} {v : Bytes} {existing : Option Bytes} {x : MerkleEdit}
    (hx : x ∈ ingestEdits k v existing) : x.epoch = k.epoch := by
  cases existing with
  | none =>
    obtain rfl := List.mem_singleton.1 hx
    rfl
  | some c =>
    rcases List.mem_cons.1 hx with rfl | hx
    · rfl
    · obtain rfl := List.mem_singleton.1 hx
      rfl

variable [Sha256]

/-- **Every method of the store keeps to the protocol**, and gives back its marks and `seal_io`. -/
theorem follows_prog (ix : HybridSpatioTemporalIndexer) (c : StoreCall) (hio : g.io = .free) :
    Follows sealProtocol (fun _ g' => g' = g) g (c.prog ix) := by
  cases c with
  | store x =>
    refine Follows.map (Except.map _) (Follows.map (Except.map _) (follows_writeRows hio ?_ ?_))
    · simp [keyEpoch]
    · simp [keyEpoch, MerkleEdit.epoch]
  | storeBatch xs =>
    refine Follows.map (Except.map _) (Follows.map (Except.map _) (follows_writeRows hio ?_ ?_))
    · intro r hr
      exact mem_distinctEpochs.2 ⟨r.1, List.mem_map_of_mem hr, rfl⟩
    · intro y hy
      obtain ⟨r, hr, rfl⟩ := List.mem_map.1 hy
      exact mem_distinctEpochs.2 ⟨r.1, List.mem_map_of_mem hr, rfl⟩
  | ingest k v =>
    refine ⟨trivial, fun r => ?_⟩
    cases r with
    | error err => rfl
    | ok existing =>
      show Follows _ _ _ (if keepsExisting k v existing then _ else _)
      split_ifs
      · rfl
      · refine Follows.map (Except.map _) (follows_writeRows hio ?_ ?_)
        · simp [keyEpoch]
        · intro x hx
          rw [epoch_of_mem_ingestEdits hx]
          exact List.mem_singleton_self _
  | sealSettledEpochs now grace =>
    exact Follows.map (Except.map _) ⟨trivial, fun epochs => follows_sealCandidates hio [] _⟩

end Follows

end InterstellarDb
