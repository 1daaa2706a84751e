import InterstellarDb.Foundations.Atomic.Pool
import InterstellarDb.Store.Trust

/-!
# Concurrent calls of `ingest`

`ingest` reads the stored payload in a transaction of its own, before the transaction that writes.
Between the two another call may replace the payload, and the write then overrides a greater
digest and leaves the forest with a row that is not stored (`not_settled`).

As long as every commit still finds the payload that its call read, and every fold that takes a
row out finds a tree with rows to take from (`Undisturbed`), the calls end with the greatest
digest under every key and the forest of the rows (`settled_of_undisturbed`). The invariant
(`RaceInv`): what is stored is the fold of the forest and of the changes that committed calls have
still to fold.
-/

namespace InterstellarDb.IngestRace

open Atomic GreatestWins

/-- How far a call of `ingest` is. -/
inductive IngestPhase where
  | fresh
  | read (existing : Option Bytes)
  /-- The row is committed, and not folded into the forest yet. -/
  | pending (existing : Option Bytes)
  | done

/-- The phase after the commit of the row. -/
def IngestPhase.commit : IngestPhase → IngestPhase
  | .read existing => .pending existing
  | p => p

/-- The existing payload that a call has read, while it still matters. -/
def IngestPhase.existing : IngestPhase → Option (Option Bytes)
  | .read existing => some existing
  | .pending existing => some existing
  | _ => none

theorem IngestPhase.existing_commit (p : IngestPhase) : p.commit.existing = p.existing := by
  cases p <;> rfl

/-- A call: the row that it was given, and how far it is. -/
structure IngestGhost where
  key : Key
  payload : Bytes
  phase : IngestPhase

namespace IngestGhost

/-- In another phase. -/
def enter (g : IngestGhost) (phase : IngestPhase) : IngestGhost := { g with phase }

/-- The operations that a call may perform. -/
def allow [Sha256] (g : IngestGhost) : StoreOp → Prop
  | .kvGet k => g.phase = .fresh ∧ k = g.key.bytes
  | .kvCommit _ ws =>
    (∃ existing, g.phase = .read existing ∧ ws = KvTree.setRows [(g.key, g.payload)]) ∨
      ∃ e, ws = [.delete (sealKey e)]
  | .foldMerkle edits =>
    ∃ existing, g.phase = .pending existing ∧ edits = ingestEdits g.key g.payload existing
  | _ => True

/-- The call after an answer. -/
def next [Sha256] (g : IngestGhost) : (o : StoreOp) → o.Resp → IngestGhost
  | .kvGet _, .ok existing =>
    g.enter (if keepsExisting g.key g.payload existing then .done else .read existing)
  | .kvCommit _ ws, .ok _ =>
    if ws = KvTree.setRows [(g.key, g.payload)] then g.enter g.phase.commit else g
  | .foldMerkle _, _ => g.enter .done
  | _, _ => g

end IngestGhost

/-- The protocol of a call of `ingest`. -/
abbrev ingestProtocol [Sha256] : Protocol storeSig :=
  ⟨IngestGhost, IngestGhost.allow, IngestGhost.next⟩

/-! ## `ingest` keeps to the protocol -/

section Follows

variable [Sha256] {g : IngestGhost}

theorem follows_commit {ws : List KvWrite} (h : ∀ n, g.allow (.kvCommit n ws)) :
    Follows ingestProtocol (fun r g' => match r with
      | .ok _ => g' = g.next (.kvCommit 0 ws) (.ok ())
      | .error _ => g' = g) g (commitWrites ws) := by
  refine follows_commitWrites ⟨trivial, fun _ => rfl⟩ (fun _ => ⟨trivial, fun _ => rfl⟩)
    (fun _ => rfl) fun n => ⟨h n, fun r => ?_⟩
  cases r with
  | error err => rfl
  | ok _ => rfl

/-- Deleting a seal record is not the commit of the row. -/
theorem next_delete (g : IngestGhost) (n : ℕ) (e : Epoch) :
    g.next (.kvCommit n [.delete (sealKey e)]) (.ok ()) = g := by
  have hne : [KvWrite.delete (sealKey e)] ≠ KvTree.setRows [(g.key, g.payload)] := by
    simp [KvTree.setRows]
  rw [IngestGhost.next, if_neg hne]

theorem follows_beginWriteEpoch (e : Epoch) :
    Follows ingestProtocol (fun _ g' => g' = g) g (beginWriteEpoch e) := by
  refine ⟨trivial, fun marked => ?_⟩
  cases marked with
  | true => rfl
  | false =>
    refine ⟨trivial, fun _ => (follows_commit fun _ => .inr ⟨e, rfl⟩).bind fun r g' hg => ?_⟩
    cases r with
    | error err =>
      obtain rfl : g' = g := hg
      exact ⟨trivial, fun _ => rfl⟩
    | ok _ =>
      obtain rfl : g' = g := hg.trans (next_delete g 0 e)
      exact ⟨trivial, fun _ => ⟨trivial, fun _ => rfl⟩⟩

theorem follows_beginWriteEpochsFrom (marked es : List Epoch) :
    Follows ingestProtocol (fun _ g' => g' = g) g (beginWriteEpochsFrom marked es) := by
  induction es generalizing marked with
  | nil => rfl
  | cons e es ih =>
    refine (follows_beginWriteEpoch e).bind fun r g' hg => ?_
    obtain rfl : g' = g := hg
    cases r with
    | error err => exact ⟨trivial, fun _ => rfl⟩
    | ok _ => exact ih _

/-- A call that returns without an error is done. -/
def Done {α : Type} (r : Except String α) (g : IngestGhost) : Prop :=
  ∀ a, r = .ok a → g.phase = .done

theorem follows_commitAndFold {existing : Option Bytes} (hg : g.phase = .read existing) :
    Follows ingestProtocol Done g
      (commitAndFold (ingestEdits g.key g.payload existing) [(g.key, g.payload)]) := by
  refine (follows_commit fun _ => .inl ⟨existing, hg, rfl⟩).bind fun r g' h => ?_
  cases r with
  | error err => exact fun _ h => nomatch h
  | ok _ =>
    obtain rfl : g' = g.enter (.pending existing) := by
      refine h.trans ?_
      rw [IngestGhost.next, if_pos rfl, hg]
      rfl
    refine ⟨⟨existing, rfl, rfl⟩, fun _ => ?_⟩
    refine (follows_publishAll fun _ _ => ⟨trivial, fun _ => rfl⟩).bind fun _ g'' h => ?_
    obtain rfl : g'' = _ := h
    exact fun _ _ => rfl

/-- **`ingest` keeps to the protocol.** -/
theorem follows_ingest (k : Key) (v : Bytes) :
    Follows ingestProtocol Done ⟨k, v, .fresh⟩ (ingest k v) := by
  refine ⟨⟨rfl, rfl⟩, fun r => ?_⟩
  cases r with
  | error err => exact fun _ h => nomatch h
  | ok existing =>
    show Follows ingestProtocol Done
      (IngestGhost.enter ⟨k, v, .fresh⟩
        (if keepsExisting k v existing then .done else .read existing))
      (if keepsExisting k v existing then _ else _)
    split_ifs
    · exact fun _ _ => rfl
    · refine Follows.bind (Q := fun r g => Done r g) ?_ fun r g' h => ?_
      · refine (follows_beginWriteEpochsFrom [] [keyEpoch k]).bind fun r g' h => ?_
        obtain rfl := h
        cases r with
        | error err => exact fun _ h => nomatch h
        | ok _ =>
          refine (follows_commitAndFold rfl).bind fun r g' h => ⟨trivial, fun _ => h⟩
      · cases r with
        | error err => exact fun _ h => nomatch h
        | ok _ => exact fun _ _ => h () rfl

end Follows

/-! ## The invariant -/

/-- The existing payload that the last read of a call answered. -/
def lastRead : List (Σ o : StoreOp, o.Resp) → Option Bytes
  | [] => none
  | ⟨.kvGet _, .ok existing⟩ :: _ => existing
  | _ :: past => lastRead past

section Invariant

variable [Sha256] {L : LeafDepth}

/-- The payload that a call has read is the one of its last read. -/
theorem eq_lastRead {k : Key} {v : Bytes} (past : List (Σ o : StoreOp, o.Resp))
    {existing : Option Bytes}
    (h : (ingestProtocol.replay ⟨k, v, .fresh⟩ past).phase.existing = some existing) :
    lastRead past = existing := by
  induction past with
  | nil => cases h
  | cons x past ih =>
    obtain ⟨o, r⟩ := x
    change ((ingestProtocol.replay ⟨k, v, .fresh⟩ past).next o r).phase.existing =
      some existing at h
    generalize ingestProtocol.replay ⟨k, v, .fresh⟩ past = g at ih h
    cases o with
    | kvGet key =>
      cases r with
      | error err => exact ih h
      | ok current =>
        simp only [IngestGhost.next, IngestGhost.enter] at h
        split_ifs at h
        · cases h
        · exact Option.some.inj h
    | kvCommit n ws =>
      cases r with
      | error err => exact ih h
      | ok _ =>
        simp only [IngestGhost.next, IngestGhost.enter] at h
        split_ifs at h
        · exact ih (g.phase.existing_commit ▸ h)
        · exact ih h
    | foldMerkle edits => cases h
    | _ => exact ih h

/-- What folding the edits of a call adds to a cell. -/
def deltaHash (e : Epoch) (d p : ℕ) (k : Key) (v : Bytes) (existing : Option Bytes) : NodeHash :=
  if InCell e d p k then existing.elim 0 (itemDigest k) + itemDigest k v else 0

omit [Sha256] in
/-- What it adds to the count of an epoch. -/
def deltaCount (e : Epoch) (k : Key) (existing : Option Bytes) : BitVec 64 :=
  if k.epoch = e ∧ existing = none then 1 else 0

theorem nodeHash_ingestEdits {f : MerkleForest L} {k : Key} {v : Bytes} {existing : Option Bytes}
    (h : ∀ c, existing = some c → ∃ t, f.trees[k.epoch]? = some t) (e : Epoch) {d p : ℕ}
    (hd : L.Valid d) (hp : IsPrefix d p) :
    (f.editAll (ingestEdits k v existing)).nodeHash e d p =
      f.nodeHash e d p + deltaHash e d p k v existing := by
  cases existing with
  | none =>
    refine (f.nodeHash_insert k v e hd hp).trans ?_
    simp [deltaHash]
  | some c =>
    refine (MerkleForest.nodeHash_insert _ k v e hd hp).trans ?_
    rw [show (f.edit (.remove (k, c))).nodeHash e d p = _ from
      MerkleForest.nodeHash_remove (h c rfl) c e hd hp, add_assoc, deltaHash]
    congr 1
    split_ifs <;> rfl

theorem count_ingestEdits {f : MerkleForest L} {k : Key} {v : Bytes} {existing : Option Bytes}
    (h : ∀ c, existing = some c → f.count k.epoch ≠ 0) (e : Epoch) :
    (f.editAll (ingestEdits k v existing)).count e = f.count e + deltaCount e k existing := by
  cases existing with
  | none =>
    refine (f.count_insert k v e).trans ?_
    simp [deltaCount]
  | some c =>
    refine (MerkleForest.count_insert _ k v e).trans ?_
    rw [show (f.edit (.remove (k, c))).count e = _ from MerkleForest.count_remove (h c rfl) c e]
    simp [deltaCount]

/-- What a call has committed and not folded yet, in a cell. -/
def pendingHash (e : Epoch) (d p : ℕ) (g : IngestGhost) : NodeHash :=
  match g.phase with
  | .pending existing => deltaHash e d p g.key g.payload existing
  | _ => 0

/-- What it has committed and not folded yet, in the count of an epoch. -/
def pendingCount (e : Epoch) (g : IngestGhost) : BitVec 64 :=
  match g.phase with
  | .pending existing => deltaCount e g.key existing
  | _ => 0

/-- The row of the call has been committed, or lost to the stored one. -/
def IngestGhost.Landed (g : IngestGhost) : Prop :=
  g.phase = .done ∨ ∃ existing, g.phase = .pending existing

/-- **The invariant of concurrent calls**, from the table `m₀` on. -/
structure RaceInv (m₀ : Key → Option Bytes) (calls : List Row) (s : SpatioTemporalStore L)
    (gs : List IngestGhost) : Prop where
  below : Below itemDigest m₀ s.table
  only : ∀ k v, s.table k = some v → m₀ k = some v ∨ (k, v) ∈ calls
  given : (gs.map fun g => (g.key, g.payload)).Perm calls
  landed : ∀ g ∈ gs, g.Landed → Dominates itemDigest s.table g.key g.payload
  read : ∀ g ∈ gs, ∀ existing, g.phase = .read existing →
    keepsExisting g.key g.payload existing = false
  hashes : ∀ e d p, L.Valid d → IsPrefix d p →
    s.merkle.nodeHash e d p + (gs.map (pendingHash e d p)).sum = cellHash s.rows e d p
  counts : ∀ e, s.merkle.count e + (gs.map (pendingCount e)).sum = (epochCount s.rows e : BitVec 64)

variable {m₀ : Key → Option Bytes} {calls : List Row} {s s' : SpatioTemporalStore L}
  {g g' : IngestGhost} {l : List IngestGhost}

theorem RaceInv.perm {gs : List IngestGhost} (h : RaceInv m₀ calls s gs) (hp : gs.Perm l) :
    RaceInv m₀ calls s l where
  below := h.below
  only := h.only
  given := (hp.map _).symm.trans h.given
  landed := fun g hg => h.landed g (hp.mem_iff.2 hg)
  read := fun g hg => h.read g (hp.mem_iff.2 hg)
  hashes := by
    intro e d p hd hp'
    rw [← (hp.map (pendingHash e d p)).sum_eq]
    exact h.hashes e d p hd hp'
  counts := by
    intro e
    rw [← (hp.map (pendingCount e)).sum_eq]
    exact h.counts e

omit [Sha256] in
theorem add_eq_of_delta {A : Type*} [AddCommGroup A] {n n' p p' r c c' : A} (h : n + (p + r) = c)
    (hd : n' + p' + c = n + p + c') : n' + (p' + r) = c' := by
  apply add_right_cancel (b := c)
  calc n' + (p' + r) + c = n' + p' + c + r := by abel
    _ = n + (p + r) + c' := by rw [hd]; abel
    _ = c' + c := by rw [h, add_comm]

/-- A step of the first call keeps the invariant when forest, pending changes and rows change
together. -/
theorem RaceInv.update (h : RaceInv m₀ calls s (g :: l)) (hkey : g'.key = g.key)
    (hpayload : g'.payload = g.payload) (hbelow : Below itemDigest s.table s'.table)
    (honly : ∀ k v, s'.table k = some v → s.table k = some v ∨ k = g.key ∧ v = g.payload)
    (hlanded : g'.Landed → Dominates itemDigest s'.table g.key g.payload)
    (hread : ∀ existing, g'.phase = .read existing → keepsExisting g.key g.payload existing = false)
    (hhash : ∀ e d p, L.Valid d → IsPrefix d p →
      s'.merkle.nodeHash e d p + pendingHash e d p g' + cellHash s.rows e d p =
        s.merkle.nodeHash e d p + pendingHash e d p g + cellHash s'.rows e d p)
    (hcount : ∀ e, s'.merkle.count e + pendingCount e g' + (epochCount s.rows e : BitVec 64) =
      s.merkle.count e + pendingCount e g + (epochCount s'.rows e : BitVec 64)) :
    RaceInv m₀ calls s' (g' :: l) where
  below := h.below.trans hbelow
  only := by
    intro k v hv
    rcases honly k v hv with hv | ⟨rfl, rfl⟩
    · exact h.only k v hv
    · exact .inr (h.given.mem_iff.1 (by simp))
  given := by
    rw [List.map_cons, hkey, hpayload]
    exact h.given
  landed := by
    intro x hx hl
    rcases List.mem_cons.1 hx with rfl | hx
    · rw [hkey, hpayload]
      exact hlanded hl
    · exact (h.landed x (List.mem_cons_of_mem _ hx) hl).mono hbelow
  read := by
    intro x hx
    rcases List.mem_cons.1 hx with rfl | hx
    · rw [hkey, hpayload]
      exact hread
    · exact h.read x (List.mem_cons_of_mem _ hx)
  hashes := by
    intro e d p hd hp
    have := h.hashes e d p hd hp
    rw [List.map_cons, List.sum_cons] at this ⊢
    exact add_eq_of_delta this (hhash e d p hd hp)
  counts := by
    intro e
    have := h.counts e
    rw [List.map_cons, List.sum_cons] at this ⊢
    exact add_eq_of_delta this (hcount e)

/-- An operation that touches neither the rows nor the forest. -/
theorem RaceInv.congr {gs : List IngestGhost} (h : RaceInv m₀ calls s gs)
    (ht : s'.table = s.table) (hm : s'.merkle = s.merkle) : RaceInv m₀ calls s' gs := by
  have hrows : s'.rows = s.rows := KvTree.rows_congr ht
  obtain ⟨h₁, h₂, h₃, h₄, h₅, h₆, h₇⟩ := h
  rw [← ht] at h₁ h₂ h₄
  rw [← hm, ← hrows] at h₆ h₇
  exact ⟨h₁, h₂, h₃, h₄, h₅, h₆, h₇⟩

theorem RaceInv.kvGet (h : RaceInv m₀ calls s (g :: l)) (hg : g.phase = .fresh) :
    RaceInv m₀ calls s (g.next (.kvGet g.key.bytes) (.ok (s.table g.key)) :: l) := by
  have hpending : ∀ e d p, pendingHash e d p g = 0 ∧ pendingCount e g = 0 := by
    simp [pendingHash, pendingCount, hg]
  simp only [IngestGhost.next]
  cases hk : keepsExisting g.key g.payload (s.table g.key) with
  | true =>
    rw [if_pos rfl]
    refine h.update rfl rfl (.refl _) (fun _ _ hv => .inl hv) (fun _ => ?_)
      (by simp [IngestGhost.enter]) (fun e d p _ _ => by rw [(hpending e d p).1]; rfl)
      fun e => by rw [(hpending e 0 0).2]; rfl
    exact keepsExisting_iff.1 hk
  | false =>
    rw [if_neg (by simp)]
    refine h.update rfl rfl (.refl _) (fun _ _ hv => .inl hv)
      (by simp [IngestGhost.Landed, IngestGhost.enter]) (fun existing he => ?_)
      (fun e d p _ _ => by rw [(hpending e d p).1]; rfl) fun e => by rw [(hpending e 0 0).2]; rfl
    obtain rfl : s.table g.key = existing := by simpa [IngestGhost.enter] using he
    exact hk

/-- **The commit of a row**, when its key still has the payload that the call read. -/
theorem RaceInv.commit (h : RaceInv m₀ calls s (g :: l)) {existing : Option Bytes}
    (hg : g.phase = .read existing) (hs : s.table g.key = existing) :
    RaceInv m₀ calls { s with tree := s.tree.commit (KvTree.setRows [(g.key, g.payload)]) }
      (g.enter (.pending existing) :: l) := by
  have htable := KvTree.table_setRows s.tree [(g.key, g.payload)]
  have hkeeps := h.read g (by simp) existing hg
  have hbelow : Below itemDigest s.table (Function.update s.table g.key (some g.payload)) := by
    rw [← hs, keepsExisting_eq_false] at hkeeps
    exact below_update fun c hc => rank_le_of_not_dominates hkeeps hc
  have hrows := (s.tree.commit (KvTree.setRows [(g.key, g.payload)])).rows_table
  rw [htable] at hrows
  refine h.update rfl rfl ?_ (fun k v hv => ?_) (fun _ => ?_) (by simp [IngestGhost.enter])
    (fun e d p hd hp => ?_) fun e => ?_
  · show Below itemDigest s.table (KvTree.table _)
    rw [htable]
    exact hbelow
  · rw [show SpatioTemporalStore.table _ = _ from htable] at hv
    exact eq_some_of_update hv
  · rw [show SpatioTemporalStore.table _ = _ from htable]
    exact .of_eq (Function.update_self ..)
  · have hcell : cellHash (s.tree.commit (KvTree.setRows [(g.key, g.payload)])).rows e d p =
        cellHash s.rows e d p + deltaHash e d p g.key g.payload existing := by
      rw [cellHash_update s.tree.rows_table hrows, show s.tree.table g.key = existing from hs]
      rfl
    have hzero : pendingHash e d p g = 0 := by simp only [pendingHash, hg]
    show s.merkle.nodeHash e d p + deltaHash e d p g.key g.payload existing +
        cellHash s.rows e d p =
      s.merkle.nodeHash e d p + pendingHash e d p g + cellHash (KvTree.rows _) e d p
    rw [hcell, hzero, add_zero, add_assoc, add_comm (deltaHash e d p g.key g.payload existing)]
  · have hcell : (epochCount (s.tree.commit (KvTree.setRows [(g.key, g.payload)])).rows e :
        BitVec 64) = (epochCount s.rows e : BitVec 64) + deltaCount e g.key existing := by
      rw [cast_epochCount_update s.tree.rows_table hrows,
        show s.tree.table g.key = existing from hs]
      rfl
    have hzero : pendingCount e g = 0 := by simp only [pendingCount, hg]
    show s.merkle.count e + deltaCount e g.key existing + (epochCount s.rows e : BitVec 64) =
      s.merkle.count e + pendingCount e g + (epochCount (KvTree.rows _) e : BitVec 64)
    rw [hcell, hzero, add_zero, add_assoc, add_comm (deltaCount e g.key existing)]

/-- **The fold of a committed row**, when its epoch has a tree with rows to take from. -/
theorem RaceInv.fold (h : RaceInv m₀ calls s (g :: l)) {existing : Option Bytes}
    (hg : g.phase = .pending existing)
    (hs : ∀ c, existing = some c → s.merkle.count g.key.epoch ≠ 0) :
    RaceInv m₀ calls
      { s with merkle := s.merkle.editAll (ingestEdits g.key g.payload existing) }
      (g.enter .done :: l) := by
  refine h.update rfl rfl (.refl _) (fun _ _ hv => .inl hv) (fun _ => ?_)
    (by simp [IngestGhost.enter]) (fun e d p hd hp => ?_) fun e => ?_
  · exact h.landed g (by simp) (.inr ⟨existing, hg⟩)
  · have hfold := nodeHash_ingestEdits (v := g.payload)
      (fun c hc => MerkleForest.exists_tree_of_count_ne_zero (hs c hc)) e hd hp
    dsimp only
    rw [hfold]
    simp only [pendingHash, IngestGhost.enter, hg]
    abel
  · dsimp only
    rw [count_ingestEdits hs e]
    simp only [pendingCount, IngestGhost.enter, hg]
    abel

/-! ## Runs -/

/-- The row that a write sets. -/
def setRow : KvWrite → Option Row
  | .set k v => (Key.tryFrom k).map (·, v)
  | .delete _ => none

/-- The row that a change takes out of the forest. -/
def removedRow : MerkleEdit → Option Row
  | .insert _ => none
  | .remove r => some r

/-- The rows that the next operation commits. -/
def committing {α : Type} : StoreProg α → List Row
  | .call (.kvCommit _ ws) _ => ws.filterMap setRow
  | _ => []

/-- The rows that the next operation takes out of the forest. -/
def removing {α : Type} : StoreProg α → List Row
  | .call (.foldMerkle edits) _ => edits.filterMap removedRow
  | _ => []

/-- The next operation of a call is undisturbed: a commit of a row finds the payload that the call
read, and a fold that takes a row out finds a tree with rows to take from. -/
def Undisturbed {α : Type} (s : SpatioTemporalStore L) (t : Thread storeSig α) : Prop :=
  (∀ r ∈ committing t.prog, s.table r.1 = lastRead t.past) ∧
    ∀ r ∈ removing t.prog, s.merkle.count r.1.epoch ≠ 0

instance {α : Type} (s : SpatioTemporalStore L) (t : Thread storeSig α) :
    Decidable (Undisturbed s t) :=
  inferInstanceAs (Decidable ((∀ r ∈ committing t.prog, _) ∧ ∀ r ∈ removing t.prog, _))

variable {pol : KvPolicy}

/-- **The invariant is kept by every undisturbed operation that the protocol allows.** -/
theorem RaceInv.step {o : StoreOp} {r : o.Resp} {past : List (Σ o : StoreOp, o.Resp)}
    {α : Type} {k : o.Resp → StoreProg α} (h : RaceInv m₀ calls s (g :: l))
    (hpast : ∀ existing, g.phase.existing = some existing → lastRead past = existing)
    (hC : Undisturbed s ⟨past, .call o k⟩) (ha : g.allow o) (ho : storeSem L pol o s r s') :
    RaceInv m₀ calls s' (g.next o r :: l) := by
  cases o with
  | markUnlessSealed e =>
    rcases sem_markUnlessSealed.1 ho with ⟨-, rfl, rfl⟩ | ⟨-, rfl, rfl⟩
    · exact h
    · exact h.congr rfl rfl
  | removeSealedAndMark e =>
    obtain rfl := sem_removeSealedAndMark.1 ho
    exact h.congr rfl rfl
  | endMarks es =>
    obtain rfl := sem_endMarks.1 ho
    exact h.congr rfl rfl
  | trySeal e =>
    rcases sem_trySeal.1 ho with ⟨-, rfl, rfl⟩ | ⟨-, rfl, rfl⟩
    · exact h
    · exact h.congr rfl rfl
  | removeSealed e =>
    obtain rfl := sem_removeSealed.1 ho
    exact h.congr rfl rfl
  | lockSealIo =>
    obtain ⟨-, rfl⟩ := sem_lockSealIo.1 ho
    exact h.congr rfl rfl
  | unlockSealIo =>
    obtain rfl := sem_unlockSealIo.1 ho
    exact h.congr rfl rfl
  | kvBegin =>
    obtain ⟨-, rfl⟩ := sem_kvBegin.1 ho
    exact h
  | kvStage w =>
    obtain ⟨-, rfl⟩ := sem_kvStage.1 ho
    exact h
  | kvGet key =>
    obtain ⟨hg, rfl⟩ := ha
    obtain ⟨rfl | ⟨-, err, rfl⟩, rfl⟩ := sem_kvGet.1 ho
    · exact h.kvGet hg
    · exact h
  | kvCommit n ws =>
    rcases sem_kvCommit.1 ho with ⟨-, rfl, rfl⟩ | ⟨-, ⟨err, rfl⟩, rfl⟩
    · rcases ha with ⟨existing, hg, rfl⟩ | ⟨e, rfl⟩
      · have hs : s.table g.key = existing :=
          (hC.1 (g.key, g.payload) (by simp [committing, KvTree.setRows, setRow])).trans
            (hpast existing (by rw [hg]; rfl))
        rw [IngestGhost.next, if_pos rfl, hg]
        exact h.commit hg hs
      · rw [next_delete]
        exact h.congr (KvTree.table_deleteRecord s.tree e) rfl
    · exact h
  | foldMerkle edits =>
    obtain rfl := sem_foldMerkle.1 ho
    obtain ⟨existing, hg, rfl⟩ := ha
    refine h.fold hg fun c hc => hC.2 (g.key, c) ?_
    subst hc
    simp [removing, ingestEdits, removedRow]
  | merkleEpochs =>
    obtain ⟨-, rfl⟩ := sem_merkleEpochs.1 ho
    exact h
  | serializeEpoch e =>
    obtain ⟨-, rfl⟩ := sem_serializeEpoch.1 ho
    exact h
  | publish x =>
    obtain rfl := sem_publish.1 ho
    unfold SpatioTemporalStore.publish
    split_ifs
    · exact h
    · exact h.congr rfl rfl

/-- The payload is the initial one of the key, or delivered for it by a call. -/
def Delivered (s₀ : SpatioTemporalStore L) (calls : List Row) (k : Key) (v : Bytes) : Prop :=
  s₀.table k = some v ∨ (k, v) ∈ calls

/-- What is stored under a key is the greatest of its initial payload and those delivered to it,
and the forest is the fold of the rows. -/
structure Settled (s₀ : SpatioTemporalStore L) (calls : List Row) (s : SpatioTemporalStore L) :
    Prop where
  only : ∀ k v, s.table k = some v → Delivered s₀ calls k v
  greatest : ∀ k v, Delivered s₀ calls k v → Dominates itemDigest s.table k v
  fold : FoldOf s.merkle s.rows

/-- The pool of the calls, none of which has started. -/
def ingestPool (s₀ : SpatioTemporalStore L) (calls : List Row) :
    Pool storeSig (SpatioTemporalStore L) (Except String Bool) :=
  ⟨s₀, calls.map fun r => .new (ingest r.1 r.2)⟩

/-- All calls have completed successfully. -/
def Completed (c : Pool storeSig (SpatioTemporalStore L) (Except String Bool)) : Prop :=
  ∀ t ∈ c.threads, ∃ b, t.prog = .ret (.ok b)

instance (p : StoreProg (Except String Bool)) : Decidable (∃ b, p = .ret (.ok b)) :=
  match p with
  | .ret (.ok b) => .isTrue ⟨b, rfl⟩
  | .ret (.error _) => .isFalse fun ⟨_, h⟩ => nomatch h
  | .call _ _ => .isFalse fun ⟨_, h⟩ => nomatch h

instance (c : Pool storeSig (SpatioTemporalStore L) (Except String Bool)) :
    Decidable (Completed c) :=
  inferInstanceAs (Decidable (∀ t ∈ c.threads, _))

theorem raceInv_start {s₀ : SpatioTemporalStore L} (h : FoldOf s₀.merkle s₀.rows)
    (calls : List Row) :
    RaceInv s₀.table calls s₀ (calls.map fun r => ⟨r.1, r.2, .fresh⟩) := by
  have hfresh : ∀ g ∈ calls.map fun r => (⟨r.1, r.2, .fresh⟩ : IngestGhost), g.phase = .fresh := by
    intro g hg
    obtain ⟨r, -, rfl⟩ := List.mem_map.1 hg
    rfl
  refine ⟨.refl _, fun _ _ hv => .inl hv, ?_, fun g hg hl => ?_, fun g hg existing he => ?_,
    fun e d p hd hp => ?_, fun e => ?_⟩
  · rw [List.map_map]
    exact (List.map_id' calls).symm ▸ .refl _
  · rcases hl with hl | ⟨_, hl⟩ <;> cases (hfresh g hg).symm.trans hl
  · cases (hfresh g hg).symm.trans he
  · rw [h.hashes e d p hd hp, List.sum_eq_zero, add_zero]
    intro x hx
    obtain ⟨g, hg, rfl⟩ := List.mem_map.1 hx
    simp only [pendingHash, hfresh g hg]
  · rw [h.counts e, List.sum_eq_zero, add_zero]
    intro x hx
    obtain ⟨g, hg, rfl⟩ := List.mem_map.1 hx
    simp only [pendingCount, hfresh g hg]

/-- When all calls are done, the state is settled. -/
theorem RaceInv.settled {s₀ : SpatioTemporalStore L} {gs : List IngestGhost}
    (h : RaceInv s₀.table calls s gs) (hdone : ∀ g ∈ gs, g.phase = .done) : Settled s₀ calls s where
  only := h.only
  greatest := by
    intro k v hv
    rcases hv with hv | hv
    · exact h.below k v hv
    · obtain ⟨g, hg, hkv⟩ := List.mem_map.1 (h.given.mem_iff.2 hv)
      obtain ⟨rfl, rfl⟩ := Prod.mk.inj hkv
      exact h.landed g hg (.inl (hdone g hg))
  fold := by
    constructor
    · intro e d p hd hp
      rw [← h.hashes e d p hd hp, List.sum_eq_zero, add_zero]
      intro x hx
      obtain ⟨g, hg, rfl⟩ := List.mem_map.1 hx
      simp only [pendingHash, hdone g hg]
    · intro e
      rw [← h.counts e, List.sum_eq_zero, add_zero]
      intro x hx
      obtain ⟨g, hg, rfl⟩ := List.mem_map.1 hx
      simp only [pendingCount, hdone g hg]

/-- The ghost values of the calls of a pool keep the invariant. -/
abbrev RaceTracked (m₀ : Key → Option Bytes) (calls : List Row)
    (c : Pool storeSig (SpatioTemporalStore L) (Except String Bool)) : Prop :=
  Tracked (P := ingestProtocol) Done (fun g => ∃ k v, g = ⟨k, v, .fresh⟩) (RaceInv m₀ calls) c

theorem raceTracked_step {c c' : Pool storeSig (SpatioTemporalStore L) (Except String Bool)}
    (h : Pool.Step (storeSem L pol) (fun _ => False) Undisturbed c c')
    (hc : RaceTracked m₀ calls c) : RaceTracked m₀ calls c' := by
  refine Tracked.step (fun hJ hpast hC ha ho => ?_) (fun p hp => hp.elim) h hc
  obtain ⟨_, ⟨k, v, rfl⟩, rfl⟩ := hpast
  exact ((hJ.perm List.perm_middle).step (fun _ => eq_lastRead _) hC ha ho).perm
    List.perm_middle.symm

theorem raceTracked_of_runs {s₀ : SpatioTemporalStore L} (hfold : FoldOf s₀.merkle s₀.rows)
    {c : Pool storeSig (SpatioTemporalStore L) (Except String Bool)}
    (hruns : Pool.Runs (storeSem L pol) (fun _ => False) Undisturbed (ingestPool s₀ calls) c) :
    RaceTracked s₀.table calls c := by
  induction hruns with
  | refl =>
    have htracked : RaceTracked s₀.table calls ⟨s₀, (calls.map fun r =>
        ((⟨r.1, r.2, .fresh⟩ : IngestGhost), ingest r.1 r.2)).map fun x => .new x.2⟩ := by
      apply tracked_new
      · intro x hx
        obtain ⟨r, -, rfl⟩ := List.mem_map.1 hx
        exact ⟨⟨r.1, r.2, rfl⟩, follows_ingest r.1 r.2⟩
      · rw [List.map_map]
        exact raceInv_start hfold calls
    rwa [List.map_map] at htracked
  | tail _ hstep ih => exact raceTracked_step hstep ih

/-- **Undisturbed calls settle.** From a consistent store on, when every step of concurrent calls
of `ingest` is undisturbed and all have completed, every key has the greatest payload, and the
forest is the fold of the rows. -/
theorem settled_of_undisturbed {s₀ : SpatioTemporalStore L} (hfold : FoldOf s₀.merkle s₀.rows)
    (calls : List Row) {c : Pool storeSig (SpatioTemporalStore L) (Except String Bool)}
    (hruns : Pool.Runs (storeSem L pol) (fun _ => False) Undisturbed (ingestPool s₀ calls) c)
    (hdone : Completed c) : Settled s₀ calls c.state := by
  obtain ⟨l, hl, ht, hJ⟩ := raceTracked_of_runs hfold hruns
  refine hJ.settled fun g hg => ?_
  obtain ⟨x, hx, rfl⟩ := List.mem_map.1 hg
  obtain ⟨b, hb⟩ := hdone x.2 (hl ▸ List.mem_map_of_mem hx)
  have hf := (ht x hx).follows
  rw [hb] at hf
  exact hf b rfl

end Invariant

/-! ## A lost winner -/

section Sample

local instance ingestRaceSha : Sha256 := sampleDigests

variable {L : LeafDepth}

/-- The operations under optimistic transactions: a commit that conflicts cannot succeed. -/
def runIsolated (o : StoreOp) (s : SpatioTemporalStore L) :
    Option (o.Resp × SpatioTemporalStore L) :=
  match o with
  | .kvCommit n ws => if s.tree.Conflicts n ws then none else StoreOp.run (.kvCommit n ws) s
  | o => o.run s

theorem sem_isolated {o : StoreOp} {s s' : SpatioTemporalStore L} {r : o.Resp}
    (h : runIsolated o s = some (r, s')) : storeSem L .isolated o s r s' := by
  cases o with
  | kvCommit n ws =>
    simp only [runIsolated] at h
    split_ifs at h with hc
    exact .inl ⟨hc, h⟩
  | _ => exact .inl ⟨trivial, h⟩

/-- Two payloads delivered for one key. -/
def rivals : List Row := [(.ofFields 0 0 0, [0x61]), (.ofFields 0 0 0, [0x62])]

/-- One call after the other. -/
def rivalsInTurn :
    Option (Pool storeSig (SpatioTemporalStore merkleLeafDepth) (Except String Bool)) :=
  Pool.schedule runIsolated (fun s t => decide (Undisturbed s t))
    [1, 1, 1, 1, 1, 1, 1, 1, 0, 0, 0, 0, 0, 0, 0, 0] (ingestPool sampleStore rivals)

/-- The second call reads, the first one runs, and the second one writes. -/
def rivalsRacing :
    Option (Pool storeSig (SpatioTemporalStore merkleLeafDepth) (Except String Bool)) :=
  Pool.schedule runIsolated (fun _ _ => true) [1, 0, 0, 0, 0, 0, 0, 0, 0, 1, 1, 1, 1, 1, 1, 1]
    (ingestPool sampleStore rivals)

theorem foldOf_sampleStore : FoldOf sampleStore.merkle sampleStore.rows :=
  (trusted_empty (D := Set.univ) testIndexer trivial).fold

theorem settled_of_undisturbed_rivals :
    ∃ c, rivalsInTurn = some c ∧ Settled sampleStore rivals c.state := by
  have hany : rivalsInTurn.any fun c => decide (Completed c) := by decide +kernel
  obtain ⟨c, hc, hdone⟩ := (Option.any_eq_true _ _).1 hany
  have hruns : Pool.Runs (storeSem merkleLeafDepth .isolated) (fun _ => False) Undisturbed
      (ingestPool sampleStore rivals) c :=
    Pool.runs_of_schedule (fun _ _ _ _ => sem_isolated) (fun _ _ => of_decide_eq_true) hc
  exact ⟨c, hc, settled_of_undisturbed foldOf_sampleStore rivals hruns (of_decide_eq_true hdone)⟩

/-- **A race of two calls loses the winner.** -/
theorem not_settled :
    ¬ ∀ (s₀ : SpatioTemporalStore merkleLeafDepth) (calls : List Row)
      (c : Pool storeSig (SpatioTemporalStore merkleLeafDepth) (Except String Bool)),
      FoldOf s₀.merkle s₀.rows →
      (∀ k v w, Delivered s₀ calls k v → Delivered s₀ calls k w →
        itemDigest k v = itemDigest k w → v = w) →
      Pool.Runs (storeSem merkleLeafDepth .isolated) (fun _ => False) (fun _ _ => True)
        (ingestPool s₀ calls) c →
      Completed c → Settled s₀ calls c.state := by
  intro h
  have hany : rivalsRacing.any fun c =>
      decide (Completed c) && decide (c.state.table (.ofFields 0 0 0) = some [0x62]) := by
    decide +kernel
  obtain ⟨c, hc, hdone⟩ := (Option.any_eq_true _ _).1 hany
  obtain ⟨hdone, hstored⟩ := (Bool.and_eq_true ..).mp hdone
  have hruns : Pool.Runs (storeSem merkleLeafDepth .isolated) (fun _ => False) (fun _ _ => True)
      (ingestPool sampleStore rivals) c :=
    Pool.runs_of_schedule (fun _ _ _ _ => sem_isolated) (fun _ _ _ => trivial) hc
  have hempty : ∀ k v, Delivered sampleStore rivals k v → (k, v) ∈ rivals := by
    rintro k v (hv | hv)
    · have hrows : sampleStore.rows = ∅ := by decide +kernel
      have hmem : (k, v) ∈ sampleStore.rows := mem_rows.2 hv
      rw [hrows] at hmem
      exact absurd hmem (Finset.notMem_empty _)
    · exact hv
  have hinj : ∀ r ∈ rivals, ∀ r' ∈ rivals, rowDigest r = rowDigest r' → r.2 = r'.2 := by
    decide +kernel
  have hsettled := h sampleStore rivals c foldOf_sampleStore
    (fun k v w hv hw => hinj (k, v) (hempty k v hv) (k, w) (hempty k w hw)) hruns
    (of_decide_eq_true hdone)
  obtain ⟨v, hv, hle⟩ := hsettled.greatest (.ofFields 0 0 0) [0x61] (.inr (by decide +kernel))
  obtain rfl := Option.some.inj ((of_decide_eq_true hstored).symm.trans hv)
  exact absurd hle (by decide +kernel)

end Sample

end InterstellarDb.IngestRace
