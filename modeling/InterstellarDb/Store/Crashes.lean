import InterstellarDb.Store.Commits
import InterstellarDb.Store.IngestRace
import InterstellarDb.Store.SealSafety

/-!
# The forest through crashes

Calls of all methods run on a store, one operation at a time, and every operation of the key-value
tree may fail. The process may die between any two operations; then a store is opened on what the
disk holds, and other calls run on it (`CrashStep`).

As long as the commits find the rows that their calls have read, or fresh keys (`Orderly`):

* what is stored is the fold of the forest and of the changes that committed calls have still to
  fold (`FoldInv`), so an epoch that nobody writes to has the hashes of its rows;
* only such epochs have a seal record, so a record is that of the rows of its epoch, and whatever
  was under way when the process died, the forest that is opened is the fold of the rows on disk
  (`lockstep_of_crashes`).
-/

namespace InterstellarDb

open Atomic GreatestWins IngestRace

/-! ## What a call has still to fold -/

/-- A call: its rows, the payload that it read last, and whether its rows are committed and not
folded into the forest yet. -/
structure FoldGhost where
  rows : List Row
  existing : Option Bytes
  pending : Bool

namespace FoldGhost

/-- The call that begins. -/
def opened (rows : List Row) : FoldGhost := ⟨rows, none, false⟩

/-- The changes of the forest that a call makes. -/
def edits (g : FoldGhost) : List MerkleEdit :=
  match g.rows with
  | [(k, v)] => ingestEdits k v g.existing
  | rows => rows.map .insert

/-- The operations that a call may perform. -/
def allow (g : FoldGhost) : StoreOp → Prop
  | .kvGet _ => g.pending = false ∧ ∃ r, g.rows = [r]
  | .kvCommit _ ws => ws = KvTree.setRows g.rows ∧ g.pending = false ∨ IsRecordWrite ws
  | .foldMerkle edits => g.pending = true ∧ edits = g.edits
  | .endMarks _ => g.pending = false
  | _ => True

/-- The call after an answer. -/
def next (g : FoldGhost) : (o : StoreOp) → o.Resp → FoldGhost
  | .kvGet _, .ok existing => { g with existing }
  | .kvCommit _ ws, .ok _ => if ws = KvTree.setRows g.rows then { g with pending := true } else g
  | .foldMerkle _, _ => { g with pending := false }
  | _, _ => g

/-- Without a payload that was read, the changes insert the rows. -/
theorem edits_of_none {g : FoldGhost} (h : g.existing = none) : g.edits = g.rows.map .insert := by
  unfold edits
  rw [h]
  split
  · rename_i hrows
    rw [hrows]
    rfl
  · rfl

end FoldGhost

/-- The protocol of the folds: rows are folded once they are committed, and before the marks on
their epochs are given back. -/
abbrev foldProtocol : Protocol storeSig := ⟨FoldGhost, FoldGhost.allow, FoldGhost.next⟩

section Follows

variable {g : FoldGhost}

/-- An operation that does not concern rows leaves a call that has nothing to fold. -/
theorem StoreOp.Aside.neutral_fold {o : StoreOp} (h : o.Aside) (hg : g.pending = false) :
    foldProtocol.Neutral g o := by
  cases o with
  | kvCommit n ws =>
    refine ⟨.inr h, fun r => ?_⟩
    cases r with
    | error err => rfl
    | ok _ => exact if_neg (IsRecordWrite.ne_setRows h g.rows)
  | kvGet k => exact h.elim
  | foldMerkle edits => exact h.elim
  | publish x => exact h.elim
  | endMarks es => exact ⟨hg, fun _ => rfl⟩
  | _ => exact ⟨trivial, fun _ => rfl⟩

/-- A write folds its rows before it gives its marks back. -/
theorem follows_writeRows_fold (es : List Epoch) (hg : g.pending = false) :
    Follows foldProtocol (fun _ g' => g'.pending = false) g (writeRows es g.edits g.rows) := by
  have haside : ∀ o : StoreOp, o.Aside → foldProtocol.Neutral g o := fun _ ho => ho.neutral_fold hg
  have hcommit : Follows foldProtocol (fun _ g' => g'.pending = false) g
      (commitAndFold g.edits g.rows) := by
    have hwrites : Follows foldProtocol (fun r g' => r = .ok () ∧ g' = { g with pending := true } ∨
        (∃ err, r = .error err) ∧ g' = g) g (commitWrites (KvTree.setRows g.rows)) := by
      refine follows_commitWrites (haside _ trivial) (fun _ => haside _ trivial)
        (fun err => .inr ⟨⟨err, rfl⟩, rfl⟩) fun n => ⟨.inl ⟨rfl, hg⟩, fun r => ?_⟩
      cases r with
      | error err => exact .inr ⟨⟨err, rfl⟩, rfl⟩
      | ok _ => exact .inl ⟨rfl, if_pos rfl⟩
    refine hwrites.bind fun r g' hg' => ?_
    rcases hg' with ⟨rfl, rfl⟩ | ⟨⟨err, rfl⟩, rfl⟩
    · refine ⟨⟨rfl, rfl⟩, fun _ => ?_⟩
      refine (follows_publishAll fun _ _ => ⟨trivial, fun _ => rfl⟩).bind fun _ g' hg' => ?_
      obtain rfl := hg'
      rfl
    · exact hg
  refine (aside_beginWriteEpochsFrom haside [] es).bind fun r g' hg' => ?_
  obtain rfl : g' = g := hg'
  cases r with
  | error err => exact hg
  | ok _ => exact hcommit.bind fun _ g' hg' => ⟨hg', fun _ => hg'⟩

/-- **Every method folds what it has committed** before it gives its marks back. -/
theorem follows_fold [Sha256] (ix : HybridSpatioTemporalIndexer) (c : StoreCall) :
    Follows foldProtocol (fun _ g => g.pending = false) (.opened (c.rows ix)) (c.prog ix) := by
  have hedits : ∀ rows, (FoldGhost.opened rows).edits = rows.map .insert := fun rows =>
    FoldGhost.edits_of_none rfl
  cases c with
  | store x =>
    have hstore : Follows foldProtocol (fun _ g => g.pending = false) (.opened [x.row ix])
        (store ix x) :=
      (follows_writeRows_fold (g := .opened [x.row ix]) [keyEpoch (x.row ix).1] rfl).bind
        fun _ _ hg => hg
    exact hstore.bind fun _ _ hg => hg
  | storeBatch xs =>
    have hwrite := follows_writeRows_fold (g := .opened (xs.map (BatchRecord.row ix)))
      (distinctEpochs ((xs.map (BatchRecord.row ix)).map Prod.fst)) rfl
    rw [hedits] at hwrite
    have hstore : Follows foldProtocol (fun _ g => g.pending = false)
        (.opened (xs.map (BatchRecord.row ix))) (storeBatch ix xs) := hwrite.bind fun _ _ hg => hg
    exact hstore.bind fun _ _ hg => hg
  | ingest k v =>
    refine ⟨⟨rfl, (k, v), rfl⟩, fun r => ?_⟩
    cases r with
    | error err => rfl
    | ok existing =>
      show Follows _ _ _ (if keepsExisting k v existing then _ else _)
      split_ifs
      · rfl
      · exact (follows_writeRows_fold (g := ⟨[(k, v)], existing, false⟩) [keyEpoch k] rfl).bind
          fun _ _ hg => hg
  | sealSettledEpochs now grace =>
    have haside : ∀ o : StoreOp, o.Aside → foldProtocol.Neutral (FoldGhost.opened []) o :=
      fun _ ho => ho.neutral_fold rfl
    have hseal : Follows foldProtocol (fun _ g => g.pending = false) (.opened [])
        (sealSettledEpochs ix now grace) := by
      refine (haside .merkleEpochs trivial).call fun _ => ?_
      refine (aside_sealCandidates haside [] _).mono fun _ g hg => ?_
      rw [hg]
      rfl
    exact hseal.bind fun _ _ hg => hg

end Follows

/-! ## Committed and folded rows -/

section Sums

/-- What writing rows under keys of the same payload adds to a sum over the rows. -/
theorem sum_of_writeAll {A : Type*} [AddCommMonoid A] {F : Finset Row → A}
    {δ : Row → Option Bytes → A}
    (hF : ∀ m s t r, Rows m s → Rows (Function.update m r.1 (some r.2)) t → F t = F s + δ r (m r.1))
    {m : Key → Option Bytes} {s t : Finset Row} {l : List Row} {existing : Option Bytes}
    (hs : Rows m s) (hl : (l.map Prod.fst).Nodup) (hm : ∀ r ∈ l, m r.1 = existing)
    (ht : Rows (KvTree.writeAll m l) t) : F t = F s + (l.map fun r => δ r existing).sum := by
  induction l generalizing m s with
  | nil =>
    obtain rfl := hs.unique ht
    simp
  | cons r l ih =>
    obtain ⟨hr, hl⟩ := List.nodup_cons.1 hl
    have hrest : ∀ x ∈ l, Function.update m r.1 (some r.2) x.1 = existing := by
      intro x hx
      have hne : x.1 ≠ r.1 := fun h => hr (h ▸ List.mem_map_of_mem hx)
      rw [Function.update_of_ne hne]
      exact hm x (List.mem_cons_of_mem _ hx)
    have hone := hF m s _ r hs (hs.update r.1 r.2)
    rw [hm r (List.mem_cons_self ..)] at hone
    rw [ih (hs.update r.1 r.2) hl hrest ht, hone, List.map_cons, List.sum_cons, add_assoc]

variable [Sha256] {L : LeafDepth}

/-- What inserting rows adds to a sum over the forest. -/
theorem sum_of_insertRows {A : Type*} [AddCommMonoid A] {F : MerkleForest L → A} {δ : Row → A}
    (hF : ∀ f r, F (f.insert r.1 r.2) = F f + δ r) (f : MerkleForest L) (l : List Row) :
    F (f.editAll (l.map .insert)) = F f + (l.map δ).sum := by
  induction l generalizing f with
  | nil => simp [MerkleForest.editAll]
  | cons r l ih =>
    show F ((f.insert r.1 r.2).editAll (l.map .insert)) = _
    rw [ih, hF, List.map_cons, List.sum_cons, add_assoc]

namespace FoldGhost

/-- What the changes of a call add to a cell. -/
def hashChange (e : Epoch) (d p : ℕ) (g : FoldGhost) : NodeHash :=
  (g.rows.map fun r => deltaHash e d p r.1 r.2 g.existing).sum

omit [Sha256] in
/-- What they add to the count of an epoch. -/
def countChange (e : Epoch) (g : FoldGhost) : BitVec 64 :=
  (g.rows.map fun r => deltaCount e r.1 g.existing).sum

/-- A call that has read a payload is about one row. -/
def Single (g : FoldGhost) : Prop := g.existing ≠ none → ∃ r, g.rows = [r]

variable {g : FoldGhost} {f : MerkleForest L}

/-- **What folding the changes of a call does**, when the rows to take out have a tree with rows. -/
theorem fold_edits (hg : g.Single)
    (hf : ∀ r ∈ g.edits.filterMap removedRow, f.count r.1.epoch ≠ 0) :
    (∀ e d p, L.Valid d → IsPrefix d p →
      (f.editAll g.edits).nodeHash e d p = f.nodeHash e d p + g.hashChange e d p) ∧
    ∀ e, (f.editAll g.edits).count e = f.count e + g.countChange e := by
  unfold hashChange countChange
  cases hex : g.existing with
  | none =>
    rw [edits_of_none hex]
    refine ⟨fun e d p hd hp => ?_, fun e => ?_⟩
    · refine sum_of_insertRows (F := fun f => f.nodeHash e d p)
        (δ := fun r => deltaHash e d p r.1 r.2 none) (fun f r => ?_) f g.rows
      refine (f.nodeHash_insert r.1 r.2 e hd hp).trans ?_
      simp [deltaHash]
    · refine sum_of_insertRows (F := fun f => f.count e) (δ := fun r => deltaCount e r.1 none)
        (fun f r => ?_) f g.rows
      refine (f.count_insert r.1 r.2 e).trans ?_
      simp [deltaCount]
  | some c =>
    obtain ⟨⟨k, v⟩, hrows⟩ := hg (by simp [hex])
    have hedits : g.edits = ingestEdits k v (some c) := by
      unfold edits
      rw [hrows, hex]
    have hk : f.count k.epoch ≠ 0 := hf (k, c) (by simp [hedits, ingestEdits, removedRow])
    rw [hedits, hrows]
    refine ⟨fun e d p hd hp => ?_, fun e => ?_⟩
    · rw [nodeHash_ingestEdits (fun _ _ => MerkleForest.exists_tree_of_count_ne_zero hk) e hd hp]
      simp
    · rw [count_ingestEdits (fun _ _ => hk) e]
      simp

end FoldGhost

end Sums

/-! ## The invariant -/

/-- The next operation of a call is orderly: a commit writes each of its keys once, and finds under
them what the call has read, or nothing; and a fold that takes a row out finds a tree with rows. -/
def Orderly [Sha256] {L : LeafDepth} {α : Type} (s : SpatioTemporalStore L)
    (t : Thread storeSig α) : Prop :=
  Undisturbed s t ∧ ((committing t.prog).map Prod.fst).Nodup

instance [Sha256] {L : LeafDepth} {α : Type} (s : SpatioTemporalStore L) (t : Thread storeSig α) :
    Decidable (Orderly s t) :=
  inferInstanceAs (Decidable (_ ∧ _))

/-- What a call has read is its last read. -/
theorem existing_replay (rows : List Row) (past : List (Σ o : StoreOp, o.Resp)) :
    (foldProtocol.replay (FoldGhost.opened rows) past).existing = lastRead past := by
  induction past with
  | nil => rfl
  | cons x past ih =>
    obtain ⟨o, r⟩ := x
    show ((foldProtocol.replay (FoldGhost.opened rows) past).next o r).existing = _
    generalize foldProtocol.replay (FoldGhost.opened rows) past = g at ih ⊢
    cases o with
    | kvGet k =>
      cases r with
      | error err => exact ih
      | ok existing => rfl
    | kvCommit n ws =>
      cases r with
      | error err => exact ih
      | ok _ =>
        show (if ws = KvTree.setRows g.rows then _ else g).existing = _
        by_cases hws : ws = KvTree.setRows g.rows
        · rw [if_pos hws]
          exact ih
        · rw [if_neg hws]
          exact ih
    | _ => exact ih

/-- The rows that a transaction sets. -/
theorem filterMap_setRow (rows : List Row) : (KvTree.setRows rows).filterMap setRow = rows := by
  have hset : ∀ r : Row, setRow (.set r.1.bytes r.2) = some r := by
    intro r
    rw [setRow, (Key.tryFrom_eq_some (k := r.1)).2 rfl]
    rfl
  rw [KvTree.setRows, List.filterMap_map]
  exact (List.filterMap_congr fun r _ => hset r).trans List.filterMap_some

theorem setRows_injective : Function.Injective KvTree.setRows := by
  refine List.map_injective_iff.2 fun r r' h => ?_
  obtain ⟨hk, hv⟩ := KvWrite.set.inj h
  exact Prod.ext (Key.ext hk) hv

/-- Rows are committed in marked epochs only. -/
theorem SealGhost.MayCommit.marks_pos {g : SealGhost} {rows : List Row}
    (h : g.MayCommit (KvTree.setRows rows)) : ∀ r ∈ rows, 0 < g.marks r.1.epoch := by
  generalize hws : KvTree.setRows rows = ws at h
  cases h with
  | rows l hio hl =>
    obtain rfl := setRows_injective hws
    exact hl
  | delete e hio => exact absurd hws.symm (IsRecordWrite.ne_setRows ⟨e, .inl rfl⟩ rows)
  | record e b hio => exact absurd hws.symm (IsRecordWrite.ne_setRows ⟨e, .inr ⟨b, rfl⟩⟩ rows)

/-- The operation neither commits nor folds rows, and gives no marks back. -/
def StoreOp.KeepsRows : StoreOp → Prop
  | .kvCommit _ _ => False
  | .foldMerkle _ => False
  | .endMarks _ => False
  | _ => True

theorem StoreOp.KeepsRows.ne {o : StoreOp} (h : o.KeepsRows) :
    (∀ n ws, o ≠ .kvCommit n ws) ∧ (∀ edits, o ≠ .foldMerkle edits) ∧ ∀ es, o ≠ .endMarks es := by
  refine ⟨?_, ?_, ?_⟩
  · rintro n ws rfl
    exact h
  · rintro edits rfl
    exact h
  · rintro es rfl
    exact h

/-- Only the end of a write gives marks back. -/
theorem SealGhost.marks_le_next (g : SealGhost) {o : StoreOp} (r : o.Resp)
    (ho : ∀ es, o ≠ .endMarks es) (e : Epoch) : g.marks e ≤ (g.next o r).marks e := by
  cases o with
  | endMarks es => exact absurd rfl (ho es)
  | markUnlessSealed e' => cases r <;> simp [SealGhost.next, SealGhost.mark]
  | removeSealedAndMark e' => simp [SealGhost.next, SealGhost.mark, SealGhost.withIo]
  | trySeal e' => cases r <;> simp [SealGhost.next, SealGhost.withIo]
  | kvCommit n ws => cases r <;> simp [SealGhost.next, SealGhost.withIo]
  | _ => simp [SealGhost.next, SealGhost.withIo]

/-- A commit leaves the marks. -/
theorem SealGhost.marks_le_commit (g : SealGhost) (n : ℕ) (ws : List KvWrite) (e : Epoch) :
    g.marks e ≤ (g.next (.kvCommit n ws) (.ok ())).marks e :=
  g.marks_le_next _ (fun _ h => by cases h) e

section Invariant

variable [Sha256] {L : LeafDepth}

namespace FoldGhost

/-- What a call has committed and not folded yet, in a cell. -/
def owedHash (e : Epoch) (d p : ℕ) (g : FoldGhost) : NodeHash :=
  if g.pending then g.hashChange e d p else 0

omit [Sha256] in
/-- What it has committed and not folded yet, in the count of an epoch. -/
def owedCount (e : Epoch) (g : FoldGhost) : BitVec 64 := if g.pending then g.countChange e else 0

end FoldGhost

/-- **The invariant of the folds**: the forest and what the calls have still to fold make up what is
stored, and a call that has still to fold holds marks on the epochs of its rows. -/
structure FoldInv (s : SpatioTemporalStore L) (gs : List (SealGhost × FoldGhost)) : Prop where
  hashes : ∀ e d p, L.Valid d → IsPrefix d p →
    s.merkle.nodeHash e d p + (gs.map fun g => g.2.owedHash e d p).sum = cellHash s.rows e d p
  counts : ∀ e, s.merkle.count e + (gs.map fun g => g.2.owedCount e).sum =
    (epochCount s.rows e : BitVec 64)
  marked : ∀ g ∈ gs, g.2.pending = true → ∀ r ∈ g.2.rows, 0 < g.1.marks r.1.epoch
  single : ∀ g ∈ gs, g.2.Single

variable {s s' : SpatioTemporalStore L} {g g' : SealGhost × FoldGhost}
  {l : List (SealGhost × FoldGhost)}

theorem FoldInv.perm {gs : List (SealGhost × FoldGhost)} (h : FoldInv s gs) (hp : gs.Perm l) :
    FoldInv s l where
  hashes := by
    intro e d p hd hp'
    rw [← (hp.map fun g => g.2.owedHash e d p).sum_eq]
    exact h.hashes e d p hd hp'
  counts := by
    intro e
    rw [← (hp.map fun g => g.2.owedCount e).sum_eq]
    exact h.counts e
  marked := fun g hg => h.marked g (hp.mem_iff.2 hg)
  single := fun g hg => h.single g (hp.mem_iff.2 hg)

/-- A step of the first call keeps the invariant when forest, debts and rows change together. -/
theorem FoldInv.update (h : FoldInv s (g :: l))
    (hhash : ∀ e d p, L.Valid d → IsPrefix d p →
      s'.merkle.nodeHash e d p + g'.2.owedHash e d p + cellHash s.rows e d p =
        s.merkle.nodeHash e d p + g.2.owedHash e d p + cellHash s'.rows e d p)
    (hcount : ∀ e, s'.merkle.count e + g'.2.owedCount e + (epochCount s.rows e : BitVec 64) =
      s.merkle.count e + g.2.owedCount e + (epochCount s'.rows e : BitVec 64))
    (hmarked : g'.2.pending = true → ∀ r ∈ g'.2.rows, 0 < g'.1.marks r.1.epoch)
    (hsingle : g'.2.Single) : FoldInv s' (g' :: l) where
  hashes := by
    intro e d p hd hp
    have := h.hashes e d p hd hp
    rw [List.map_cons, List.sum_cons] at this ⊢
    exact add_eq_of_delta this (hhash e d p hd hp)
  counts := by
    intro e
    have := h.counts e
    rw [List.map_cons, List.sum_cons] at this ⊢
    exact add_eq_of_delta this (hcount e)
  marked := by
    intro x hx
    rcases List.mem_cons.1 hx with rfl | hx
    · exact hmarked
    · exact h.marked x (List.mem_cons_of_mem _ hx)
  single := by
    intro x hx
    rcases List.mem_cons.1 hx with rfl | hx
    · exact hsingle
    · exact h.single x (List.mem_cons_of_mem _ hx)

/-- An operation that touches neither the rows nor the forest nor the debts. -/
theorem FoldInv.aside (h : FoldInv s (g :: l)) (ht : s'.table = s.table)
    (hm : s'.merkle = s.merkle) (hg : g'.2 = g.2)
    (hmarks : g.2.pending = true → ∀ e, g.1.marks e ≤ g'.1.marks e) : FoldInv s' (g' :: l) := by
  have hrows : s'.rows = s.rows := KvTree.rows_congr ht
  refine h.update (fun e d p _ _ => by rw [hm, hg, hrows]) (fun e => by rw [hm, hg, hrows]) ?_ ?_
  · rw [hg]
    intro hp r hr
    exact (h.marked g (List.mem_cons_self ..) hp r hr).trans_le (hmarks hp _)
  · rw [hg]
    exact h.single g (List.mem_cons_self ..)

/-- **The commit of rows**: what they change is now to be folded. -/
theorem FoldInv.commit (h : FoldInv s (g :: l)) (hpending : g.2.pending = false)
    (hkeys : (g.2.rows.map Prod.fst).Nodup) (hfound : ∀ r ∈ g.2.rows, s.table r.1 = g.2.existing)
    (hmarks : ∀ r ∈ g.2.rows, 0 < g'.1.marks r.1.epoch) (hg : g'.2 = { g.2 with pending := true }) :
    FoldInv { s with tree := s.tree.commit (KvTree.setRows g.2.rows) } (g' :: l) := by
  have hrows := (s.tree.commit (KvTree.setRows g.2.rows)).rows_table
  rw [KvTree.table_setRows] at hrows
  have howed : ∀ e d p, g.2.owedHash e d p = 0 ∧ g.2.owedCount e = 0 := by
    simp [FoldGhost.owedHash, FoldGhost.owedCount, hpending]
  refine h.update (fun e d p _ _ => ?_) (fun e => ?_) ?_ ?_
  · have hcell : cellHash (s.tree.commit (KvTree.setRows g.2.rows)).rows e d p =
        cellHash s.rows e d p + g'.2.owedHash e d p := by
      rw [hg]
      exact sum_of_writeAll (F := fun rows => cellHash rows e d p)
        (δ := fun r existing => deltaHash e d p r.1 r.2 existing)
        (fun m s t r hs ht => cellHash_update hs ht e d p) s.tree.rows_table hkeys hfound hrows
    show s.merkle.nodeHash e d p + g'.2.owedHash e d p + cellHash s.rows e d p =
      s.merkle.nodeHash e d p + g.2.owedHash e d p + cellHash (KvTree.rows _) e d p
    rw [hcell, (howed e d p).1, add_zero, add_assoc, add_comm (g'.2.owedHash e d p)]
  · have hcount : (epochCount (s.tree.commit (KvTree.setRows g.2.rows)).rows e : BitVec 64) =
        (epochCount s.rows e : BitVec 64) + g'.2.owedCount e := by
      rw [hg]
      exact sum_of_writeAll (F := fun rows => (epochCount rows e : BitVec 64))
        (δ := fun r existing => deltaCount e r.1 existing)
        (fun m s t r hs ht => cast_epochCount_update hs ht e) s.tree.rows_table hkeys hfound hrows
    show s.merkle.count e + g'.2.owedCount e + (epochCount s.rows e : BitVec 64) =
      s.merkle.count e + g.2.owedCount e + (epochCount (KvTree.rows _) e : BitVec 64)
    rw [hcount, (howed e 0 0).2, add_zero, add_assoc, add_comm (g'.2.owedCount e)]
  · rw [hg]
    exact fun _ => hmarks
  · rw [hg]
    exact h.single g (List.mem_cons_self ..)

/-- **The fold of committed rows**: nothing is left to fold of them. -/
theorem FoldInv.fold (h : FoldInv s (g :: l)) (hpending : g.2.pending = true)
    (hremove : ∀ r ∈ g.2.edits.filterMap removedRow, s.merkle.count r.1.epoch ≠ 0)
    (hg : g'.2 = { g.2 with pending := false }) :
    FoldInv { s with merkle := s.merkle.editAll g.2.edits } (g' :: l) := by
  have hsingle := h.single g (List.mem_cons_self ..)
  obtain ⟨hhash, hcount⟩ := FoldGhost.fold_edits hsingle hremove
  have howed : ∀ e d p, g'.2.owedHash e d p = 0 ∧ g'.2.owedCount e = 0 := by
    simp [FoldGhost.owedHash, FoldGhost.owedCount, hg]
  refine h.update (fun e d p hd hp => ?_) (fun e => ?_) ?_ ?_
  · dsimp only
    rw [hhash e d p hd hp, (howed e d p).1, add_zero]
    simp only [FoldGhost.owedHash, hpending, if_true]
  · dsimp only
    rw [hcount e, (howed e 0 0).2, add_zero]
    simp only [FoldGhost.owedCount, hpending, if_true]
  · rw [hg]
    exact fun hfalse => nomatch hfalse
  · rw [hg]
    exact hsingle

/-- Only a fold changes the forest. -/
theorem merkle_step {pol : KvPolicy} {o : StoreOp} {r : o.Resp} (ho : storeSem L pol o s r s')
    (hfold : ∀ edits, o ≠ .foldMerkle edits) : s'.merkle = s.merkle := by
  rcases ho with ⟨-, hrun⟩ | ⟨-, -, rfl⟩
  · cases o <;> grind [StoreOp.run, SpatioTemporalStore.publish]
  · rfl

/-- **The invariant is kept by every orderly operation that the protocols allow.** -/
theorem FoldInv.step {pol : KvPolicy} {o : StoreOp} {r : o.Resp}
    {past : List (Σ o : StoreOp, o.Resp)} {α : Type} {k : o.Resp → StoreProg α}
    (h : FoldInv s (g :: l)) (hpast : g.2.existing = lastRead past)
    (hC : Orderly s ⟨past, .call o k⟩) (hseal : g.1.allow o) (hfold : g.2.allow o)
    (ho : storeSem L pol o s r s') : FoldInv s' ((g.1.next o r, g.2.next o r) :: l) := by
  have haside : o.KeepsRows → g.2.next o r = g.2 →
      FoldInv s' ((g.1.next o r, g.2.next o r) :: l) := by
    intro hkeeps hg
    obtain ⟨hcommit, hmerkle, hend⟩ := hkeeps.ne
    exact h.aside (congrArg KvTree.table (tree_step ho hcommit)) (merkle_step ho hmerkle) hg
      fun _ => g.1.marks_le_next r hend
  cases o with
  | endMarks es =>
    obtain rfl := sem_endMarks.1 ho
    refine h.aside rfl rfl rfl fun hpending => ?_
    -- a call that has still to fold gives no marks back
    exact absurd ((show g.2.pending = false from hfold).symm.trans hpending) Bool.false_ne_true
  | kvGet key =>
    obtain ⟨hnone, hone⟩ := hfold
    obtain ⟨hr, rfl⟩ := sem_kvGet.1 ho
    cases r with
    | error err => exact haside trivial rfl
    | ok existing =>
      refine h.update (fun e d p _ _ => ?_) (fun e => ?_) (fun hpending => ?_) fun _ => hone
      · simp only [FoldGhost.next, FoldGhost.owedHash, hnone, Bool.false_eq_true, if_false]
      · simp only [FoldGhost.next, FoldGhost.owedCount, hnone, Bool.false_eq_true, if_false]
      · exact absurd (hnone.symm.trans hpending) Bool.false_ne_true
  | kvCommit n ws =>
    rcases sem_kvCommit.1 ho with ⟨-, rfl, rfl⟩ | ⟨-, ⟨err, rfl⟩, rfl⟩
    · rcases hfold with ⟨rfl, hpending⟩ | hrecord
      · obtain ⟨⟨hfound, -⟩, hkeys⟩ := hC
        simp only [committing, filterMap_setRow] at hfound hkeys
        have hallow : g.1.MayCommit (KvTree.setRows g.2.rows) := hseal
        refine h.commit hpending hkeys (fun r hr => (hfound r hr).trans hpast.symm)
          (fun r hr => (hallow.marks_pos r hr).trans_le ?_) (if_pos rfl)
        exact g.1.marks_le_commit n _ _
      · have htable : (s.tree.commit ws).table = s.tree.table := by
          rw [table_commit s.tree (.inr hrecord), if_neg (hrecord.ne_setRows g.2.rows)]
        exact h.aside htable rfl (if_neg (hrecord.ne_setRows _)) fun _ => g.1.marks_le_commit n ws
    · exact h.aside rfl rfl rfl fun _ _ => le_rfl
  | foldMerkle edits =>
    obtain rfl := sem_foldMerkle.1 ho
    obtain ⟨hpending, rfl⟩ := hfold
    exact h.fold hpending hC.1.2 rfl
  | _ => exact haside trivial rfl

/-! ## Epochs without writers -/

/-- The tree of an epoch is that of its stored rows. -/
structure EpochKept (s : SpatioTemporalStore L) (e : Epoch) : Prop where
  hashes : ∀ d p, L.Valid d → IsPrefix d p → s.merkle.nodeHash e d p = cellHash s.rows e d p
  count : s.merkle.count e = (epochCount s.rows e : BitVec 64)

variable {gs : List (SealGhost × FoldGhost)} {e : Epoch}

/-- A call without a mark on an epoch has nothing to fold there. -/
theorem FoldInv.owed_eq_zero (h : FoldInv s gs) (hg : g ∈ gs) (he : g.1.marks e = 0) (d p : ℕ) :
    g.2.owedHash e d p = 0 ∧ g.2.owedCount e = 0 := by
  unfold FoldGhost.owedHash FoldGhost.owedCount
  cases hpending : g.2.pending with
  | false => exact ⟨rfl, rfl⟩
  | true =>
    have hne : ∀ r ∈ g.2.rows, r.1.epoch ≠ e := by
      intro r hr heq
      have hpos := h.marked g hg hpending r hr
      rw [heq, he] at hpos
      exact absurd hpos (lt_irrefl 0)
    refine ⟨List.sum_eq_zero fun x hx => ?_, List.sum_eq_zero fun x hx => ?_⟩
    · obtain ⟨r, hr, rfl⟩ := List.mem_map.1 hx
      exact if_neg fun hcell => hne r hr hcell.1
    · obtain ⟨r, hr, rfl⟩ := List.mem_map.1 hx
      exact if_neg fun hcell => hne r hr hcell.1

/-- **An epoch that nobody writes to has the tree of its rows**, whatever is under way elsewhere. -/
theorem FoldInv.epochKept (h : FoldInv s gs) (hseal : SealInv s (gs.map Prod.fst))
    (he : s.sealState.marks e = 0) : EpochKept s e := by
  have hmarks : ∀ g ∈ gs, g.1.marks e = 0 := by
    intro g hg
    have hsum := List.sum_eq_zero_iff.1 ((hseal.marks e).symm.trans he)
    exact hsum _ (List.mem_map_of_mem (List.mem_map_of_mem hg))
  constructor
  · intro d p hd hp
    rw [← h.hashes e d p hd hp, List.sum_eq_zero, add_zero]
    intro x hx
    obtain ⟨g, hg, rfl⟩ := List.mem_map.1 hx
    exact (h.owed_eq_zero hg (hmarks g hg) d p).1
  · rw [← h.counts e, List.sum_eq_zero, add_zero]
    intro x hx
    obtain ⟨g, hg, rfl⟩ := List.mem_map.1 hx
    exact (h.owed_eq_zero hg (hmarks g hg) 0 0).2

/-- What such an epoch serializes to is the record of its rows. -/
theorem EpochKept.isRecordOf (h : EpochKept s e) {b : Bytes}
    (hb : s.merkle.serializeEpoch e = some b) : IsRecordOf L b e s.rows := by
  obtain ⟨f, hf⟩ := exists_foldOf L s.rows
  refine ⟨f, hf, ?_⟩
  rw [← hb, MerkleForest.serializeEpoch_eq, MerkleForest.serializeEpoch_eq]
  refine serializeTree_congr (fun p hp => ?_) ?_
  · rw [← MerkleForest.nodeHash_eq, ← MerkleForest.nodeHash_eq, hf.hashes e _ p L.valid_bits hp,
      h.hashes _ p L.valid_bits hp]
  · exact (hf.counts e).trans h.count.symm

/-- **A record on disk is that of the rows of its epoch.** -/
theorem FoldInv.isRecordOf (h : FoldInv s gs) (hseal : SealInv s (gs.map Prod.fst)) {b : Bytes}
    (hb : s.tree.record e = some b) : IsRecordOf L b e s.rows := by
  have hback := hseal.record e b hb
  exact (h.epochKept hseal hback.marks).isRecordOf hback.bytes

/-- When no call has anything to fold, the forest is the fold of the rows. -/
theorem FoldInv.foldOf (h : FoldInv s gs) (hdone : ∀ g ∈ gs, g.2.pending = false) :
    FoldOf s.merkle s.rows := by
  constructor
  · intro e d p hd hp
    rw [← h.hashes e d p hd hp, List.sum_eq_zero, add_zero]
    intro x hx
    obtain ⟨g, hg, rfl⟩ := List.mem_map.1 hx
    simp [FoldGhost.owedHash, hdone g hg]
  · intro e
    rw [← h.counts e, List.sum_eq_zero, add_zero]
    intro x hx
    obtain ⟨g, hg, rfl⟩ := List.mem_map.1 hx
    simp [FoldGhost.owedCount, hdone g hg]

theorem foldInv_nil (h : FoldOf s.merkle s.rows) : FoldInv s [] where
  hashes := fun e d p hd hp => (add_zero _).trans (h.hashes e d p hd hp)
  counts := fun e => (add_zero _).trans (h.counts e)
  marked := fun _ hg => absurd hg List.not_mem_nil
  single := fun _ hg => absurd hg List.not_mem_nil

/-- A call that begins owes nothing. -/
theorem FoldInv.start (h : FoldInv s l) (rows : List Row) :
    FoldInv s ((SealGhost.start, .opened rows) :: l) where
  hashes := by
    intro e d p hd hp
    rw [List.map_cons, List.sum_cons]
    exact (congrArg _ (zero_add _)).trans (h.hashes e d p hd hp)
  counts := by
    intro e
    rw [List.map_cons, List.sum_cons]
    exact (congrArg _ (zero_add _)).trans (h.counts e)
  marked := by
    intro g hg
    rcases List.mem_cons.1 hg with rfl | hg
    · exact fun hfalse => nomatch hfalse
    · exact h.marked g hg
  single := by
    intro g hg
    rcases List.mem_cons.1 hg with rfl | hg
    · exact fun hne => absurd rfl hne
    · exact h.single g hg

/-! ## Runs with crashes -/

/-- The invariants of the seals and of the folds. -/
structure CrashInv (s : SpatioTemporalStore L) (gs : List (SealGhost × FoldGhost)) : Prop where
  seals : SealInv s (gs.map Prod.fst)
  folds : FoldInv s gs

variable {pol : KvPolicy} {c c' : StorePool L}

theorem CrashInv.perm (h : CrashInv s gs) (hp : gs.Perm l) : CrashInv s l :=
  ⟨h.seals.perm (hp.map _), h.folds.perm hp⟩

/-- What a disk holds is opened as the fold of its rows, whatever was under way. -/
theorem CrashInv.foldOf_openStore (h : CrashInv s gs) (ix : HybridSpatioTemporalIndexer) :
    FoldOf (openStore L ix s.tree).merkle s.rows :=
  InterstellarDb.foldOf_openStore fun _ _ hb _ => h.folds.isRecordOf h.seals hb

theorem CrashInv.openStore (hL : L.bits < 32) (h : CrashInv s gs)
    (ix : HybridSpatioTemporalIndexer) : CrashInv (InterstellarDb.openStore L ix s.tree) [] :=
  ⟨h.seals.openStore hL ix, foldInv_nil (h.foldOf_openStore ix)⟩

/-- A step of a store on which methods run: an orderly operation of one of them, or the start of
another one; or the process dies, and a store is opened on the disk. -/
inductive CrashStep (pol : KvPolicy) : StorePool L → StorePool L → Prop
  | op {c c' : StorePool L} (h : Pool.Step (storeSem L pol) IsMethod Orderly c c') :
    CrashStep pol c c'
  | crash {c : StorePool L} (ix : HybridSpatioTemporalIndexer) :
    CrashStep pol c ⟨openStore L ix c.state.tree, []⟩

/-- The threads keep to both protocols, and both invariants hold. -/
abbrev CrashTracked (c : StorePool L) : Prop :=
  Tracked (P := sealProtocol.both foldProtocol)
    (fun _ g => g.1 = SealGhost.start ∧ g.2.pending = false)
    (fun g => ∃ rows, g = (SealGhost.start, FoldGhost.opened rows)) CrashInv c

theorem crashTracked_step (hL : L.bits < 32) (h : CrashStep pol c c') (hc : CrashTracked c) :
    CrashTracked c' := by
  cases h with
  | crash ix =>
    obtain ⟨l, -, -, hinv⟩ := hc
    exact tracked_nil (hinv.openStore hL ix)
  | op hstep =>
    refine Tracked.step ?_ ?_ hstep hc
    · rintro s l₁ g l₂ past o k r s' hinv ⟨_, ⟨rows, rfl⟩, hg⟩ hC ha ho
      have hpair := hg.trans (replay_both sealProtocol foldProtocol .start (.opened rows) past)
      have hpast : g.2.existing = lastRead past :=
        (congrArg (fun x : SealGhost × FoldGhost => x.2.existing) hpair).trans
          (existing_replay rows past)
      have hfront := hinv.perm List.perm_middle
      have hnext : CrashInv s' ((g.1.next o r, g.2.next o r) :: (l₁ ++ l₂)) :=
        ⟨hfront.seals.step ha.1 ho, hfront.folds.step hpast hC ha.1 ha.2 ho⟩
      exact hnext.perm List.perm_middle.symm
    · rintro p ⟨ix, call, rfl⟩
      refine ⟨(SealGhost.start, .opened (call.rows ix)), ⟨_, rfl⟩,
        (follows_prog ix call rfl).both (follows_fold ix call), fun s gs hinv => ?_⟩
      have hnext : CrashInv s ((SealGhost.start, .opened (call.rows ix)) :: gs) :=
        ⟨hinv.seals.start, hinv.folds.start _⟩
      exact hnext.perm (List.perm_append_singleton _ gs).symm

/-- What holds of the forest of a store in every state. -/
structure ForestKept (c : StorePool L) : Prop where
  /-- Epochs without writes in flight are in lockstep with the rows. -/
  quiet : ∀ e, c.state.sealState.marks e = 0 → EpochKept c.state e
  /-- Records on disk describe the rows of their epochs. -/
  record : ∀ e b, c.state.tree.record e = some b → IsRecordOf L b e c.state.rows
  /-- If the process dies now, the forest that is opened is the fold of the rows on disk. -/
  opened : ∀ ix, FoldOf (openStore L ix c.state.tree).merkle c.state.rows
  /-- When all calls have ended, the forest is the fold of the rows. -/
  ended : (∀ t ∈ c.threads, ∃ r, t.prog = .ret r) → FoldOf c.state.merkle c.state.rows

/-- **The forest survives crashes.** From an empty disk on, calls of all methods run interleaved,
any operation of the key-value tree may fail, and the process may die between any two operations
and a store be opened on what the disk holds, any number of times. If all operations are orderly,
then in every state the epochs without writes in flight have the hashes of their rows, the seal
records on disk describe the rows of their epochs, and opening the disk gives the fold of its rows,
whatever was under way. -/
theorem lockstep_of_crashes (hL : L.bits < 32) (ix : HybridSpatioTemporalIndexer)
    (h : Relation.ReflTransGen (CrashStep pol) ⟨openStore L ix .empty, []⟩ c) : ForestKept c := by
  suffices hc : CrashTracked c by
    obtain ⟨l, hl, ht, hinv⟩ := hc
    refine ⟨fun e he => hinv.folds.epochKept hinv.seals he,
      fun e b hb => hinv.folds.isRecordOf hinv.seals hb, hinv.foldOf_openStore, fun hdone => ?_⟩
    refine hinv.folds.foldOf fun g hg => ?_
    obtain ⟨x, hx, rfl⟩ := List.mem_map.1 hg
    obtain ⟨r, hr⟩ := hdone x.2 (hl ▸ List.mem_map_of_mem hx)
    have hf := (ht x hx).follows
    rw [hr] at hf
    exact hf.2
  induction h with
  | refl =>
    refine tracked_nil ⟨sealInv_empty ix, foldInv_nil ?_⟩
    exact (trusted_empty (D := {L}) ix rfl).fold
  | tail _ hstep ih => exact crashTracked_step hL hstep ih

end Invariant

/-! ## A crash between a commit and its fold -/

section Sample

local instance crashesSha : Sha256 := sampleDigests

/-- Let threads perform orderly operations in turn. -/
def scheduleOrderly (is : List ℕ) (c : StorePool merkleLeafDepth) :
    Option (StorePool merkleLeafDepth) :=
  Pool.schedule StoreOp.run (fun s t => decide (Orderly s t)) is c

theorem crashes_of_scheduleOrderly {is : List ℕ} {c c' : StorePool merkleLeafDepth}
    (h : scheduleOrderly is c = some c') :
    Relation.ReflTransGen (CrashStep .faulty) c c' := by
  have hruns : Pool.Runs (storeSem merkleLeafDepth .faulty) IsMethod Orderly c c' :=
    Pool.runs_of_schedule (fun _ _ _ _ => sem_faulty) (fun _ _ => of_decide_eq_true) h
  exact hruns.lift id fun _ _ => CrashStep.op

/-- A store that is opened on the disk of another one, and a write to the epoch that was sealed. -/
def reopenedPool (c : StorePool merkleLeafDepth) : StorePool merkleLeafDepth :=
  ⟨openStore merkleLeafDepth testIndexer c.state.tree,
    [.new ((storeCorner 1 [0x62]).prog testIndexer)]⟩

/-- A write ends and its epoch is sealed; after a crash, another write to the epoch commits its row,
and has not folded it. -/
def tornPool : Option (StorePool merkleLeafDepth) :=
  (scheduleOrderly [0, 0, 0, 0, 0, 1, 0, 0, 1, 1, 1, 1, 1, 1, 1] sealStartPool).bind fun c =>
    scheduleOrderly [0, 0, 0, 0, 0, 0, 0, 0, 0, 0] (reopenedPool c)

theorem lockstep_of_crashes_torn : ∃ c, tornPool = some c ∧ ForestKept c ∧
    c.state.rows.card = 2 ∧ c.state.merkle.len.toNat = 1 := by
  have htorn : (tornPool.bind fun c => some (c.state.rows.card, c.state.merkle.len.toNat)) =
      some (2, 1) := by decide +kernel
  obtain ⟨c, hc, hfacts⟩ := Option.bind_eq_some_iff.1 htorn
  obtain ⟨c₁, hsealed, hrest⟩ := Option.bind_eq_some_iff.1 hc
  have hreach : Relation.ReflTransGen (CrashStep .faulty)
      ⟨openStore merkleLeafDepth testIndexer .empty, []⟩ c := by
    refine .head (.op (.start ⟨testIndexer, storeCorner 0 [0x61], rfl⟩))
      (.head (.op (.start ⟨testIndexer, .sealSettledEpochs 7200 0, rfl⟩)) ?_)
    refine (crashes_of_scheduleOrderly hsealed).trans (.head (.crash testIndexer)
      (.head (.op (.start ⟨testIndexer, storeCorner 1 [0x62], rfl⟩)) ?_))
    exact crashes_of_scheduleOrderly hrest
  have hkept := lockstep_of_crashes (by decide) testIndexer hreach
  simp only [Option.some.injEq, Prod.mk.injEq] at hfacts
  exact ⟨c, hc, hkept, hfacts⟩

end Sample

end InterstellarDb
