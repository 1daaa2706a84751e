import InterstellarDb.Foundations.Atomic.Interleaving
import InterstellarDb.Store.Batch
import InterstellarDb.Store.Publish

/-!
# The order of commits

Calls of all methods run on one store in any interleaving, and every operation of the key-value
tree may fail. The account of a thread (`account`) is read off the operations that it performed:
whether its rows are committed, and which of them it has published.

* Every method keeps to `accountProtocol`: it commits all its rows in one transaction and once, and
  publishes them in order and only then (`follows_account`).
* Between any two moments of a run the table changes as if the calls that commit meanwhile wrote
  all their rows in turn, in the order of their commits, and nobody else wrote anything; and the
  events sent are an interleaving of those that these threads sent (`commitOrder_of_runs`). A call
  that has ended before a moment comes before all that start after it.
-/

namespace InterstellarDb

open Atomic GreatestWins

/-! ## Accounts -/

/-- The rows of a call, whether they are committed, and those that are published. -/
structure Account where
  rows : List Row
  committed : Bool
  published : List Row
  deriving DecidableEq

/-- The account of a call that begins. -/
def Account.opened (rows : List Row) : Account := ⟨rows, false, []⟩

/-- The account of a call that has stored its rows. -/
def Account.closed (rows : List Row) : Account := ⟨rows, true, rows⟩

/-- The transaction changes one seal record. -/
def IsRecordWrite (ws : List KvWrite) : Prop :=
  ∃ e, ws = [.delete (sealKey e)] ∨ ∃ b, ws = [.set (sealKey e) b]

theorem IsRecordWrite.ne_setRows {ws : List KvWrite} (h : IsRecordWrite ws) (rows : List Row) :
    ws ≠ KvTree.setRows rows := by
  rintro rfl
  obtain ⟨e, he | ⟨b, hb⟩⟩ := h
  · obtain ⟨r, rest, rfl, hr, -⟩ := List.map_eq_cons_iff.1 he
    cases hr
  · obtain ⟨r, rest, rfl, hr, -⟩ := List.map_eq_cons_iff.1 hb
    exact sealKey_ne_bytes e r.1 (KvWrite.set.inj hr).1.symm

/-- The operation does not concern rows: it neither reads nor commits, folds or publishes any. -/
def StoreOp.Aside : StoreOp → Prop
  | .kvCommit _ ws => IsRecordWrite ws
  | .kvGet _ => False
  | .foldMerkle _ => False
  | .publish _ => False
  | _ => True

/-- The operation has committed the rows. -/
def commitsRows (rows : List Row) : (Σ o : StoreOp, o.Resp) → Bool
  | ⟨.kvCommit _ ws, .ok _⟩ => decide (ws = KvTree.setRows rows)
  | _ => false

/-- The row that an operation publishes. -/
def publishedRow : (Σ o : StoreOp, o.Resp) → Option Row
  | ⟨.publish x, _⟩ => some x
  | _ => none

/-- The entry in the account for an operation. -/
def Account.next (g : Account) (o : StoreOp) (r : o.Resp) : Account where
  rows := g.rows
  committed := g.committed || commitsRows g.rows ⟨o, r⟩
  published := g.published ++ (publishedRow ⟨o, r⟩).toList

/-- What a call may do: commit all its rows, once, and publish them in order after that. -/
def accountProtocol : Protocol storeSig where
  Ghost := Account
  allow := fun g o =>
    match o with
    | .kvCommit _ ws => ws = KvTree.setRows g.rows ∧ g.committed = false ∨ IsRecordWrite ws
    | .publish x => g.committed = true ∧ ∃ rest, g.rows = g.published ++ x :: rest
    | _ => True
  next := Account.next

theorem StoreOp.Aside.eq_false {o : StoreOp} (h : o.Aside) (rows : List Row) (r : o.Resp) :
    commitsRows rows ⟨o, r⟩ = false := by
  cases o with
  | kvCommit n ws =>
    cases r with
    | error err => rfl
    | ok _ => exact decide_eq_false (IsRecordWrite.ne_setRows h rows)
  | _ => rfl

theorem StoreOp.Aside.eq_none {o : StoreOp} (h : o.Aside) (r : o.Resp) :
    publishedRow ⟨o, r⟩ = none := by
  cases o with
  | publish x => exact h.elim
  | _ => rfl

/-- An operation that is aside leaves every account. -/
theorem StoreOp.Aside.neutral {o : StoreOp} (h : o.Aside) (g : Account) :
    accountProtocol.Neutral g o := by
  refine ⟨?_, fun r => ?_⟩
  · cases o with
    | kvCommit n ws => exact .inr h
    | publish x => exact h.elim
    | _ => trivial
  · show g.next o r = g
    rw [Account.next, h.eq_false, h.eq_none, Bool.or_false, Option.toList_none, List.append_nil]

/-! ## The parts of a call that are aside -/

section Aside

variable {P : Protocol storeSig} {g : P.Ghost}

/-- Changing a seal record leaves the ghost value. -/
theorem aside_commitWrites (hn : ∀ o : StoreOp, o.Aside → P.Neutral g o) {ws : List KvWrite}
    (h : IsRecordWrite ws) : Follows P (fun _ g' => g' = g) g (commitWrites ws) := by
  refine follows_commitWrites (hn _ trivial) (fun _ => hn _ trivial) (fun _ => rfl) fun n => ?_
  obtain ⟨hallow, hnext⟩ := hn (.kvCommit n ws) h
  exact ⟨hallow, hnext⟩

theorem aside_beginWriteEpoch (hn : ∀ o : StoreOp, o.Aside → P.Neutral g o) (e : Epoch) :
    Follows P (fun _ g' => g' = g) g (beginWriteEpoch e) := by
  refine (hn (.markUnlessSealed e) trivial).call fun marked => ?_
  cases marked with
  | true => rfl
  | false =>
    refine (hn .lockSealIo trivial).call fun _ => ?_
    refine (aside_commitWrites hn ⟨e, .inl rfl⟩).bind fun r g' hg => ?_
    obtain rfl : g' = g := hg
    cases r with
    | error err => exact (hn .unlockSealIo trivial).call fun _ => rfl
    | ok _ =>
      refine (hn (.removeSealedAndMark e) trivial).call fun _ => ?_
      exact (hn .unlockSealIo trivial).call fun _ => rfl

/-- Beginning the epochs leaves the ghost value. -/
theorem aside_beginWriteEpochsFrom (hn : ∀ o : StoreOp, o.Aside → P.Neutral g o)
    (marked es : List Epoch) :
    Follows P (fun _ g' => g' = g) g (beginWriteEpochsFrom marked es) := by
  induction es generalizing marked with
  | nil => rfl
  | cons e es ih =>
    refine (aside_beginWriteEpoch hn e).bind fun r g' hg => ?_
    obtain rfl : g' = g := hg
    cases r with
    | error err => exact (hn (.endMarks marked) trivial).call fun _ => rfl
    | ok _ => exact ih _

/-- Sealing leaves the ghost value. -/
theorem aside_sealCandidates (hn : ∀ o : StoreOp, o.Aside → P.Neutral g o)
    (newly es : List Epoch) : Follows P (fun _ g' => g' = g) g (sealCandidates newly es) := by
  induction es generalizing newly with
  | nil => rfl
  | cons e es ih =>
    refine (hn .lockSealIo trivial).call fun _ => ?_
    refine (hn (.trySeal e) trivial).call fun sealing => ?_
    cases sealing with
    | false => exact (hn .unlockSealIo trivial).call fun _ => ih newly
    | true =>
      refine (hn (.serializeEpoch e) trivial).call fun bytes => ?_
      cases bytes with
      | none =>
        refine (hn (.removeSealed e) trivial).call fun _ => ?_
        exact (hn .unlockSealIo trivial).call fun _ => ih newly
      | some b =>
        refine (aside_commitWrites hn ⟨e, .inr ⟨b, rfl⟩⟩).bind fun r g' hg => ?_
        obtain rfl : g' = g := hg
        cases r with
        | error err =>
          refine (hn (.removeSealed e) trivial).call fun _ => ?_
          exact (hn .unlockSealIo trivial).call fun _ => rfl
        | ok _ => exact (hn .unlockSealIo trivial).call fun _ => ih _

end Aside

/-! ## Every method keeps its account -/

/-- A call that stored its rows has committed and published all of them; any other has done
neither. -/
def EndedAs (rows : List Row) (r : Except String Bool) (g : Account) : Prop :=
  r = .ok true ∧ g = .closed rows ∨ r ≠ .ok true ∧ g = .opened rows

/-- A write that ends well has committed and published its rows, one that fails has done neither. -/
def Wrote {α : Type} (rows : List Row) (r : Except String α) (g : Account) : Prop :=
  (∃ a, r = .ok a) ∧ g = .closed rows ∨ (∃ err, r = .error err) ∧ g = .opened rows

theorem Wrote.map {α β : Type} {rows : List Row} {r : Except String α} {g : Account}
    (h : Wrote rows r g) (f : α → β) : Wrote rows (r.map f) g := by
  rcases h with ⟨⟨a, rfl⟩, hg⟩ | ⟨⟨err, rfl⟩, hg⟩
  · exact .inl ⟨⟨f a, rfl⟩, hg⟩
  · exact .inr ⟨⟨err, rfl⟩, hg⟩

theorem Wrote.ended {α : Type} {rows : List Row} {r : Except String α} {g : Account}
    (h : Wrote rows r g) : EndedAs rows (r.map fun _ => true) g := by
  rcases h with ⟨⟨a, rfl⟩, hg⟩ | ⟨⟨err, rfl⟩, hg⟩
  · exact .inl ⟨rfl, hg⟩
  · exact .inr ⟨nofun, hg⟩

/-- Publishing the rest of the rows closes the account. -/
theorem follows_publishAll_account (done rest : List Row) :
    Follows accountProtocol (fun _ g => g = .closed (done ++ rest)) ⟨done ++ rest, true, done⟩
      (publishAll rest) := by
  induction rest generalizing done with
  | nil => exact congrArg (Account.mk _ true) (List.append_nil done).symm
  | cons x rest ih =>
    refine ⟨⟨rfl, rest, rfl⟩, fun _ => ?_⟩
    have hrest := ih (done ++ [x])
    rw [List.append_assoc, List.singleton_append] at hrest
    exact hrest

theorem follows_writeRows_account (es : List Epoch) (edits : List MerkleEdit) (rows : List Row) :
    Follows accountProtocol (Wrote rows) (.opened rows) (writeRows es edits rows) := by
  have hn : ∀ g (o : StoreOp), o.Aside → accountProtocol.Neutral g o := fun g _ ho => ho.neutral g
  have hcommit : Follows accountProtocol (Wrote rows) (.opened rows)
      (commitAndFold edits rows) := by
    have hwrites : Follows accountProtocol (fun r g => r = .ok () ∧ g = ⟨rows, true, []⟩ ∨
        (∃ err, r = .error err) ∧ g = .opened rows) (.opened rows)
          (commitWrites (KvTree.setRows rows)) := by
      refine follows_commitWrites (hn _ _ trivial) (fun _ => hn _ _ trivial)
        (fun err => .inr ⟨⟨err, rfl⟩, rfl⟩) fun n => ⟨.inl ⟨rfl, rfl⟩, fun r => ?_⟩
      cases r with
      | error err => exact .inr ⟨⟨err, rfl⟩, rfl⟩
      | ok _ =>
        refine .inl ⟨rfl, ?_⟩
        show Account.mk rows (decide (KvTree.setRows rows = KvTree.setRows rows)) [] = _
        rw [decide_eq_true rfl]
    refine hwrites.bind fun r g hg => ?_
    rcases hg with ⟨rfl, rfl⟩ | ⟨⟨err, rfl⟩, rfl⟩
    · refine ⟨trivial, fun _ => ?_⟩
      exact (follows_publishAll_account [] rows).bind fun _ g hg => .inl ⟨⟨_, rfl⟩, hg⟩
    · exact .inr ⟨⟨err, rfl⟩, rfl⟩
  refine (aside_beginWriteEpochsFrom (hn _) [] es).bind fun r g hg => ?_
  obtain rfl : g = .opened rows := hg
  cases r with
  | error err => exact .inr ⟨⟨err, rfl⟩, rfl⟩
  | ok _ => exact hcommit.bind fun _ g hg => (hn g (.endMarks es) trivial).call fun _ => hg

/-- **Every method keeps its account.** -/
theorem follows_account [Sha256] (ix : HybridSpatioTemporalIndexer) (c : StoreCall) :
    Follows accountProtocol (EndedAs (c.rows ix)) (.opened (c.rows ix)) (c.prog ix) := by
  cases c with
  | store x =>
    have hstore : Follows accountProtocol (Wrote [x.row ix]) (.opened [x.row ix]) (store ix x) :=
      (follows_writeRows_account _ _ _).bind fun _ _ h => h.map _
    exact hstore.bind fun _ _ h => h.ended
  | storeBatch xs =>
    have hstore : Follows accountProtocol (Wrote (xs.map (BatchRecord.row ix)))
        (.opened (xs.map (BatchRecord.row ix))) (storeBatch ix xs) :=
      (follows_writeRows_account _ _ _).bind fun _ _ h => h.map _
    exact hstore.bind fun _ _ h => h.ended
  | ingest k v =>
    refine ⟨trivial, fun r => ?_⟩
    cases r with
    | error err => exact .inr ⟨nofun, rfl⟩
    | ok existing =>
      show Follows _ _ _ (if keepsExisting k v existing then _ else _)
      split_ifs
      · exact .inr ⟨by simp, rfl⟩
      · exact (follows_writeRows_account _ _ _).bind fun _ _ h => h.ended
  | sealSettledEpochs now grace =>
    have hseal : Follows accountProtocol (fun _ g => g = .opened []) (.opened [])
        (sealSettledEpochs ix now grace) :=
      (StoreOp.Aside.neutral (o := .merkleEpochs) trivial _).call fun _ =>
        aside_sealCandidates (fun _ ho => ho.neutral _) [] _
    refine hseal.bind fun r g hg => .inr ⟨?_, hg⟩
    cases r <;> simp [Except.map]

/-! ## Accounts read off the operations -/

section Replay

variable {rows : List Row} {past newer : List (Σ o : StoreOp, o.Resp)}

/-- **What the account of a call says.** -/
theorem replay_opened (rows : List Row) (past : List (Σ o : StoreOp, o.Resp)) :
    accountProtocol.replay (.opened rows) past =
      ⟨rows, past.any (commitsRows rows), (past.filterMap publishedRow).reverse⟩ := by
  induction past with
  | nil => rfl
  | cons x past ih =>
    show (accountProtocol.replay (.opened rows) past).next x.1 x.2 = _
    rw [ih, Account.next, List.any_cons, Bool.or_comm]
    cases h : publishedRow x with
    | none => rw [List.filterMap_cons_none h, Option.toList_none, List.append_nil]
    | some y => rw [List.filterMap_cons_some h, List.reverse_cons, Option.toList_some]

/-- A call commits its rows at most once. -/
theorem countP_commitsRows (h : Legal accountProtocol (.opened rows) past) :
    past.countP (commitsRows rows) = if past.any (commitsRows rows) then 1 else 0 := by
  induction past with
  | nil => rfl
  | cons x past ih =>
    obtain ⟨hpast, hallow⟩ := h
    rw [List.countP_cons, ih hpast, List.any_cons]
    cases hx : commitsRows rows x with
    | false =>
      rw [Bool.false_or]
      rfl
    | true =>
      -- a second commit of the rows is not allowed
      obtain ⟨o, r⟩ := x
      have hfirst : past.any (commitsRows rows) = false := by
        cases o with
        | kvCommit n ws =>
          cases r with
          | error err => cases hx
          | ok _ =>
            have hws : ws = KvTree.setRows rows := of_decide_eq_true hx
            rcases hallow with ⟨-, hfalse⟩ | hrecord
            · rwa [replay_opened] at hfalse
            · exact absurd hws (IsRecordWrite.ne_setRows hrecord rows)
        | _ => cases hx
      simp [hfirst]

/-- A call publishes its rows in order, and only once they are committed. -/
theorem published_of_legal (h : Legal accountProtocol (.opened rows) past) :
    (accountProtocol.replay (.opened rows) past).published <+: rows ∧
      ((accountProtocol.replay (.opened rows) past).committed = false →
        (accountProtocol.replay (.opened rows) past).published = []) := by
  induction past with
  | nil => exact ⟨List.nil_prefix, fun _ => rfl⟩
  | cons x past ih =>
    obtain ⟨hpast, hallow⟩ := h
    obtain ⟨hfirst, hnone⟩ := ih hpast
    have hrows : (accountProtocol.replay (.opened rows) past).rows = rows := by rw [replay_opened]
    show ((accountProtocol.replay (.opened rows) past).next x.1 x.2).published <+: rows ∧
      (((accountProtocol.replay (.opened rows) past).next x.1 x.2).committed = false →
        ((accountProtocol.replay (.opened rows) past).next x.1 x.2).published = [])
    generalize accountProtocol.replay (.opened rows) past = g at *
    obtain ⟨o, r⟩ := x
    have hother : publishedRow ⟨o, r⟩ = none → (g.next o r).published <+: rows ∧
        ((g.next o r).committed = false → (g.next o r).published = []) := by
      intro hx
      have hsame : (g.next o r).published = g.published := by
        show g.published ++ (publishedRow ⟨o, r⟩).toList = g.published
        rw [hx, Option.toList_none, List.append_nil]
      rw [hsame]
      exact ⟨hfirst, fun hc => hnone (Bool.or_eq_false_iff.1 hc).1⟩
    cases o with
    | publish x =>
      obtain ⟨hc, rest, hrest⟩ := hallow
      refine ⟨⟨rest, ?_⟩, fun hfalse => ?_⟩
      · rw [← hrows, hrest]
        exact List.append_assoc ..
      · have := (Bool.or_eq_false_iff.1 hfalse).1
        rw [hc] at this
        cases this
    | _ => exact hother rfl

end Replay

/-! ## Runs -/

/-- A store and the calls that run on it. -/
abbrev StorePool (L : LeafDepth) := Pool storeSig (SpatioTemporalStore L) (Except String Bool)

/-- Runs of calls on a store, in any interleaving. -/
abbrev StorePool.Runs [Sha256] (pol : KvPolicy) : StorePool L → StorePool L → Prop :=
  Pool.Runs (storeSem L pol) (fun _ => False) fun _ _ => True

/-- The calls, none of which has begun. -/
def StorePool.begin [Sha256] (s : SpatioTemporalStore L) (calls : List StoreCall) : StorePool L :=
  ⟨s, calls.map fun c => Thread.new (c.prog s.indexer)⟩

/-- The rows of the call at a position. -/
def rowsAt (ix : HybridSpatioTemporalIndexer) (calls : List StoreCall) (i : ℕ) : List Row :=
  match calls[i]? with
  | none => []
  | some c => c.rows ix

/-- The account of the call at a position. -/
def account (ix : HybridSpatioTemporalIndexer) (calls : List StoreCall) (c : StorePool L) (i : ℕ) :
    Account :=
  accountProtocol.replay (.opened (rowsAt ix calls i)) (c.past i)

/-- From `c` to `c'`, the calls that commit meanwhile write all their rows, one call after another,
and nobody else writes; the events that are sent are an interleaving of those of the calls. -/
structure CommitOrder (ix : HybridSpatioTemporalIndexer) (calls : List StoreCall)
    (c c' : StorePool L) : Prop where
  kept : ∀ i, (account ix calls c i).committed = true → (account ix calls c' i).committed = true
  writes : ∃ order : List ℕ, order.Nodup ∧
    (∀ i, i ∈ order ↔ (account ix calls c' i).committed = true ∧
      (account ix calls c i).committed = false) ∧
    c'.state.table = order.foldl (fun m i => KvTree.writeAll m (rowsAt ix calls i)) c.state.table
  events : ∃ sent : List (ℕ × Row),
    c'.state.events = c.state.events ++ c.state.newEvents (sent.map Prod.snd) ∧
    ∀ i, (account ix calls c' i).published =
      (account ix calls c i).published ++ (sent.filter fun y => y.1 = i).map Prod.snd

/-- A call has published a first part of its rows, only once they are committed; and when it has
ended, either all its rows are committed and published, or none. -/
structure AccountKept (ix : HybridSpatioTemporalIndexer) (calls : List StoreCall)
    (c : StorePool L) (i : ℕ) : Prop where
  inOrder : (account ix calls c i).published <+: rowsAt ix calls i
  afterCommit : (account ix calls c i).committed = false → (account ix calls c i).published = []
  ended : ∀ t r, c.threads[i]? = some t → t.prog = .ret r →
    EndedAs (rowsAt ix calls i) r (account ix calls c i)

variable {ix : HybridSpatioTemporalIndexer} {calls : List StoreCall} {c c' : StorePool L}
  {pol : KvPolicy}

/-- Every thread keeps the account of its call. -/
def ThreadsKeep (ix : HybridSpatioTemporalIndexer) (calls : List StoreCall) (c : StorePool L) :
    Prop :=
  ∀ i t, c.threads[i]? = some t → Keeps (P := accountProtocol) (EndedAs (rowsAt ix calls i))
    (.opened (rowsAt ix calls i)) t

theorem threadsKeep_of_runs [Sha256] {s : SpatioTemporalStore L}
    (h : StorePool.Runs pol (.begin s calls) c) : ThreadsKeep s.indexer calls c := by
  refine h.keeps fun i t ht => ?_
  obtain ⟨call, hcall, rfl⟩ := Option.map_eq_some_iff.1 ((List.getElem?_map ..).symm.trans ht)
  have hrows : rowsAt s.indexer calls i = call.rows s.indexer := by rw [rowsAt, hcall]
  rw [hrows]
  exact keeps_new (follows_account s.indexer call)

/-- What the threads have done was allowed. -/
theorem ThreadsKeep.legal (h : ThreadsKeep ix calls c) (i : ℕ) :
    Legal accountProtocol (.opened (rowsAt ix calls i)) (c.past i) := by
  unfold Pool.past
  cases ht : c.threads[i]? with
  | none => trivial
  | some t => exact (h i t ht).legal

/-- A thread commits its rows, or changes one record. -/
theorem ThreadsKeep.writes (h : ThreadsKeep ix calls c) {i : ℕ} {x : Σ o : StoreOp, o.Resp}
    (hx : x ∈ c.past i) {n : ℕ} {ws : List KvWrite} (ho : x.1 = .kvCommit n ws) :
    ws = KvTree.setRows (rowsAt ix calls i) ∨ IsRecordWrite ws := by
  obtain ⟨newer, older, -, hallow⟩ := (h.legal i).allowed hx
  rw [ho, replay_opened] at hallow
  rcases hallow with ⟨hws, -⟩ | hws
  · exact .inl hws
  · exact .inr hws

/-- The account of every call is in order. -/
theorem ThreadsKeep.accountKept (h : ThreadsKeep ix calls c) (i : ℕ) :
    AccountKept ix calls c i where
  inOrder := (published_of_legal (h.legal i)).1
  afterCommit := (published_of_legal (h.legal i)).2
  ended := by
    intro t r ht hret
    have hf := (h i t ht).follows
    rw [hret] at hf
    have hpast : c.past i = t.past := by rw [Pool.past, ht]
    rw [account, hpast]
    exact hf

/-! ## What each operation does to the table and the events -/

/-- A transaction changes one record, or writes the rows. -/
theorem table_commit (kv : KvTree) {rows : List Row} {ws : List KvWrite}
    (h : ws = KvTree.setRows rows ∨ IsRecordWrite ws) :
    (kv.commit ws).table =
      if ws = KvTree.setRows rows then KvTree.writeAll kv.table rows else kv.table := by
  rcases h with rfl | h
  · rw [if_pos rfl, KvTree.table_setRows]
  · rw [if_neg (h.ne_setRows rows)]
    obtain ⟨e, rfl | ⟨b, rfl⟩⟩ := h
    · exact KvTree.table_deleteRecord kv e
    · exact KvTree.table_setRecord kv e b

/-- What the receivers of the change tap see: the events sent, and what sending depends on. -/
def tapView (s : SpatioTemporalStore L) :
    List ObservationEvent × ℕ × HybridSpatioTemporalIndexer :=
  (s.events, s.receivers, s.indexer)

/-- Sending the event of a row. -/
def sendRow (v : List ObservationEvent × ℕ × HybridSpatioTemporalIndexer) (x : Row) :
    List ObservationEvent × ℕ × HybridSpatioTemporalIndexer :=
  (if v.2.1 = 0 then v.1 else v.1 ++ [SpatioTemporalStore.observationEvent v.2.2 x], v.2)

theorem tapView_publish (s : SpatioTemporalStore L) (x : Row) :
    tapView (s.publish x) = sendRow (tapView s) x := by
  unfold SpatioTemporalStore.publish tapView sendRow
  dsimp only
  split_ifs
  · rfl
  · rfl

/-- Sending rows one after another sends their events. -/
theorem foldl_sendRow (s : SpatioTemporalStore L) (rows : List Row) :
    rows.foldl sendRow (tapView s) = (s.events ++ s.newEvents rows, s.receivers, s.indexer) := by
  rw [List.foldl_hom tapView fun s x => (tapView_publish s x).symm,
    SpatioTemporalStore.foldl_publish]
  rfl

section Steps

variable [Sha256] {s s' : SpatioTemporalStore L} {o : StoreOp} {r : o.Resp}

/-- Only a commit changes the tree. -/
theorem tree_step (ho : storeSem L pol o s r s') (hcommit : ∀ n ws, o ≠ .kvCommit n ws) :
    s'.tree = s.tree := by
  rcases ho with ⟨-, hrun⟩ | ⟨-, -, rfl⟩
  · cases o <;> grind [StoreOp.run, SpatioTemporalStore.publish]
  · rfl

/-- Only `publish` changes what the receivers see. -/
theorem tapView_of_ne (ho : storeSem L pol o s r s') (hpublish : ∀ x, o ≠ .publish x) :
    tapView s' = tapView s := by
  rcases ho with ⟨-, hrun⟩ | ⟨-, -, rfl⟩
  · cases o <;> grind [StoreOp.run, tapView]
  · rfl

/-- **Only the commits of rows change the table.** -/
theorem table_step {rows : List Row} (ho : storeSem L pol o s r s')
    (hws : ∀ n ws, o = .kvCommit n ws → ws = KvTree.setRows rows ∨ IsRecordWrite ws) :
    s'.table = if commitsRows rows ⟨o, r⟩ then KvTree.writeAll s.table rows else s.table := by
  cases o with
  | kvCommit n ws =>
    rcases sem_kvCommit.1 ho with ⟨-, rfl, rfl⟩ | ⟨-, ⟨err, rfl⟩, rfl⟩
    · show (s.tree.commit ws).table = if decide (ws = KvTree.setRows rows) = true then _ else _
      rw [table_commit s.tree (hws n ws rfl)]
      simp only [decide_eq_true_eq]
    · rfl
  | _ => exact congrArg KvTree.table (tree_step ho nofun)

/-- **Only the publication of a row sends an event.** -/
theorem tapView_step (ho : storeSem L pol o s r s') :
    tapView s' = match publishedRow ⟨o, r⟩ with
      | none => tapView s
      | some x => sendRow (tapView s) x := by
  cases o with
  | publish x =>
    obtain rfl := sem_publish.1 ho
    exact tapView_publish s x
  | _ => exact tapView_of_ne ho nofun

end Steps

/-! ## The order of commits -/

section Order

variable [Sha256] {log : List (ℕ × Event storeSig (SpatioTemporalStore L))}

/-- The position of the thread, where the entry is the commit of its rows. -/
def commitOf (ix : HybridSpatioTemporalIndexer) (calls : List StoreCall)
    (x : ℕ × Event storeSig (SpatioTemporalStore L)) : Option ℕ :=
  if commitsRows (rowsAt ix calls x.1) x.2.done then some x.1 else none

/-- The position of the thread and the row, where the entry publishes a row. -/
def publishOf (x : ℕ × Event storeSig (SpatioTemporalStore L)) : Option (ℕ × Row) :=
  (publishedRow x.2.done).map fun y => (x.1, y)

omit [Sha256] in
/-- How often a thread occurs among the commits of a log. -/
theorem count_commitOf (i : ℕ) : (log.filterMap (commitOf ix calls)).count i =
    (doneBy log i).countP (commitsRows (rowsAt ix calls i)) := by
  induction log with
  | nil => rfl
  | cons x log ih =>
    rw [doneBy_cons, List.filterMap_cons, commitOf]
    by_cases hi : x.1 = i
    · subst hi
      rw [if_pos rfl, List.countP_append, List.countP_singleton, ← ih]
      by_cases hc : commitsRows (rowsAt ix calls x.1) x.2.done
      · rw [if_pos hc, if_pos hc, List.count_cons_self]
      · rw [if_neg hc, if_neg hc]
        rfl
    · rw [if_neg hi, ← ih]
      by_cases hc : commitsRows (rowsAt ix calls x.1) x.2.done
      · rw [if_pos hc, List.count_cons_of_ne hi]
      · rw [if_neg hc]

omit [Sha256] in
/-- What a thread publishes, among what all publish. -/
theorem filter_publishOf (i : ℕ) :
    ((log.filterMap publishOf).filter fun y => y.1 = i).map Prod.snd =
      ((doneBy log i).filterMap publishedRow).reverse := by
  induction log with
  | nil => rfl
  | cons x log ih =>
    rw [doneBy_cons, List.filterMap_cons, publishOf]
    by_cases hi : x.1 = i
    · subst hi
      rw [if_pos rfl, List.filterMap_append, List.reverse_append, ← ih]
      cases hx : publishedRow x.2.done with
      | none => simp [hx]
      | some y => simp [hx]
    · rw [if_neg hi, ← ih]
      cases hx : publishedRow x.2.done with
      | none => rfl
      | some y => simp [hi]

variable (ix calls) in
/-- **The events sent** between two moments are an interleaving of those that the calls sent. -/
theorem sent_of_runs (h : StorePool.Runs pol c c') : ∃ sent : List (ℕ × Row),
    tapView c'.state = (c.state.events ++ c.state.newEvents (sent.map Prod.snd), c.state.receivers,
      c.state.indexer) ∧
    ∀ i, (account ix calls c' i).published =
      (account ix calls c i).published ++ (sent.filter fun y => y.1 = i).map Prod.snd := by
  obtain ⟨log, hsteps, hpast⟩ := h.exists_log
  refine ⟨log.filterMap publishOf, ?_, fun i => ?_⟩
  · have htap := foldl_filterMap_of_steps tapView publishOf (fun v y => sendRow v y.2) hsteps
      fun x hx t t' ho => by
        rw [tapView_step ho, publishOf]
        show (match publishedRow x.2.done with | none => _ | some x => _) = _
        cases publishedRow x.2.done with
        | none => rfl
        | some y => rfl
    rwa [← List.foldl_map (f := Prod.snd) (g := sendRow), foldl_sendRow] at htap
  · rw [account, account, replay_opened, replay_opened, hpast, List.filterMap_append,
      List.reverse_append, filter_publishOf]

/-- **The rows written** between two moments are those of the calls that commit meanwhile, one call
after another. -/
theorem writes_of_runs {s : SpatioTemporalStore L}
    (h : StorePool.Runs pol (.begin s calls) c) (h' : StorePool.Runs pol c c') :
    (∀ i, (account s.indexer calls c i).committed = true →
      (account s.indexer calls c' i).committed = true) ∧
    ∃ order : List ℕ, order.Nodup ∧
      (∀ i, i ∈ order ↔ (account s.indexer calls c' i).committed = true ∧
        (account s.indexer calls c i).committed = false) ∧
      c'.state.table =
        order.foldl (fun m i => KvTree.writeAll m (rowsAt s.indexer calls i)) c.state.table := by
  have hkeep := threadsKeep_of_runs (h.trans h')
  obtain ⟨log, hsteps, hpast⟩ := h'.exists_log
  -- the commits that a thread has made, before `c` and after it
  have hcount : ∀ i, (log.filterMap (commitOf s.indexer calls)).count i +
      (c.past i).countP (commitsRows (rowsAt s.indexer calls i)) =
        (c'.past i).countP (commitsRows (rowsAt s.indexer calls i)) := fun i => by
    rw [count_commitOf, ← List.countP_append, hpast]
  have hcommitted : ∀ c : StorePool L, ∀ i, (account s.indexer calls c i).committed = true ↔
      0 < (c.past i).countP (commitsRows (rowsAt s.indexer calls i)) := fun c i => by
    rw [account, replay_opened, List.countP_pos_iff]
    exact List.any_eq_true
  have honce : ∀ i, (c'.past i).countP (commitsRows (rowsAt s.indexer calls i)) ≤ 1 := fun i => by
    rw [countP_commitsRows (hkeep.legal i)]
    split_ifs <;> omega
  refine ⟨fun i hi => ?_, log.filterMap (commitOf s.indexer calls), ?_, fun i => ?_, ?_⟩
  · rw [hcommitted] at hi ⊢
    have := hcount i
    omega
  · refine List.nodup_iff_count_le_one.2 fun i => ?_
    have := hcount i
    have := honce i
    omega
  · rw [← List.count_pos_iff, ← Bool.not_eq_true, hcommitted, hcommitted]
    have := hcount i
    have := honce i
    omega
  · refine foldl_filterMap_of_steps SpatioTemporalStore.table (commitOf s.indexer calls)
      (fun m i => KvTree.writeAll m (rowsAt s.indexer calls i)) hsteps fun x hx t t' ho => ?_
    have hmem : x.2.done ∈ c'.past x.1 := by
      rw [hpast]
      exact List.mem_append_left _ (done_mem_doneBy hx)
    have htable := table_step ho fun n ws hop => hkeep.writes hmem hop
    unfold commitOf
    by_cases hc : commitsRows (rowsAt s.indexer calls x.1) x.2.done = true
    · rw [if_pos hc]
      exact htable.trans (if_pos hc)
    · rw [if_neg hc]
      exact htable.trans (if_neg hc)

/-- **The order of commits.** Any calls run on a store in any interleaving, and every operation of
the key-value tree may fail. Between two moments `c` and `c'` of a run, the table changes as if the
calls that commit meanwhile wrote all their rows in turn and nobody else wrote; the events sent are
an interleaving of those that the calls sent; and at every moment every call has published a first
part of its rows, after their commit, and has when it ends stored all of them or none. -/
theorem commitOrder_of_runs {s : SpatioTemporalStore L}
    (h : StorePool.Runs pol (.begin s calls) c) (h' : StorePool.Runs pol c c') :
    CommitOrder s.indexer calls c c' ∧ ∀ i, AccountKept s.indexer calls c' i := by
  obtain ⟨hkept, hwrites⟩ := writes_of_runs h h'
  obtain ⟨sent, htap, hsent⟩ := sent_of_runs s.indexer calls h'
  exact ⟨⟨hkept, hwrites, ⟨sent, congrArg Prod.fst htap, hsent⟩⟩,
    (threadsKeep_of_runs (h.trans h')).accountKept⟩

end Order

section Sample

local instance commitsSha : Sha256 := sampleDigests

/-- The thread has ended well. -/
def endedWell (t : Thread storeSig (Except String Bool)) : Bool :=
  match t.prog with
  | .ret (.ok true) => true
  | _ => false

theorem endedWell_iff {t : Thread storeSig (Except String Bool)} :
    endedWell t = true ↔ t.prog = .ret (.ok true) := by
  unfold endedWell
  split
  · rename_i h
    simp [h]
  · rename_i h
    simpa using h

/-- Two calls that store different payloads under one key. -/
def rivalCalls : List StoreCall := [storeCorner 0 [0x61], storeCorner 0 [0x62]]

/-- The pool once the second call has committed and ended, and the first one has not committed. -/
def rivalPool : Option (StorePool merkleLeafDepth) :=
  Pool.schedule StoreOp.run (fun _ _ => true) [0, 1, 1, 1, 1, 1, 1, 1, 0, 0]
    (StorePool.begin sampleStore rivalCalls)

theorem commitOrder_of_runs_rivals : ∃ c c' : StorePool merkleLeafDepth,
    (CommitOrder testIndexer rivalCalls c c' ∧ ∀ i, AccountKept testIndexer rivalCalls c' i) ∧
      (account testIndexer rivalCalls c 1).committed = true ∧
      (account testIndexer rivalCalls c 0).committed = false ∧
      c'.state.table (.ofFields 0 0 0) = some [0x61] := by
  have hrival : (rivalPool.bind fun c =>
      (Pool.schedule StoreOp.run (fun _ _ => true) [0, 0, 0, 0] c).bind fun c' =>
        some ((account testIndexer rivalCalls c 1).committed,
          (account testIndexer rivalCalls c 0).committed, c'.state.table (.ofFields 0 0 0))) =
      some (true, false, some [0x61]) := by decide +kernel
  obtain ⟨c, hc, hrival⟩ := Option.bind_eq_some_iff.1 hrival
  obtain ⟨c', hc', hfacts⟩ := Option.bind_eq_some_iff.1 hrival
  have hfirst : StorePool.Runs .reliable (.begin sampleStore rivalCalls) c :=
    Pool.runs_of_schedule (fun _ _ _ _ => sem_reliable) (fun _ _ _ => trivial) hc
  have hrest : StorePool.Runs .reliable c c' :=
    Pool.runs_of_schedule (fun _ _ _ _ => sem_reliable) (fun _ _ _ => trivial) hc'
  simp only [Option.some.injEq, Prod.mk.injEq] at hfacts
  exact ⟨c, c', commitOrder_of_runs hfirst hrest, hfacts⟩

end Sample

end InterstellarDb
