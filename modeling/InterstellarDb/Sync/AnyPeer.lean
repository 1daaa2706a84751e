import InterstellarDb.Foundations.Atomic.Trace
import InterstellarDb.Sync.Delivery
import InterstellarDb.Sync.Pull

/-!
# Pulling from any peer

A pull round whose peer answers anything at all. A ledger (`Ledger`) keeps the account of a round:
how many roots and children the peer has sent, how often it was asked for children or rows, which
rows it has sent before its first malformed item, and which of them were ingested. `pullProtocol` is
what a round may do at each entry of the ledger: the hashes it reads lie at valid depths, every
question is covered by a cell that the peer sent, and the next row to ingest is the next one that
was received.

* `syncOnce` follows the protocol, whatever the answers (`follows_syncOnce`).
* So every round ends within these bounds, and leaves the store as the rows received before the
  first malformed item do, ingested in order (`syncOnce_bounded`).
-/

namespace InterstellarDb

open Atomic

/-! ## The ledger of a round -/

/-- The account of a round. -/
structure Ledger where
  /-- The roots and children that the peer has sent. -/
  sent : ℕ
  /-- The `Children` calls made and the leaf cells fetched. -/
  asked : ℕ
  /-- The rows received before the first malformed item. -/
  received : List Row
  ingested : List Row
  /-- Nothing malformed has been received. -/
  wellFormed : Bool
  /-- The own store has failed. -/
  failed : Bool
  deriving DecidableEq

/-- Hash bytes that `hash_from_bytes` accepts. -/
def goodHash (b : Bytes) : Bool := b.length == 16

/-- The row of an item of a stream, when it is one. -/
def rowOfItem (item : Except Status SyncRow) : Option Row :=
  match item with
  | .error _ => none
  | .ok row => (Key.tryFrom row.key).map fun key => (key, row.payload)

/-- The rows of a stream before its first malformed item. -/
def goodRows : List (Except Status SyncRow) → List Row
  | [] => []
  | item :: items =>
    match rowOfItem item with
    | none => []
    | some r => r :: goodRows items

namespace Ledger

/-- The ledger of a round that has not begun. -/
def empty : Ledger := ⟨0, 0, [], [], true, false⟩

/-- The entry for an operation and its answer. -/
def next (g : Ledger) : (o : SyncOp) → o.Resp → Ledger
  | .roots, .ok response => { g with
      sent := g.sent + response.roots.length
      wellFormed := g.wellFormed && decide (3 ≤ response.leafDepthBits) &&
        decide (response.leafDepthBits % 3 = 0) &&
        response.roots.all fun root => goodHash root.hash }
  | .roots, .error _ => { g with wellFormed := false }
  | .children _ _ _, .ok children => { g with
      sent := g.sent + children.length
      asked := g.asked + 1
      wellFormed := g.wellFormed && children.all fun child => goodHash child.hash }
  | .children _ _ _, .error _ => { g with asked := g.asked + 1, wellFormed := false }
  | .fetch _ _, .ok items => { g with
      asked := g.asked + 1
      received := g.received ++ if g.wellFormed then goodRows items else []
      wellFormed := g.wellFormed && items.all fun item => (rowOfItem item).isSome }
  | .fetch _ _, .error _ => { g with asked := g.asked + 1, wellFormed := false }
  | .nodeHash _ _ _, _ => g
  | .ingest key payload, .ok _ => { g with ingested := g.ingested ++ [(key, payload)] }
  | .ingest _ _, .error _ => { g with failed := true }

end Ledger

/-- The operation keeps to the bounds of the leaf depth `L`: hashes are read at valid depths, and
the key ranges asked for are those of cells at a leaf depth. -/
def SyncOp.InBounds (L : LeafDepth) : SyncOp → Prop
  | .nodeHash _ d _ => L.Valid d
  | .children _ d _ => L.Valid (d + 3)
  | .fetch start stop => ∃ e p d, 3 ≤ d ∧ L.Valid d ∧
    start = (leafKeyRange e p d).1.bytes ∧ stop = (leafKeyRange e p d).2.bytes
  | _ => True

/-- What a round may do, and the ledger it keeps. -/
def pullProtocol (L : LeafDepth) : Protocol syncSig where
  Ghost := Ledger
  allow := fun g o => o.InBounds L ∧
    match o with
    | .children _ _ _ => g.wellFormed = true ∧ g.asked < g.sent
    | .fetch _ _ => g.wellFormed = true ∧ g.asked < g.sent
    | .ingest key payload => ∃ rest, g.received = g.ingested ++ (key, payload) :: rest
    | _ => True
  next := Ledger.next

/-- All that was received is ingested, the peer has sent `n` more cells than it was asked about, and
nothing is malformed. -/
structure Ledger.Open (g : Ledger) (n : ℕ) : Prop where
  asked : g.asked + n ≤ g.sent
  ingested : g.ingested = g.received
  wellFormed : g.wellFormed = true
  failed : g.failed = false

/-- The own store has failed, or something malformed has been received and all rows before it are
ingested. -/
structure Ledger.Broken (g : Ledger) : Prop where
  asked : g.asked ≤ g.sent
  ingested : g.failed = false → g.ingested = g.received
  malformed : g.failed = false → g.wellFormed = false

/-- A part of a round that goes on with `n` cells on the work list, or ends the round. -/
def Ledger.Goes {α : Type} (n : α → ℕ) (r : Except SyncError α) (g : Ledger) : Prop :=
  match r with
  | .ok a => g.Open (n a)
  | .error _ => g.Broken

/-! ## The round keeps to the protocol -/

section Follows

variable {L : LeafDepth} {g : Ledger}

theorem follows_diverges {e : Epoch} {d : ℕ} (hd : L.Valid d) (cell : ChildHash) :
    Follows (pullProtocol L) (fun r g' => g' = g ∧ ((∃ b, r = .ok b) ↔ goodHash cell.hash = true)) g
      (diverges e d cell) := by
  unfold diverges hashFromBytes goodHash
  split_ifs with hlen
  · dsimp only
    split_ifs
    · exact ⟨rfl, by simp [hlen]⟩
    · exact ⟨⟨hd, trivial⟩, fun ours => ⟨rfl, iff_of_true ⟨_, rfl⟩ (by simp [hlen])⟩⟩
  · exact ⟨rfl, by simp [hlen]⟩

/-- The cells that go on the work list are some of those that were sent. -/
theorem follows_divergent {d : ℕ} (hd : L.Valid d) (cells : List (Epoch × ChildHash)) :
    Follows (pullProtocol L) (fun r g' => g' = g ∧
      (∀ err, r = .error err → (cells.all fun x => goodHash x.2.hash) = false) ∧
      ∀ l, r = .ok l → (cells.all fun x => goodHash x.2.hash) = true ∧ l.length ≤ cells.length) g
        (divergent d cells) := by
  induction cells with
  | nil =>
    refine ⟨rfl, fun _ h => (nomatch h), fun l hl => ?_⟩
    obtain rfl := Except.ok.inj hl
    exact ⟨rfl, le_rfl⟩
  | cons x cells ih =>
    refine (follows_diverges hd x.2).bind fun r g' hr => ?_
    obtain ⟨rfl, hgood⟩ := hr
    cases r with
    | error err =>
      have hbad : goodHash x.2.hash = false := by
        rw [← Bool.not_eq_true, ← hgood]
        rintro ⟨b, hb⟩
        cases hb
      refine ⟨rfl, fun _ _ => ?_, fun _ h => nomatch h⟩
      rw [List.all_cons, hbad, Bool.false_and]
    | ok pushed =>
      have hgood : goodHash x.2.hash = true := hgood.1 ⟨pushed, rfl⟩
      refine ih.bind fun r g' hr => ?_
      obtain ⟨rfl, herr, hok⟩ := hr
      rw [List.all_cons, hgood, Bool.true_and]
      cases r with
      | error err => exact ⟨rfl, fun _ _ => herr err rfl, fun _ h => nomatch h⟩
      | ok l =>
        refine ⟨rfl, fun _ h => (nomatch h), fun l' hl' => ?_⟩
        obtain ⟨hall, hlen⟩ := hok l rfl
        obtain rfl := Except.ok.inj hl'
        refine ⟨hall, ?_⟩
        rw [List.length_cons]
        split_ifs
        · exact Nat.succ_le_succ hlen
        · exact Nat.le_succ_of_le hlen

/-- The rows of a stream that were not ingested yet are ingested, up to the first malformed item. -/
theorem follows_ingestRows (items : List (Except Status SyncRow)) (stats : SyncStats) {n : ℕ}
    (hasked : g.asked + n ≤ g.sent) (hrows : g.received = g.ingested ++ goodRows items)
    (hgood : g.wellFormed = items.all fun item => (rowOfItem item).isSome)
    (hfailed : g.failed = false) :
    Follows (pullProtocol L) (Ledger.Goes fun _ => n) g (ingestRows items stats) := by
  induction items generalizing g stats with
  | nil =>
    rw [goodRows, List.append_nil] at hrows
    exact ⟨hasked, hrows.symm, hgood, hfailed⟩
  | cons item items ih =>
    have hbroken : rowOfItem item = none → g.Broken := by
      intro hnone
      rw [goodRows, hnone, List.append_nil] at hrows
      rw [List.all_cons, hnone] at hgood
      exact ⟨by omega, fun _ => hrows.symm, fun _ => hgood⟩
    cases item with
    | error status => exact hbroken rfl
    | ok row =>
      rw [ingestRows]
      cases hkey : Key.tryFrom row.key with
      | none => exact hbroken (by rw [rowOfItem, hkey]; rfl)
      | some key =>
        have hrow : rowOfItem (.ok row) = some (key, row.payload) := by
          rw [rowOfItem, hkey]
          rfl
        rw [goodRows, hrow] at hrows
        rw [List.all_cons, hrow, Option.isSome_some, Bool.true_and] at hgood
        refine ⟨⟨trivial, _, hrows⟩, fun answer => ?_⟩
        cases answer with
        | error err =>
          have hbound : g.asked ≤ g.sent := by omega
          exact ⟨hbound, fun h => (nomatch h), fun h => nomatch h⟩
        | ok changed =>
          refine ih _ hasked ?_ hgood hfailed
          show g.received = (g.ingested ++ [(key, row.payload)]) ++ goodRows items
          rw [hrows, List.append_assoc]
          rfl

variable {D : LeafDepth}

/-- Fetching a leaf cell takes one cell off the account. -/
theorem follows_pullLeaf (hD : D.bits ≤ L.bits) {item : WorkItem D} (hleaf : item.depth = D.bits)
    (stats : SyncStats) {n : ℕ} (hg : g.Open (n + 1)) :
    Follows (pullProtocol L) (Ledger.Goes fun _ => n) g (pullLeaf item stats) := by
  have hasked := hg.asked
  have hthree := D.three_le
  have hvalid : L.Valid item.depth := ⟨item.valid.1, item.valid.2.trans hD⟩
  rw [pullLeaf_eq]
  refine ⟨⟨⟨_, _, _, by omega, hvalid, rfl, rfl⟩, hg.wellFormed, by omega⟩, fun answer => ?_⟩
  cases answer with
  | error status =>
    exact ⟨by show g.asked + 1 ≤ g.sent; omega, fun _ => hg.ingested, fun _ => rfl⟩
  | ok items =>
    refine follows_ingestRows items _ ?_ ?_ ?_ hg.failed
    · show g.asked + 1 + n ≤ g.sent
      omega
    · show g.received ++ (if g.wellFormed then goodRows items else []) =
        g.ingested ++ goodRows items
      rw [if_pos hg.wellFormed, hg.ingested]
    · show (g.wellFormed && items.all fun item => (rowOfItem item).isSome) = _
      rw [hg.wellFormed, Bool.true_and]

/-- Asking for children takes one cell off the account, and adds those that go on the work list. -/
theorem follows_pullChildren (hD : D.bits ≤ L.bits) {item : WorkItem D}
    (hleaf : item.depth ≠ D.bits) {n : ℕ} (hg : g.Open (n + 1)) :
    Follows (pullProtocol L) (Ledger.Goes fun l => n + l.length) g (pullChildren item) := by
  have hasked := hg.asked
  have hchild := (item.child hleaf 0).valid
  have hvalid : L.Valid (item.depth + 3) := ⟨hchild.1, hchild.2.trans hD⟩
  refine ⟨⟨hvalid, hg.wellFormed, by omega⟩, fun answer => ?_⟩
  cases answer with
  | error status =>
    exact ⟨by show g.asked + 1 ≤ g.sent; omega, fun _ => hg.ingested, fun _ => rfl⟩
  | ok children =>
    refine (follows_divergent hvalid (children.map fun c => (item.epoch, c))).bind fun r g' hr => ?_
    obtain ⟨rfl, herr, hok⟩ := hr
    rw [List.all_map, List.length_map] at hok
    rw [List.all_map] at herr
    cases r with
    | error err =>
      refine ⟨?_, fun _ => hg.ingested, fun _ => ?_⟩
      · show g.asked + 1 ≤ g.sent + children.length
        omega
      · show (g.wellFormed && children.all fun child => goodHash child.hash) = false
        rw [hg.wellFormed, Bool.true_and]
        exact herr err rfl
    | ok l =>
      obtain ⟨hall, hlen⟩ := hok l rfl
      refine ⟨?_, hg.ingested, ?_, hg.failed⟩
      · show g.asked + 1 + (n + (l.map Prod.snd).length) ≤ g.sent + children.length
        rw [List.length_map]
        omega
      · show (g.wellFormed && children.all fun child => goodHash child.hash) = true
        rw [hg.wellFormed, Bool.true_and]
        exact hall

/-- **The loop** asks about every cell of its work list once. -/
theorem follows_syncLoop (hD : D.bits ≤ L.bits) (work : List (WorkItem D)) (stats : SyncStats)
    (hg : g.Open work.length) :
    Follows (pullProtocol L) (Ledger.Goes fun _ => 0) g (syncLoop work stats) := by
  induction work using WorkItem.queue_induction generalizing g stats with
  | nil =>
    rw [syncLoop_nil]
    exact hg
  | leaf item work hleaf ih =>
    rw [syncLoop_leaf hleaf]
    refine (follows_pullLeaf hD hleaf stats hg).bind fun r g' hr => ?_
    cases r with
    | error err => exact hr
    | ok stats => exact ih stats hr
  | inner item work hleaf ih =>
    rw [syncLoop_inner hleaf]
    refine (follows_pullChildren hD hleaf hg).bind fun r g' hr => ?_
    cases r with
    | error err => exact hr
    | ok children =>
      refine ih children stats ?_
      rw [List.length_append, List.length_map]
      exact hr

/-- **A round keeps to the protocol**, whatever the peer answers. -/
theorem follows_syncOnce (L : LeafDepth) :
    Follows (pullProtocol L) (Ledger.Goes fun _ => 0) Ledger.empty (syncOnce L) := by
  refine ⟨⟨trivial, trivial⟩, fun answer => ?_⟩
  cases answer with
  | error status => exact ⟨le_rfl, fun _ => rfl, fun _ => rfl⟩
  | ok response =>
    change Follows (pullProtocol L) _ _ (pullFrom L response)
    rw [pullFrom]
    cases hD : descendTo L response.leafDepthBits with
    | none =>
      refine ⟨Nat.zero_le _, fun _ => rfl, fun _ => ?_⟩
      show (true && decide (3 ≤ response.leafDepthBits) &&
        decide (response.leafDepthBits % 3 = 0) &&
        response.roots.all fun root => goodHash root.hash) = false
      rcases descendTo_eq_none.1 hD with h | h
      · simp [Nat.not_le.2 h]
      · simp [h]
    | some D =>
      have hdepth : 3 ≤ response.leafDepthBits ∧ response.leafDepthBits % 3 = 0 := by
        by_contra hno
        rw [not_and_or, Nat.not_le] at hno
        rw [descendTo_eq_none.2 hno] at hD
        cases hD
      have hgood : (Ledger.empty.next .roots (.ok response)).wellFormed =
          response.roots.all fun root => goodHash root.hash := by
        show (true && decide (3 ≤ response.leafDepthBits) &&
          decide (response.leafDepthBits % 3 = 0) && _) = _
        simp [hdepth]
      refine (follows_divergent L.valid_zero _).bind fun r g' hr => ?_
      obtain ⟨rfl, herr, hok⟩ := hr
      rw [List.all_map] at herr
      rw [List.all_map, List.length_map] at hok
      cases r with
      | error err => exact ⟨Nat.zero_le _, fun _ => rfl, fun _ => hgood.trans (herr err rfl)⟩
      | ok roots =>
        obtain ⟨hall, hlen⟩ := hok roots rfl
        refine follows_syncLoop (bits_of_descendTo hD) _ _ ⟨?_, rfl, hgood.trans hall, rfl⟩
        show 0 + (roots.map WorkItem.root).length ≤ 0 + response.roots.length
        rw [List.length_map]
        omega

end Follows

/-! ## Rounds against any peer -/

section AnyPeer

variable [Sha256] {L : LeafDepth} {Q : Type}

/-- The operations on a store and on the state of a peer that answers the calls as `answer` says.
The tree of the store does not fail. -/
def anyPeerSem (answer : Q → (o : SyncOp) → o.Resp × Q) :
    Sem syncSig (SpatioTemporalStore L × Q)
  | .nodeHash e d p => fun s r s' => s' = s ∧ r = s.1.merkle.nodeHash e d p
  | .ingest k v => fun s r s' =>
    s'.2 = s.2 ∧ Alone (storeSem L .reliable) (ingest k v) s.1 r s'.1
  | .roots => fun s r s' => s'.1 = s.1 ∧ answer s.2 .roots = (r, s'.2)
  | .children e d p => fun s r s' => s'.1 = s.1 ∧ answer s.2 (.children e d p) = (r, s'.2)
  | .fetch start stop => fun s r s' => s'.1 = s.1 ∧ answer s.2 (.fetch start stop) = (r, s'.2)

variable {answer : Q → (o : SyncOp) → o.Resp × Q} {s s' : SpatioTemporalStore L × Q}

/-- Every operation has an answer when nobody holds `seal_io`. -/
theorem anyPeerSem_total (o : SyncOp) (hio : s.1.sealIo = false) :
    ∃ r s', anyPeerSem answer o s r s' ∧ s'.1.sealIo = false := by
  cases o with
  | nodeHash e d p => exact ⟨_, s, ⟨rfl, rfl⟩, hio⟩
  | ingest k v =>
    rcases exec_ingest k v s.1 with ⟨hheld, -⟩ | ⟨b, s₁, hexec, hs₁⟩
    · rw [hio] at hheld
      cases hheld
    · refine ⟨.ok b, (s₁, s.2), ⟨rfl, ?_⟩, hs₁.trans hio⟩
      exact alone_of_exec (fun _ _ _ _ => sem_reliable) hexec
  | roots => exact ⟨_, (s.1, (answer s.2 .roots).2), ⟨rfl, rfl⟩, hio⟩
  | children e d p => exact ⟨_, (s.1, (answer s.2 (.children e d p)).2), ⟨rfl, rfl⟩, hio⟩
  | fetch start stop => exact ⟨_, (s.1, (answer s.2 (.fetch start stop)).2), ⟨rfl, rfl⟩, hio⟩

/-- The ledger of a round, from its trace. -/
def ledger (t : List (Event syncSig (SpatioTemporalStore L × Q))) : Ledger :=
  t.foldl (fun g x => g.next x.op x.answer) .empty

/-- The steps of a round ingest the rows that the ledger lists, in order, and nothing else. -/
theorem ingests_of_steps {t : List (Event syncSig (SpatioTemporalStore L × Q))}
    (h : Steps (anyPeerSem answer) s t s') (g : Ledger) :
    (t.foldl (fun g x => g.next x.op x.answer) g).failed = g.failed ∧
      ∃ ds, (t.foldl (fun g x => g.next x.op x.answer) g).ingested =
        g.ingested ++ ds.map Delivery.row ∧ Ingests .reliable s.1 ds s'.1 := by
  induction t generalizing s g with
  | nil =>
    obtain rfl : s' = s := h
    exact ⟨rfl, [], (List.append_nil _).symm, rfl⟩
  | cons x t ih =>
    obtain ⟨s₁, hx, hrest⟩ := h
    obtain ⟨hfailed, ds, hds, hing⟩ := ih hrest (g.next x.op x.answer)
    rw [List.foldl_cons]
    obtain ⟨o, met, answer'⟩ := x
    cases o with
    | ingest k v =>
      obtain ⟨b, rfl⟩ := ok_of_alone_ingest hx.2
      refine ⟨hfailed, ⟨s.1, (k, v), b, s₁.1⟩ :: ds, ?_, rfl, hx.2, hing⟩
      rw [hds]
      exact List.append_assoc g.ingested [(k, v)] _
    | nodeHash e d p =>
      obtain ⟨rfl, -⟩ := hx
      exact ⟨hfailed, ds, hds, hing⟩
    | roots =>
      rw [hx.1] at hing
      cases answer' with
      | error status => exact ⟨hfailed, ds, hds, hing⟩
      | ok response => exact ⟨hfailed, ds, hds, hing⟩
    | children e d p =>
      rw [hx.1] at hing
      cases answer' with
      | error status => exact ⟨hfailed, ds, hds, hing⟩
      | ok children => exact ⟨hfailed, ds, hds, hing⟩
    | fetch start stop =>
      rw [hx.1] at hing
      cases answer' with
      | error status => exact ⟨hfailed, ds, hds, hing⟩
      | ok items => exact ⟨hfailed, ds, hds, hing⟩

/-- What a round against any peer keeps to. -/
structure Bounded (s s' : SpatioTemporalStore L) (r : Except SyncError SyncStats)
    (t : List (Event syncSig (SpatioTemporalStore L × Q))) : Prop where
  /-- Every hash is read at a valid depth, and every key range is that of a cell. -/
  inBounds : ∀ x ∈ t, x.op.InBounds L
  /-- The peer is asked at most as often as it sent a root or a child. -/
  asked : (ledger t).asked ≤ (ledger t).sent
  /-- The round ends well when nothing that it received is malformed, only then. -/
  ok_iff : (∃ stats, r = .ok stats) ↔ (ledger t).wellFormed = true
  /-- The rows received before the first malformed item are ingested, in order, and no others. -/
  ingests : ∃ ds, ds.map Delivery.row = (ledger t).received ∧ Ingests .reliable s ds s'

/-- **A pull from any peer stays in bounds and ends.** Whatever the peer answers, a round that
nobody disturbs comes to an end, asks at most as often as the peer sent a cell, reads hashes at
valid depths, and leaves the store as ingesting the rows received before the first malformed item
does; a forest that is the fold of the rows stays so. -/
theorem syncOnce_bounded (answer : Q → (o : SyncOp) → o.Resp × Q) (s : SpatioTemporalStore L)
    (q : Q) :
    (s.sealIo = false → ∃ t r s', Traced (anyPeerSem answer) (syncOnce L) (s, q) t r s') ∧
    ∀ t r s', Traced (anyPeerSem answer) (syncOnce L) (s, q) t r s' →
      Bounded s s'.1 r t ∧ (s.Folds → s'.1.Folds) ∧
        (FoldOf s.merkle s.rows → s'.1.rows.card < 2 ^ 64 →
          FoldOf s'.1.merkle s'.1.rows) := by
  refine ⟨fun hio => ?_, fun t r s' h => ?_⟩
  · exact exists_traced_of_total (I := fun x : SpatioTemporalStore L × Q => x.1.sealIo = false)
      (fun o _ => anyPeerSem_total o) _ hio
  · obtain ⟨hgoes, hallow⟩ := (follows_syncOnce L).allowed h
    obtain ⟨hfailed, ds, hds, hing⟩ := ingests_of_steps h.steps .empty
    change Ledger.Goes (fun _ => 0) r (ledger t) at hgoes
    change (ledger t).failed = false at hfailed
    have hbounds : ∀ x ∈ t, x.op.InBounds L := by
      intro x hx
      obtain ⟨t₁, t₂, rfl⟩ := List.append_of_mem hx
      exact (hallow t₁ x t₂ rfl).1
    have hclosed : (ledger t).asked ≤ (ledger t).sent ∧
        ((∃ stats, r = .ok stats) ↔ (ledger t).wellFormed = true) ∧
          (ledger t).ingested = (ledger t).received := by
      cases r with
      | error err =>
        have hwf := hgoes.malformed hfailed
        exact ⟨hgoes.asked, by simp [hwf], hgoes.ingested hfailed⟩
      | ok stats => exact ⟨hgoes.asked, by simp [hgoes.wellFormed], hgoes.ingested⟩
    obtain ⟨hasked, hok, hall⟩ := hclosed
    refine ⟨⟨hbounds, hasked, hok, ds, ?_, hing⟩, hing.spec.2.1, hing.foldOf⟩
    rw [← hall]
    exact hds.symm

end AnyPeer

section Sample

local instance anyPeerSha : Sha256 := sampleDigests

/-- A peer that sends one child twice, under a prefix of another cell, and whose streams have a
short key after their first row. -/
def sloppyPeer (_ : Unit) (o : SyncOp) : o.Resp × Unit :=
  let hash : Bytes := List.replicate 16 1
  match o with
  | .roots => (.ok ⟨[⟨0, hash⟩], 3⟩, ())
  | .children _ _ _ => (.ok [⟨5, hash⟩, ⟨5, hash⟩], ())
  | .fetch _ _ => (.ok [.ok ⟨zeroKey.bytes, [0x61]⟩, .ok ⟨[0], [0x62]⟩], ())
  | .nodeHash _ _ _ => (0, ())
  | .ingest _ _ => (.ok false, ())

theorem syncOnce_bounded_sloppyPeer :
    ∃ t r s', Traced (anyPeerSem sloppyPeer) (syncOnce merkleLeafDepth) (sampleStore, ()) t r s' ∧
      Bounded sampleStore s'.1 r t ∧ s'.1.Folds := by
  have hfolds : sampleStore.Folds :=
    folds_of_foldOf (trusted_empty (D := Set.univ) testIndexer trivial).fold (by decide +kernel)
  obtain ⟨t, r, s', h⟩ := (syncOnce_bounded sloppyPeer sampleStore ()).1 (by decide +kernel)
  obtain ⟨hbounded, hkeeps, -⟩ := (syncOnce_bounded sloppyPeer sampleStore ()).2 t r s' h
  exact ⟨t, r, s', h, hbounded, hkeeps hfolds⟩

end Sample

end InterstellarDb
