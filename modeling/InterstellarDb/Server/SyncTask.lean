import InterstellarDb.Foundations.Atomic.Interference
import InterstellarDb.Sync.AnyPeer
import InterstellarDb.Sync.Mesh
import InterstellarDb.Sync.Restart

/-!
# The sync tasks of a mesh

Every server runs a task that, at each tick, makes a pass over its peers: it connects to each in
turn, skips it when it is unreachable, and else pulls one round from it, whether the round ends
well or not (`syncPeers`). The passes of all nodes run at once, one RPC, read or `ingest` at a time;
a call of a client, like an `ingest` of a pass, is one step. Any process may die, within a call or
between two steps, and be started again on its disk (`meshSem`).

* A pass keeps to `passProtocol`: it ingests only rows that it has received
  (`MeshStart.follows`).
* A peer that a pass has pulled from without an error is dominated, whatever else happens meanwhile,
  as long as all stores stay consistent and only grow (`run_syncPeers`).
-/

namespace InterstellarDb

open Atomic GreatestWins SetFold

/-! ## Operations -/

/-- The operations of the sync tasks, the calls of the clients, and restarts. -/
inductive MeshOp (N : Type) where
  /-- Node `i` connects to node `j`. -/
  | connect (i j : N)
  /-- An operation of a round of node `i` against node `j`. -/
  | sync (i j : N) (o : SyncOp)
  | call (i : N) (c : StoreCall)
  /-- The process of node `i` dies before the call, or while it runs, and the store is opened
  again. -/
  | crash (i : N) (c : StoreCall) (ix : HybridSpatioTemporalIndexer)

/-- The answers. -/
abbrev MeshOp.Resp {N : Type} : MeshOp N → Type
  | .connect _ _ => Except String Unit
  | .sync _ _ o => o.Resp
  | .call _ _ => Except String Bool
  | .crash _ _ _ => Unit

/-- The call that an operation runs, to its end or not. -/
def MeshOp.storeCall {N : Type} : MeshOp N → Option (N × StoreCall)
  | .connect _ _ => none
  | .sync _ _ _ => none
  | .call i c => some (i, c)
  | .crash i c _ => some (i, c)

/-- The operations of a mesh, as a signature. -/
abbrev meshSig (N : Type) : Sig := ⟨MeshOp N, MeshOp.Resp⟩

/-- The operations of a round of node `i` against node `j`. -/
def roundOf {N : Type} (i j : N) : Via syncSig (meshSig N) := ⟨.sync i j, fun _ r => r⟩

variable {N : Type} {depth : N → LeafDepth}

/-! ## The task -/

/-- How the turn of one peer ended: the line that the task logs. -/
inductive PeerOutcome where
  | unreachable (err : String)
  | failed (err : SyncError)
  | synced (stats : SyncStats)

/-- The outcome of a round. -/
def PeerOutcome.ofRound : Except SyncError SyncStats → PeerOutcome
  | .error err => .failed err
  | .ok stats => .synced stats

/-- The body of the loop over the peers. -/
def syncPeer (L : LeafDepth) (i peer : N) : Prog (meshSig N) PeerOutcome := do
  match ← op (S := meshSig N) (.connect i peer) with
  | .error err => return .unreachable err
  | .ok () => return .ofRound (← (syncOnce L).via (roundOf i peer))

/-- The loop over the peers. -/
def syncPeers (L : LeafDepth) (i : N) : List N → Prog (meshSig N) (List (N × PeerOutcome))
  | [] => return []
  | peer :: peers => do
    let outcome ← syncPeer L i peer
    return (peer, outcome) :: (← syncPeers L i peers)

/-- What a thread of the mesh ends with. -/
inductive Ended (N : Type) where
  | pass (i : N) (outcomes : List (N × PeerOutcome))
  | call (r : Except String Bool)
  | restarted

/-- What is started in a mesh: a tick of a sync task, the call of a client, or a restart. -/
inductive MeshStart (depth : N → LeafDepth) (peers : N → List N) :
    Prog (meshSig N) (Ended N) → Prop
  | tick (i : N) :
    MeshStart depth peers (syncPeers (depth i) i (peers i) >>= fun l => return .pass i l)
  | call (i : N) (c : StoreCall) :
    MeshStart depth peers (op (S := meshSig N) (.call i c) >>= fun r => return .call r)
  | crash (i : N) (c : StoreCall) (ix : HybridSpatioTemporalIndexer) :
    MeshStart depth peers (op (S := meshSig N) (.crash i c ix) >>= fun _ => return .restarted)

/-- The ledger after an operation: every round has its own. -/
def Ledger.afterOp (g : Ledger) : (o : MeshOp N) → o.Resp → Ledger
  | .sync _ _ o, r => g.next o r
  | _, _ => .empty

/-- What a pass may do: every round keeps to `pullProtocol`. -/
def passProtocol (depth : N → LeafDepth) : Protocol (meshSig N) where
  Ghost := Ledger
  allow := fun g o =>
    match o with
    | .sync i _ o => (pullProtocol (depth i)).allow g o
    | _ => True
  next := Ledger.afterOp

theorem follows_syncPeers (i : N) (peers : List N) (g : Ledger) :
    Follows (passProtocol depth) (fun _ _ => True) g (syncPeers (depth i) i peers) := by
  induction peers generalizing g with
  | nil => trivial
  | cons peer peers ih =>
    have hone : Follows (passProtocol depth) (fun _ _ => True) g (syncPeer (depth i) i peer) := by
      refine ⟨trivial, fun answer => ?_⟩
      cases answer with
      | error err => trivial
      | ok _ =>
        refine (Follows.via (P := pullProtocol (depth i)) (passProtocol depth) (roundOf i peer)
          (fun g => g) (fun _ _ h => h) (fun _ _ _ => rfl) (follows_syncOnce (depth i))).bind ?_
        exact fun _ _ _ => trivial
    exact hone.bind fun _ g' _ => (ih g').bind fun _ _ _ => trivial

/-- Whatever is started in a mesh keeps to the protocol. -/
theorem MeshStart.follows {peers : N → List N} {p : Prog (meshSig N) (Ended N)}
    (h : MeshStart depth peers p) :
    Follows (passProtocol depth) (fun _ _ => True) Ledger.empty p := by
  cases h with
  | tick i => exact (follows_syncPeers i (peers i) _).bind fun _ _ _ => trivial
  | call i c => exact ⟨trivial, fun _ => trivial⟩
  | crash i c ix => exact ⟨trivial, fun _ => trivial⟩

/-! ## What the operations do -/

section Mesh

variable [DecidableEq N] [Sha256] {pol : KvPolicy} {U : Set Row} {s s' : Mesh depth}

/-- What the operations of a mesh do. Connecting may fail, and a call runs alone. Nothing stops the
passes of a process that has died: the runs in which they take no further step are among all
runs. -/
def meshSem (pol : KvPolicy) : Sem (meshSig N) (Mesh depth)
  | .connect _ _ => fun s _ s' => s' = s
  | .sync i j o => fun s r s' => ∃ own,
    (∃ peer, syncSem pol o ⟨s i, s j⟩ r ⟨own, peer⟩) ∧ s' = Function.update s i own
  | .call i c => fun s r s' => ∃ own,
    Alone (storeSem (depth i) pol) (c.prog (s i).indexer) (s i) r own ∧ s' = Function.update s i own
  | .crash i c ix => fun s _ s' => ∃ kv,
    Torn pol c (s i) kv ∧ s' = Function.update s i (openStore (depth i) ix kv)

/-- A call, or a restart while it runs, changes the store of its node only. -/
theorem exists_called {o : MeshOp N} {r : o.Resp} (h : meshSem pol o s r s') {i : N} {c : StoreCall}
    (ho : o.storeCall = some (i, c)) :
    ∃ own, Called pol c (s i) own ∧ s' = Function.update s i own := by
  cases o with
  | connect i' j => cases ho
  | sync i' j o => cases ho
  | call i' c' =>
    cases ho
    obtain ⟨own, hrun, hs'⟩ := h
    exact ⟨own, .ended hrun, hs'⟩
  | crash i' c' ix =>
    cases ho
    obtain ⟨kv, htorn, hs'⟩ := h
    exact ⟨_, .torn ix htorn, hs'⟩

/-- The store stays consistent, and has grown. -/
def StoreGrows {L : LeafDepth} (U : Set Row) (s s' : SpatioTemporalStore L) : Prop :=
  Consistent U s → Consistent U s' ∧ Below itemDigest s.table s'.table

theorem StoreGrows.refl {L : LeafDepth} (s : SpatioTemporalStore L) : StoreGrows U s s :=
  fun h => ⟨h, .refl _⟩

theorem StoreGrows.trans {L : LeafDepth} {s s₁ s' : SpatioTemporalStore L}
    (h : StoreGrows U s s₁) (h' : StoreGrows U s₁ s') : StoreGrows U s s' := by
  intro hs
  obtain ⟨hs₁, hle⟩ := h hs
  obtain ⟨hs', hle'⟩ := h' hs₁
  exact ⟨hs', hle.trans hle'⟩

/-- All stores stay consistent, and have grown. -/
def MeshGrows (U : Set Row) (s s' : Mesh depth) : Prop := ∀ i, StoreGrows U (s i) (s' i)

/-- Where one node changes, the mesh grows when its store does. -/
theorem meshGrows_update {i : N} {own : SpatioTemporalStore (depth i)}
    (h : StoreGrows U (s i) own) : MeshGrows U s (Function.update s i own) := by
  intro j
  rcases eq_or_ne j i with rfl | hj
  · rwa [Function.update_self]
  · rw [Function.update_of_ne hj]
    exact .refl _

/-- Both sides of a round stay consistent, and have grown. -/
def PeersGrow {L L' : LeafDepth} (U : Set Row) (x x' : Peers L L') : Prop :=
  BothConsistent U x → Advanced U x x'

theorem gentle_peersGrow {L L' : LeafDepth} :
    Gentle U (PeersGrow U : Peers L L' → Peers L L' → Prop) where
  refl := fun _ => .refl
  advanced := fun _ _ h => h

/-- An operation of a round changes the own store only, and never shrinks its table. -/
theorem below_of_syncSem {L L' : LeafDepth} {o : SyncOp} {x x' : Peers L L'} {r : o.Resp}
    (h : syncSem pol o x r x') : x'.peer = x.peer ∧ Below itemDigest x.own.table x'.own.table := by
  cases o with
  | ingest k v =>
    have hcall : Alone (storeSem L pol) ((StoreCall.ingest k v).prog x.own.indexer) x.own r
      x'.own := h.2
    exact ⟨h.1, merge_below (c := .ingest k v) trivial hcall⟩
  | _ =>
    obtain ⟨rfl, -⟩ := h
    exact ⟨rfl, .refl _⟩

/-! ## A pass among the others -/

/-- **A round of a pass** is a round between two stores that others write to as well. -/
theorem run_via_roundOf {α : Type} {p : SyncProg α} {i j : N} {a : α}
    (h : Run (MeshGrows U) (moving (meshSem pol) (MeshGrows U)) (p.via (roundOf i j)) s a s') :
    Run (PeersGrow U) (syncSem pol) p ⟨s i, s j⟩ a ⟨s' i, s' j⟩ := by
  refine run_via (fun s : Mesh depth => (⟨s i, s j⟩ : Peers (depth i) (depth j))) ?_ ?_ ?_ h
  · intro x x₁ x' h h' hx
    have hx₁ := h hx
    exact hx₁.trans (h' hx₁.consistent)
  · intro t t' hgrow ht
    obtain ⟨hown, hle⟩ := hgrow i ht.own
    obtain ⟨hpeer, hle'⟩ := hgrow j ht.peer
    exact ⟨⟨hown, hpeer⟩, hle, hle'⟩
  · rintro o t r _ ⟨⟨own, ⟨peer, hop⟩, rfl⟩, -⟩
    obtain ⟨hpeer, hle⟩ := below_of_syncSem hop
    dsimp only at hpeer hle
    subst hpeer
    refine ⟨⟨own, t j⟩, hop, fun ht => ?_⟩
    rw [Function.update_self]
    rcases eq_or_ne j i with rfl | hj
    · -- a node that is its own peer
      rw [Function.update_self]
      exact ⟨⟨ht.own, ht.own⟩, .refl _, hle⟩
    · rw [Function.update_of_ne hj]
      exact .refl ht

/-- **A round dominates all that the peer held** when it began, if it ends well. -/
theorem run_syncOnce {L L' : LeafDepth} {R : Peers L L' → Peers L L' → Prop}
    (hU : Independent rowDigest U) (hR : Gentle U R) {x x' : Peers L L'} (hx : BothConsistent U x)
    {r : Except SyncError SyncStats} (h : Run R (syncSem pol) (syncOnce L) x r x') :
    ∀ stats, r = .ok stats → DominatesAll x'.own (x.peer.rows : Set Row) := by
  obtain ⟨x₁, response, x₂, hmove, ⟨rfl, hop⟩, hrest⟩ := h
  have h₁ := hR.advanced _ _ hmove hx
  rcases hop with rfl | ⟨status, rfl⟩
  · obtain ⟨-, hdom⟩ := run_pullFrom hU hR h₁.consistent.peer h₁.consistent (.refl _) hrest
    intro stats hr y hy
    obtain ⟨w, hw, hle⟩ := exists_mem_rows ((dominatesAll_rows x.peer y hy).mono h₁.peer)
    exact (hdom stats hr (y.1, w) hw).of_le hle
  · obtain ⟨-, rfl⟩ := hrest
    exact fun _ h => nomatch h

/-- The turn of one peer. -/
theorem run_syncPeer (hU : Independent rowDigest U) (hs : ∀ i, Consistent U (s i)) {i peer : N}
    {outcome : PeerOutcome}
    (h : Run (MeshGrows U) (moving (meshSem pol) (MeshGrows U)) (syncPeer (depth i) i peer) s
      outcome s') :
    ∀ stats, outcome = .synced stats → DominatesAll (s' i) ((s peer).rows : Set Row) := by
  obtain ⟨s₁, answer, s₂, hmove, ⟨hst, -⟩, hrest⟩ := h
  cases answer with
  | error err =>
    obtain ⟨-, rfl⟩ := hrest
    exact fun _ h => nomatch h
  | ok _ =>
    obtain rfl : s₂ = s₁ := hst
    change Run _ _ ((syncOnce (depth i)).via (roundOf i peer) >>= fun r =>
      pure (PeerOutcome.ofRound r)) s₂ outcome s' at hrest
    obtain ⟨r, s₃, hround, hmove', rfl⟩ := run_bind (fun _ _ => .refl _) hrest
    have hs₂ : ∀ j, Consistent U (s₂ j) := fun j => (hmove j (hs j)).1
    have hdom := run_syncOnce hU gentle_peersGrow (x := ⟨s₂ i, s₂ peer⟩)
      ⟨hs₂ i, hs₂ peer⟩ (run_via_roundOf hround)
    intro stats hstats y hy
    cases r with
    | error err => cases hstats
    | ok stats' =>
      obtain ⟨w, hw, hle⟩ := exists_mem_rows
        ((dominatesAll_rows (s peer) y hy).mono (hmove peer (hs peer)).2)
      have hgrow : MeshGrows U s₂ s₃ := Run.moves (fun _ _ _ h h' j => (h j).trans (h' j)) hround
      have hs₃ := (hgrow i (hs₂ i)).1
      exact ((hdom stats' rfl (y.1, w) hw).of_le hle).mono (hmove' i hs₃).2

/-- **A pass dominates what its peers held** when it began, those from which a round ended well. -/
theorem run_syncPeers (hU : Independent rowDigest U) (hs : ∀ i, Consistent U (s i)) {i : N}
    {peers : List N} {l : List (N × PeerOutcome)}
    (h : Run (MeshGrows U) (moving (meshSem pol) (MeshGrows U)) (syncPeers (depth i) i peers) s l
      s') :
    ∀ j stats, (j, .synced stats) ∈ l → DominatesAll (s' i) ((s j).rows : Set Row) := by
  have trans : ∀ s s₁ s' : Mesh depth, MeshGrows U s s₁ → MeshGrows U s₁ s' → MeshGrows U s s' :=
    fun _ _ _ h h' j => (h j).trans (h' j)
  induction peers generalizing s s' l with
  | nil =>
    obtain ⟨-, rfl⟩ := h
    exact fun _ _ hj => nomatch hj
  | cons peer peers ih =>
    obtain ⟨outcome, s₁, hone, hmore⟩ := run_bind (fun _ _ => .refl _) h
    obtain ⟨l', s₂, hrest, hmove, rfl⟩ := run_bind (fun _ _ => .refl _) hmore
    have hgrow := Run.moves trans hone
    have hs₁ : ∀ j, Consistent U (s₁ j) := fun j => (hgrow j (hs j)).1
    have hgrow' : MeshGrows U s₁ s' := trans _ _ _ (Run.moves trans hrest) hmove
    intro j stats hj
    rcases List.mem_cons.1 hj with hj | hj
    · cases hj
      exact (run_syncPeer hU hs hone stats rfl).mono (hgrow' i (hs₁ i)).2
    · intro y hy
      obtain ⟨w, hw, hle⟩ := exists_mem_rows
        ((dominatesAll_rows (s j) y hy).mono (hgrow j (hs j)).2)
      have hs₂ := (Run.moves trans hrest i (hs₁ i)).1
      have hdom := ih hs₁ hrest j stats hj (y.1, w) hw
      exact (hdom.of_le hle).mono (hmove i hs₂).2

end Mesh

end InterstellarDb
