import InterstellarDb.Foundations.Gossip
import InterstellarDb.Server.SyncTask
import InterstellarDb.Store.Scan

/-!
# Eventual consistency of a mesh

A *phase* of a mesh is a run in which every node begins and ends a pass that pulls from each of its
peers without an error (`Phase`). What else happens in it is free: passes that are under way before
or after, rounds that fail, unreachable peers, calls of clients, processes that die and restart.

* Stores stay consistent and durable and only grow, and all rows in play are among those that some
  store dominates (`InPlay`).
* After `k` phases a node dominates what the nodes within `k` hops held (`dominates_of_phases`).
* Once no new rows are written, a mesh of `n` nodes that all reach each other has converged after
  `n - 1` phases: all nodes hold the same rows, the join of all tables, answer all queries alike,
  and every further round finds nothing to fetch (`converged_of_phases`).
-/

namespace InterstellarDb

open Atomic GreatestWins SetFold Gossip

/-! ## Rows in play -/

/-- A row of a stream is one of its items. -/
theorem exists_item_of_goodRows {items : List (Except Status SyncRow)} {y : Row}
    (hy : y ∈ goodRows items) : .ok ⟨y.1.bytes, y.2⟩ ∈ items := by
  induction items with
  | nil => cases hy
  | cons item items ih =>
    rw [goodRows] at hy
    cases hitem : rowOfItem item with
    | none =>
      rw [hitem] at hy
      cases hy
    | some x =>
      rw [hitem] at hy
      rcases List.mem_cons.1 hy with rfl | hy
      · cases item with
        | error status => cases hitem
        | ok row =>
          obtain ⟨key, hkey, rfl⟩ := Option.map_eq_some_iff.1 hitem
          rw [Key.tryFrom_eq_some] at hkey
          rw [← hkey]
          exact List.mem_cons_self ..
      · exact List.mem_cons_of_mem _ (ih hy)

section Mesh

variable {N : Type} {depth : N → LeafDepth} [Sha256] {pol : KvPolicy} {U : Set Row}
  {s s' t t' : Mesh depth}

/-- The rows of `U` that some store dominates. -/
def Known (U : Set Row) (t : Mesh depth) : Set Row :=
  {y | y ∈ U ∧ ∃ j, Dominates itemDigest (t j).table y.1 y.2}

theorem Known.mono (h : ∀ i, Below itemDigest (t i).table (t' i).table) :
    Known U t ⊆ Known U t' := by
  rintro y ⟨hy, j, hdom⟩
  exact ⟨hy, j, hdom.mono (h j)⟩

/-- The rows of consistent stores are known. -/
theorem rows_subset_known (hs : ∀ i, Consistent U (s i)) (i : N) :
    ((s i).rows : Set Row) ⊆ Known U s :=
  fun y hy => ⟨(hs i).rows hy, i, dominatesAll_rows (s i) y hy⟩

/-- The stores are consistent and durable, and all rows that are stored, or received by a round
under way, are in `B`. -/
structure InPlay (U B : Set Row) (s : Mesh depth) (gs : List Ledger) : Prop where
  consistent : ∀ i, Consistent U (s i)
  durable : ∀ i, Durable (s i)
  rows : ∀ i, ((s i).rows : Set Row) ⊆ B
  received : ∀ g ∈ gs, ∀ y ∈ g.received, y ∈ B

variable {B B' : Set Row} {l₁ l₂ gs : List Ledger} {g g' : Ledger}

theorem InPlay.mono (h : InPlay U B s gs) (hB : B ⊆ B') : InPlay U B' s gs where
  consistent := h.consistent
  durable := h.durable
  rows := fun i => (h.rows i).trans hB
  received := fun g hg y hy => hB (h.received g hg y hy)

/-- One thread goes on to another ledger. -/
theorem InPlay.ledger (h : InPlay U B s (l₁ ++ g :: l₂))
    (hg : ∀ y ∈ g'.received, y ∈ g.received ∨ y ∈ B) : InPlay U B s (l₁ ++ g' :: l₂) where
  consistent := h.consistent
  durable := h.durable
  rows := h.rows
  received := by
    intro x hx y hy
    have hmem : x = g' ∨ x ∈ l₁ ++ g :: l₂ := by
      simp only [List.mem_append, List.mem_cons] at hx ⊢
      tauto
    rcases hmem with rfl | hx
    · rcases hg y hy with hy | hy
      · exact h.received g (by simp) y hy
      · exact hy
    · exact h.received x hx y hy

/-- The rows that a peer streams are rows of its store. -/
theorem mem_rows_of_goodRows {L L' : LeafDepth} {x x' : Peers L L'} {start stop : Bytes}
    {items : List (Except Status SyncRow)}
    (h : syncSem pol (.fetch start stop) x (.ok items) x') {y : Row} (hy : y ∈ goodRows items) :
    y ∈ x.peer.rows := by
  obtain ⟨-, ⟨rows, items', hrows, hitems, heq⟩ | ⟨_, heq⟩⟩ := h
  · obtain rfl := Except.ok.inj heq
    have hitem := exists_item_of_goodRows hy
    have hrow : (⟨y.1.bytes, y.2⟩ : SyncRow) ∈ rows := by
      rcases hitems with rfl | ⟨n, status, rfl⟩
      · simpa using hitem
      · rcases List.mem_append.1 hitem with hitem | hitem
        · obtain ⟨z, hz, hzrow⟩ := List.mem_map.1 hitem
          obtain rfl := Except.ok.inj hzrow
          exact List.mem_of_mem_take hz
        · cases List.mem_singleton.1 hitem
    rw [SyncService.fetch] at hrows
    split at hrows
    · cases hrows
    · split at hrows
      · cases hrows
      · split_ifs at hrows
        obtain rfl := Except.ok.inj hrows
        obtain ⟨z, hz, hzrow⟩ := List.mem_map.1 hrow
        simp only [SyncRow.mk.injEq] at hzrow
        obtain rfl : z = y := Prod.ext (Key.ext hzrow.1) hzrow.2
        exact (mem_scanRange.1 hz).1
  · cases heq

section Step

variable [DecidableEq N]

/-- One store changes. -/
theorem InPlay.update (h : InPlay U B s gs) {i : N} {own : SpatioTemporalStore (depth i)}
    (hown : Consistent U own) (hdurable : Durable own) (hrows : (own.rows : Set Row) ⊆ B) :
    InPlay U B (Function.update s i own) gs where
  consistent := by
    intro j
    rcases eq_or_ne j i with rfl | hj
    · rwa [Function.update_self]
    · rw [Function.update_of_ne hj]
      exact h.consistent j
  durable := by
    intro j
    rcases eq_or_ne j i with rfl | hj
    · rwa [Function.update_self]
    · rw [Function.update_of_ne hj]
      exact h.durable j
  rows := by
    intro j
    rcases eq_or_ne j i with rfl | hj
    · rwa [Function.update_self]
    · rw [Function.update_of_ne hj]
      exact h.rows j
  received := h.received

/-- **An operation that the protocol allows** keeps the rows in play within `B`, and grows the
mesh, when the calls of clients join rows of `B`. -/
theorem InPlay.step (hfew : Few U) (hB : B ⊆ U)
    (h : InPlay U B s (l₁ ++ g :: l₂)) {o : MeshOp N} {r : o.Resp}
    (hallow : (passProtocol depth).allow g o)
    (hcall : ∀ i c, o.storeCall = some (i, c) → c.Joins U (s i) ∧ ((s' i).rows : Set Row) ⊆ B)
    (hop : meshSem pol o s r s') :
    InPlay U B s' (l₁ ++ g.afterOp o r :: l₂) ∧ MeshGrows U s s' := by
  have hcalled : ∀ i c, o.storeCall = some (i, c) → g.afterOp o r = .empty →
      InPlay U B s' (l₁ ++ g.afterOp o r :: l₂) ∧ MeshGrows U s s' := by
    intro i c ho hg
    obtain ⟨own, hown, rfl⟩ := exists_called hop ho
    obtain ⟨hjoins, hrows⟩ := hcall i c ho
    rw [Function.update_self] at hrows
    have hjoined := hown.joined hfew (h.durable i) (h.consistent i).rows hjoins
    rw [hg]
    refine ⟨(h.update hjoined.consistent hjoined.durable hrows).ledger fun y hy =>
      absurd hy List.not_mem_nil, meshGrows_update fun _ => ?_⟩
    exact ⟨hjoined.consistent, hjoined.below⟩
  cases o with
  | connect i j =>
    obtain rfl : s' = s := hop
    exact ⟨h.ledger fun y hy => absurd hy List.not_mem_nil, fun _ => .refl _⟩
  | call i c => exact hcalled i c rfl rfl
  | crash i c ix => exact hcalled i c rfl rfl
  | sync i j o =>
    obtain ⟨own, ⟨peer, hop⟩, rfl⟩ := hop
    have hreads : (∀ y ∈ (g.next o r).received, y ∈ g.received ∨ y ∈ B) → own = s i →
        InPlay U B (Function.update s i own) (l₁ ++ g.next o r :: l₂) ∧
          MeshGrows U s (Function.update s i own) := by
      rintro hg rfl
      rw [Function.update_eq_self]
      exact ⟨h.ledger hg, fun _ => .refl _⟩
    cases o with
    | roots =>
      refine hreads (fun y hy => ?_) (congrArg Peers.own hop.1)
      cases r with
      | error status => exact .inl hy
      | ok response => exact .inl hy
    | children e d p =>
      refine hreads (fun y hy => ?_) (congrArg Peers.own hop.1)
      cases r with
      | error status => exact .inl hy
      | ok response => exact .inl hy
    | nodeHash e d p => exact hreads (fun y hy => .inl hy) (congrArg Peers.own hop.1)
    | fetch start stop =>
      refine hreads (fun y hy => ?_) (congrArg Peers.own hop.1)
      cases r with
      | error status => exact .inl hy
      | ok items =>
        rcases List.mem_append.1 hy with hy | hy
        · exact .inl hy
        · split_ifs at hy
          · exact .inr (h.rows j (mem_rows_of_goodRows hop hy))
          · cases hy
    | ingest k v =>
      obtain ⟨rest, hreceived⟩ := hallow.2
      have hmem : (k, v) ∈ B := h.received g (by simp) _ (by simp [hreceived])
      have hrun : Alone (storeSem (depth i) pol) ((StoreCall.ingest k v).prog (s i).indexer) (s i)
        r own := hop.2
      have hjoins : (StoreCall.ingest k v).Joins U (s i) := by
        refine ⟨False.elim, fun x hx => ?_⟩
        obtain rfl := List.mem_singleton.1 hx
        exact hB hmem
      have hjoined := joined_of_alone hfew (h.durable i) (h.consistent i).rows hjoins hrun
      have hrows : (own.rows : Set Row) ⊆ B := by
        intro y hy
        rcases hjoined.rows y hy with hy | hy
        · exact h.rows i hy
        · obtain rfl := List.mem_singleton.1 hy
          exact hmem
      refine ⟨(h.update hjoined.consistent hjoined.durable hrows).ledger fun y hy => ?_,
        meshGrows_update fun _ => ⟨hjoined.consistent, hjoined.below⟩⟩
      cases r with
      | error err => exact .inl hy
      | ok changed => exact .inl hy

/-! ## Pools -/

/-- A mesh and its threads. -/
abbrev MeshPool (depth : N → LeafDepth) := Pool (meshSig N) (Mesh depth) (Ended N)

/-- The threads keep to their protocol, and `J` holds of the stores and the ledgers. -/
abbrev MeshTracked (J : Mesh depth → List Ledger → Prop) (c : MeshPool depth) : Prop :=
  Tracked (P := passProtocol depth) (fun _ _ => True) (· = Ledger.empty) J c

/-- The next operation of the thread, if it runs a call, whole or not, runs one that meets the
condition. -/
def CallsMeet (C : Mesh depth → N → StoreCall → Prop) (s : Mesh depth)
    (t : Thread (meshSig N) (Ended N)) : Prop :=
  ∀ o k i c, t.prog = .call o k → o.storeCall = some (i, c) → C s i c

/-- The rows in play stay within `B`, which grows with the stores, when the calls of clients meet
the condition `C`. -/
structure Bounds (U : Set Row) (C : Mesh depth → N → StoreCall → Prop)
    (B : Mesh depth → Set Row) : Prop where
  subset : ∀ s, B s ⊆ U
  mono : ∀ s s', (∀ i, Below itemDigest (s i).table (s' i).table) → B s ⊆ B s'
  joins : ∀ s i c, C s i c → c.Joins U (s i)
  rows : ∀ s i c own, C s i c → (∀ i, ((s i).rows : Set Row) ⊆ B s) → Joined U c (s i) own →
    (own.rows : Set Row) ⊆ B (Function.update s i own)

variable {C : Mesh depth → N → StoreCall → Prop} {bound : Mesh depth → Set Row}
  {peers : N → List N} {c c' : MeshPool depth}

/-- One step of a mesh. -/
theorem Bounds.step (hB : Bounds U C bound) (hfew : Few U)
    (h : Pool.Step (meshSem pol) (MeshStart depth peers) (CallsMeet C) c c')
    (hc : MeshTracked (fun s gs => InPlay U (bound s) s gs) c) :
    MeshTracked (fun s gs => InPlay U (bound s) s gs) c' ∧ MeshGrows U c.state c'.state := by
  have hbase : MeshTracked (fun s gs => InPlay U (bound s) s gs ∧ MeshGrows U c.state s) c := by
    obtain ⟨l, hl, ht, hJ⟩ := hc
    exact ⟨l, hl, ht, hJ, fun _ => .refl _⟩
  suffices hnext : MeshTracked (fun s gs => InPlay U (bound s) s gs ∧ MeshGrows U c.state s) c' by
    obtain ⟨l, hl, ht, hJ, hgrow⟩ := hnext
    exact ⟨⟨l, hl, ht, hJ⟩, hgrow⟩
  refine Tracked.step ?_ ?_ h hbase
  · rintro s l₁ g l₂ past o k r s' ⟨hJ, hgrow⟩ - hC hallow hop
    have hcall : ∀ i c, o.storeCall = some (i, c) →
        c.Joins U (s i) ∧ ((s' i).rows : Set Row) ⊆ bound s' := by
      intro i c ho
      have hmeets : C s i c := hC o k i c rfl ho
      obtain ⟨own, hown, rfl⟩ := exists_called hop ho
      have hjoins := hB.joins s i c hmeets
      refine ⟨hjoins, ?_⟩
      rw [Function.update_self]
      exact hB.rows s i c own hmeets hJ.rows
        (hown.joined hfew (hJ.durable i) (hJ.consistent i).rows hjoins)
    obtain ⟨-, hstep⟩ := (hJ.mono (hB.subset s)).step hfew subset_rfl hallow
      (fun i c ho => ⟨(hcall i c ho).1, (hcall i c ho).2.trans (hB.subset s')⟩) hop
    have hle : ∀ i, Below itemDigest (s i).table (s' i).table := fun i =>
      (hstep i (hJ.consistent i)).2
    obtain ⟨hJ', -⟩ := (hJ.mono (hB.mono s s' hle)).step hfew (hB.subset s') hallow hcall hop
    exact ⟨hJ', fun i => (hgrow i).trans (hstep i)⟩
  · intro p hp
    refine ⟨Ledger.empty, rfl, hp.follows, ?_⟩
    rintro s gs ⟨hJ, hgrow⟩
    refine ⟨⟨hJ.consistent, hJ.durable, hJ.rows, fun g hg y hy => ?_⟩, hgrow⟩
    rcases List.mem_append.1 hg with hg | hg
    · exact hJ.received g hg y hy
    · obtain rfl := List.mem_singleton.1 hg
      exact absurd hy List.not_mem_nil

theorem Bounds.moves (hB : Bounds U C bound) (hfew : Few U) :
    Pool.Moves (meshSem pol) (MeshStart depth peers) (CallsMeet C)
      (MeshTracked fun s gs => InPlay U (bound s) s gs) (MeshGrows U) where
  refl := fun _ _ => .refl _
  trans := fun _ _ _ h h' i => (h i).trans (h' i)
  step := fun _ _ h hc => hB.step hfew h hc

/-! ## Phases -/

/-- A run in which every node begins and ends passes that pull from each of its peers without an
error. -/
structure Phase (pol : KvPolicy) (peers : N → List N) (C : Mesh depth → N → StoreCall → Prop)
    (c c' : MeshPool depth) : Prop where
  runs : Pool.Runs (meshSem pol) (MeshStart depth peers) (CallsMeet C) c c'
  passes : ∀ i, ∀ j ∈ peers i, ∃ t ∈ c'.threads.drop c.threads.length, ∃ l stats,
    t.prog = .ret (.pass i l) ∧ (j, .synced stats) ∈ l

/-- The rows that a node dominates. -/
def knows (s : Mesh depth) (i : N) : Set Row := {y | Dominates itemDigest (s i).table y.1 y.2}

/-- **A phase spreads the knowledge of every node** to those that pull from it. -/
theorem Phase.round (hB : Bounds U C bound) (hU : Independent rowDigest U) (hfew : Few U)
    (h : Phase pol peers C c c') (hc : MeshTracked (fun s gs => InPlay U (bound s) s gs) c) :
    MeshTracked (fun s gs => InPlay U (bound s) s gs) c' ∧
      Round (fun i j => j ∈ peers i) (knows c.state) (knows c'.state) := by
  obtain ⟨hc', hgrow⟩ := (hB.moves hfew).runs h.runs hc
  have hs : ∀ i, Consistent U (c.state i) := by
    obtain ⟨l, -, -, hJ⟩ := hc
    exact hJ.consistent
  refine ⟨hc', fun i y hy => hy.mono (hgrow i (hs i)).2, fun i j hj y hy => ?_⟩
  obtain ⟨t, ht, l, stats, hret, hsynced⟩ := h.passes i j hj
  obtain ⟨p, hp, hrun⟩ := h.runs.exists_run (hB.moves hfew) hc ht hret
  cases hp with
  | tick i' =>
    obtain ⟨l', s₁, hpass, hmove, hended⟩ := run_bind (fun _ _ => .refl _) hrun
    cases hended
    obtain ⟨w, hw, hle⟩ := exists_mem_rows hy
    have hs₁ := (Run.moves (fun _ _ _ h h' i => (h i).trans (h' i)) hpass i (hs i)).1
    have hdom := run_syncPeers hU hs hpass j stats hsynced (y.1, w) hw
    exact (hdom.of_le hle).mono (hmove i hs₁).2
  | call i' call =>
    obtain ⟨r, s₁, -, -, hended⟩ := run_bind (fun _ _ => .refl _) hrun
    cases hended
  | crash i' call ix =>
    obtain ⟨r, s₁, -, -, hended⟩ := run_bind (fun _ _ => .refl _) hrun
    cases hended

/-! ## The calls of clients -/

/-- The call joins rows of `U` into the store of its node. -/
def CallsJoin (U : Set Row) (s : Mesh depth) (i : N) (c : StoreCall) : Prop := c.Joins U (s i)

/-- The call seals epochs, or ingests a row of `U` that some node dominates. -/
def NothingNew (U : Set Row) (s : Mesh depth) (_ : N) (c : StoreCall) : Prop :=
  (∃ k v, c = .ingest k v ∧ (k, v) ∈ U ∧ ∃ j, Dominates itemDigest (s j).table k v) ∨
    ∃ now grace, c = .sealSettledEpochs now grace

/-- While rows are merged, all rows in play are dominated by some store. -/
theorem bounds_known : Bounds U (CallsJoin U) (Known U : Mesh depth → Set Row) where
  subset := fun _ _ hy => hy.1
  mono := fun _ _ h => Known.mono h
  joins := fun _ _ _ h => h
  rows := by
    intro s i c own _ _ hown y hy
    refine ⟨hown.consistent.rows hy, i, ?_⟩
    rw [Function.update_self]
    exact dominatesAll_rows own y hy

/-- Once no new rows are written, all rows in play stay dominated by the stores of that moment. -/
theorem bounds_start (t : Mesh depth) :
    Bounds U (NothingNew U) fun _ : Mesh depth => Known U t where
  subset := fun _ _ hy => hy.1
  mono := fun _ _ _ => subset_rfl
  joins := by
    rintro s i _ (⟨k, v, rfl, hU, -⟩ | ⟨now, grace, rfl⟩)
    · refine ⟨False.elim, fun x hx => ?_⟩
      obtain rfl := List.mem_singleton.1 hx
      exact hU
    · exact ⟨False.elim, fun x hx => absurd hx List.not_mem_nil⟩
  rows := by
    intro s i c own hC hs hown y hy
    rcases hown.rows y hy with hy | hy
    · exact hs i hy
    · rcases hC with ⟨k, v, rfl, hU, j, hdom⟩ | ⟨now, grace, rfl⟩
      · obtain rfl := List.mem_singleton.1 hy
        -- what the node holds in place of the row was known at the start
        obtain ⟨w, hw, hle⟩ := exists_mem_rows hdom
        obtain ⟨-, j', hdom'⟩ := hs j hw
        exact ⟨hU, j', hdom'.of_le hle⟩
      · cases hy

omit [DecidableEq N] in
/-- A mesh of consistent and durable stores on which nothing runs yet. -/
theorem inPlay_start (hs : ∀ i, Consistent U (s i)) (hd : ∀ i, Durable (s i)) :
    MeshTracked (fun s gs => InPlay U (Known U s) s gs) (⟨s, []⟩ : MeshPool depth) :=
  tracked_nil ⟨hs, hd, rows_subset_known hs, fun _ hg => absurd hg List.not_mem_nil⟩

/-! ## Eventual consistency -/

/-- **No write is lost.** The stores of a mesh are consistent and durable at the start, and no
non-empty set of the rows that are ever written folds to `0`. Passes of all nodes run in any
interleaving, and so do whole calls that join rows or seal; rounds may fail, peers may be
unreachable, and processes may die at any moment and restart. After `k` phases a node dominates all rows that the
nodes within `k` hops of it held before them, and its rows are among those ever written. -/
theorem dominates_of_phases (hU : Independent rowDigest U) (hfew : Few U)
    (hs : ∀ i, Consistent U (s i)) (hd : ∀ i, Durable (s i)) {k : ℕ}
    (h : Pool.Runs (meshSem pol) (MeshStart depth peers) (CallsMeet (CallsJoin U)) ⟨s, []⟩ c)
    (hk : Rounds (Phase pol peers (CallsJoin U)) k c c') :
    (∀ i j, Within (fun i j => j ∈ peers i) k i j →
      DominatesAll (c'.state i) ((c.state j).rows : Set Row)) ∧
    ∀ i, Consistent U (c'.state i) ∧ Durable (c'.state i) := by
  have hB : Bounds U (CallsJoin U) (Known U : Mesh depth → Set Row) := bounds_known
  have hc := ((hB.moves hfew).runs h (inPlay_start hs hd)).1
  obtain ⟨⟨l, -, -, hJ⟩, hspread⟩ := hk.spreads (fun _ _ hphase => hphase.round hB hU hfew) hc
  refine ⟨fun i j hw y hy => ?_, fun i => ⟨hJ.consistent i, hJ.durable i⟩⟩
  exact hspread i j hw (dominatesAll_rows (c.state j) y hy)

/-- All nodes hold the same rows, the join of what they held before, and answer queries alike. -/
structure MeshConverged (pol : KvPolicy) (s s' : Mesh depth) : Prop where
  sameRows : ∀ i j, (s' i).rows = (s' j).rows
  above : ∀ i j, Below itemDigest (s j).table (s' i).table
  only : ∀ i, ∀ y ∈ (s' i).rows, ∃ j, y ∈ (s j).rows
  nodeHash : ∀ i j e d p, (depth i).Valid d → (depth j).Valid d → IsPrefix d p →
    (s' i).merkle.nodeHash e d p = (s' j).merkle.nodeHash e d p
  answers : ∀ i j, (s' i).indexer = (s' j).indexer → ∀ cx cy cz radius startSecs endSecs,
    checkedQueryWindow (s' i) cx cy cz radius startSecs endSecs =
      checkedQueryWindow (s' j) cx cy cz radius startSecs endSecs
  quiet : ∀ i j, Quiet pol (s' i) (s' j)

omit [DecidableEq N] in
/-- Consistent stores that all dominate what some of them held, and hold nothing beyond it, have
converged. -/
theorem meshConverged (hU : Independent rowDigest U) (hs' : ∀ i, Consistent U (s' i))
    (habove : ∀ i j, DominatesAll (s' i) ((s j).rows : Set Row))
    (hknown : ∀ i, ((s' i).rows : Set Row) ⊆ Known U s) (hs : ∀ i, Consistent U (s i)) :
    MeshConverged pol s s' := by
  have hdom : ∀ i, ∀ y ∈ Known U s, Dominates itemDigest (s' i).table y.1 y.2 := by
    rintro i y ⟨-, j, hy⟩
    obtain ⟨w, hw, hle⟩ := exists_mem_rows hy
    exact (habove i j (y.1, w) hw).of_le hle
  -- the same key has the same payload everywhere, as each dominates the other
  have hmem : ∀ i j, ∀ y ∈ (s' i).rows, y ∈ (s' j).rows := by
    intro i j y hy
    obtain ⟨w, hw, hle⟩ := exists_mem_rows (hdom j y (hknown i hy))
    obtain ⟨v, hv, hle'⟩ := exists_mem_rows (hdom i (y.1, w) (hknown j hw))
    obtain rfl : v = y.2 := Option.some.inj ((mem_rows.1 hv).symm.trans (mem_rows.1 hy))
    have heq := hU.injOn ((hs' i).rows hy) ((hs' j).rows hw) (le_antisymm hle hle')
    rw [heq]
    exact hw
  have hrows : ∀ i j, (s' i).rows = (s' j).rows := fun i j =>
    Finset.Subset.antisymm (hmem i j) (hmem j i)
  have hnode : ∀ i j e d p, (depth i).Valid d → (depth j).Valid d → IsPrefix d p →
      (s' i).merkle.nodeHash e d p = (s' j).merkle.nodeHash e d p := by
    intro i j e d p hd hd' hp
    rw [(hs' i).hashes e d p hd hp, (hs' j).hashes e d p hd' hp, hrows i j]
  refine ⟨hrows, fun i j k v hv => habove i j (k, v) (mem_rows.2 hv), fun i y hy => ?_, hnode,
    fun i j hix => checkedQueryWindow_congr (hrows i j) hix, fun i j => quiet_of_roots fun e => ?_⟩
  swap
  · exact hnode i j e 0 0 (depth i).valid_zero (depth j).valid_zero isPrefix_zero
  obtain ⟨hyU, j, hdomj⟩ := hknown i hy
  obtain ⟨w, hw, hle⟩ := exists_mem_rows hdomj
  obtain ⟨v, hv, hle'⟩ := exists_mem_rows (habove i j (y.1, w) hw)
  obtain rfl : v = y.2 := Option.some.inj ((mem_rows.1 hv).symm.trans (mem_rows.1 hy))
  have heq := hU.injOn hyU ((hs j).rows hw) (le_antisymm hle hle')
  exact ⟨j, heq ▸ hw⟩

/-- **The mesh converges.** The stores are consistent and durable at the start, no non-empty set of
the rows that are ever written folds to `0`, and every node reaches every other one along peers.
Passes, whole calls that join rows and restarts have run in any interleaving up to `c`, where rounds
may still be under way. If from then on no new rows are written, then after one phase less than there are nodes
all nodes hold the same rows, whatever processes die and restart meanwhile: those with the greatest
digests of all that were held at `c`. -/
theorem converged_of_phases [Fintype N] (hU : Independent rowDigest U) (hfew : Few U)
    (hs : ∀ i, Consistent U (s i)) (hd : ∀ i, Durable (s i))
    (hreach : ∀ i j, Relation.ReflTransGen (fun i j => j ∈ peers i) i j)
    (h : Pool.Runs (meshSem pol) (MeshStart depth peers) (CallsMeet (CallsJoin U)) ⟨s, []⟩ c)
    (hk : Rounds (Phase pol peers (NothingNew U)) (Fintype.card N - 1) c c') :
    MeshConverged pol c.state c'.state := by
  have hmerge : Bounds U (CallsJoin U) (Known U : Mesh depth → Set Row) := bounds_known
  have hc := ((hmerge.moves hfew).runs h (inPlay_start hs hd)).1
  have hstart : ∀ i, Consistent U (c.state i) := by
    obtain ⟨l, -, -, hJ⟩ := hc
    exact hJ.consistent
  have hB : Bounds U (NothingNew U) fun _ => Known U c.state := bounds_start c.state
  have hc' : MeshTracked (fun s gs => InPlay U (Known U c.state) s gs) c := hc
  obtain ⟨⟨l, -, -, hJ⟩, hspread⟩ := hk.spreads (fun _ _ hphase => hphase.round hB hU hfew) hc'
  refine meshConverged hU hJ.consistent (fun i j y hy => ?_) hJ.rows hstart
  exact hspread i j (within_card (hreach i j)) (dominatesAll_rows (c.state j) y hy)

end Step

end Mesh

section Sample

local instance eventualSha : Sha256 := sampleDigests

/-- The leaf depths of a mesh of two. -/
abbrev pairDepth : Bool → LeafDepth := fun _ => merkleLeafDepth

/-- The operations of passes. -/
def OfPass (o : MeshOp Bool) : Prop := o.storeCall = none

theorem callsMeet_of_pass {C : Mesh pairDepth → Bool → StoreCall → Prop} (s : Mesh pairDepth)
    (past : List (Σ o : MeshOp Bool, o.Resp)) (o : MeshOp Bool)
    (k : o.Resp → Prog (meshSig Bool) (Ended Bool)) (ho : OfPass o) :
    CallsMeet C s ⟨past, .call o k⟩ := by
  intro o' k' i c heq hcall
  cases heq
  rw [show o.storeCall = none from ho] at hcall
  cases hcall

/-- A tick of a node with one other peer, in which nothing fails, on a mesh of two. -/
theorem exists_tick {s : Mesh pairDepth} {i : Bool} {stats : SyncStats}
    {x : Peers merkleLeafDepth merkleLeafDepth} (ts : List (Thread (meshSig Bool) (Ended Bool)))
    (C : Mesh pairDepth → Bool → StoreCall → Prop)
    (h : Alone (syncSem .reliable) (syncOnce merkleLeafDepth) ⟨s i, s !i⟩ (.ok stats) x) :
    ∃ s' past, Pool.Runs (meshSem .reliable) (MeshStart pairDepth fun i => [!i]) (CallsMeet C)
      ⟨s, ts⟩ ⟨s', ts ++ [⟨past, .ret (.pass i [(!i, .synced stats)])⟩]⟩ ∧ s' i = x.own ∧
        s' (!i) = x.peer := by
  have hne : (!i) ≠ i := by simp
  obtain ⟨s', hround, hview⟩ := exists_alone_via (e := roundOf i !i)
    (meshSem .reliable : Sem (meshSig Bool) (Mesh pairDepth))
    (fun s : Mesh pairDepth => (⟨s i, s !i⟩ : Peers merkleLeafDepth merkleLeafDepth)) (by
      rintro o t r ⟨own, peer⟩ hop
      obtain rfl : peer = t !i := (below_of_syncSem hop).1
      refine ⟨r, Function.update t i own, ⟨own, ⟨_, hop⟩, rfl⟩, rfl, ?_⟩
      rw [Function.update_self, Function.update_of_ne hne]) h
  have hturn : Alone (meshSem .reliable : Sem _ (Mesh pairDepth)) (syncPeer merkleLeafDepth i !i) s
      (.synced stats) s' := by
    refine Atomic.alone_call.2 ⟨.ok (), s, rfl, ?_⟩
    change Alone _ ((syncOnce merkleLeafDepth).via (roundOf i !i) >>= fun r =>
      pure (PeerOutcome.ofRound r)) s _ s'
    exact alone_bind.2 ⟨_, _, hround, alone_ret.2 ⟨rfl, rfl⟩⟩
  have hpass : Alone (meshSem .reliable : Sem _ (Mesh pairDepth))
      (syncPeers merkleLeafDepth i [!i] >>= fun l => pure (Ended.pass i l)) s
      (.pass i [(!i, .synced stats)]) s' := by
    refine alone_bind.2 ⟨_, _, alone_bind.2 ⟨_, _, hturn, ?_⟩, alone_ret.2 ⟨rfl, rfl⟩⟩
    exact alone_bind.2 ⟨_, _, alone_ret.2 ⟨rfl, rfl⟩, alone_ret.2 ⟨rfl, rfl⟩⟩
  have hturnOps : Follows (.only OfPass) (fun _ _ => True) ()
      (syncPeer merkleLeafDepth i !i) := by
    refine ⟨rfl, fun answer => ?_⟩
    cases answer with
    | error err => trivial
    | ok _ => exact (follows_only_via (fun _ => rfl) _).bind fun _ _ _ => trivial
  have hturnsOps : Follows (.only OfPass) (fun _ _ => True) ()
      (syncPeers merkleLeafDepth i [!i]) :=
    hturnOps.bind fun _ _ _ => trivial
  have hops : Follows (.only OfPass) (fun _ _ => True) ()
      (syncPeers merkleLeafDepth i [!i] >>= fun l => pure (Ended.pass i l)) :=
    hturnsOps.bind fun _ _ _ => trivial
  have hstart : MeshStart pairDepth (fun i => [!i])
      (syncPeers merkleLeafDepth i [!i] >>= fun l => pure (Ended.pass i l)) := .tick i
  obtain ⟨past, hruns⟩ := Pool.runs_of_alone callsMeet_of_pass ts hstart hops hpass
  exact ⟨s', past, hruns, congrArg Peers.own hview, congrArg Peers.peer hview⟩

/-- One tick of each node is a phase. -/
theorem exists_phase {s : Mesh pairDepth} {stats stats' : SyncStats}
    {x y : Peers merkleLeafDepth merkleLeafDepth}
    (ts : List (Thread (meshSig Bool) (Ended Bool)))
    (C : Mesh pairDepth → Bool → StoreCall → Prop)
    (h : Alone (syncSem .reliable) (syncOnce merkleLeafDepth) ⟨s false, s true⟩ (.ok stats) x)
    (h' : Alone (syncSem .reliable) (syncOnce merkleLeafDepth) ⟨x.peer, x.own⟩ (.ok stats') y) :
    ∃ ts', Phase .reliable (fun i => [!i]) C ⟨s, ts⟩ ⟨fun i => cond i y.own y.peer, ts'⟩ := by
  obtain ⟨s₁, past, hruns, hown, hpeer⟩ := exists_tick (i := false) ts C h
  rw [← hown, ← hpeer] at h'
  obtain ⟨s₂, past', hruns', hown', hpeer'⟩ := exists_tick (i := true)
    (ts ++ [⟨past, .ret (.pass false [(true, .synced stats)])⟩]) C h'
  obtain rfl : s₂ = fun i => cond i y.own y.peer := by
    funext i
    cases i with
    | false => exact hpeer'
    | true => exact hown'
  refine ⟨_, hruns.trans hruns', fun i j hj => ?_⟩
  obtain rfl := List.mem_singleton.1 hj
  dsimp only
  rw [List.append_assoc, List.drop_left]
  cases i with
  | false => exact ⟨_, List.mem_cons_self .., _, _, rfl, List.mem_singleton_self _⟩
  | true =>
    exact ⟨_, List.mem_cons_of_mem _ (List.mem_cons_self ..), _, _, rfl, List.mem_singleton_self _⟩

/-- Two nodes with different payloads under the same key. -/
def rivalMesh : Mesh pairDepth := fun i =>
  cond i (sampleStore.after (storeCorner 0 [0x62])) storedOnce

/-- The store of one node once its process has died at the end of another call and restarted. -/
def restartedStore : SpatioTemporalStore merkleLeafDepth :=
  openStore merkleLeafDepth testIndexer rivalStore.tree

/-- The mesh then. -/
def restartedMesh : Mesh pairDepth := Function.update rivalMesh true restartedStore

/-- The stores after the other node has pulled, and after this one has. -/
def restartedPull : Peers merkleLeafDepth merkleLeafDepth := pull storedOnce restartedStore

def restartedPullBack : Peers merkleLeafDepth merkleLeafDepth :=
  pull restartedPull.peer restartedPull.own

/-- The mesh after both pulls. -/
def restartedMeshPulled : Mesh pairDepth := fun i =>
  cond i restartedPullBack.own restartedPullBack.peer

theorem consistent_rivalMesh : ∀ i, Consistent (sampleRows : Set Row) (rivalMesh i)
  | false => consistent_storedOnce
  | true => consistent_sampleStore.after (c := storeCorner 0 [0x62]) (r := .ok true)
      independent_sampleRows (by decide +kernel) (by decide +kernel)
      (Finset.coe_subset.2 (by decide +kernel))

theorem durable_rivalMesh : ∀ i, Durable (rivalMesh i)
  | false => durable_storedOnce
  | true => (durable_empty testIndexer).after (c := storeCorner 0 [0x62]) (r := .ok true)
      few_sampleRows consistent_sampleStore.rows
      ⟨fun _ => ⟨by decide +kernel, by decide +kernel⟩, by decide +kernel⟩ (by decide +kernel)

/-- The run in which the process dies and restarts. -/
theorem exists_restart : ∃ ts, Pool.Runs (meshSem .reliable)
    (MeshStart pairDepth fun i => [!i]) (CallsMeet (CallsJoin (sampleRows : Set Row)))
      ⟨rivalMesh, []⟩ ⟨restartedMesh, ts⟩ := by
  have hrun : Alone (storeSem merkleLeafDepth .reliable)
      ((storeCorner 1 [0x62]).prog (rivalMesh true).indexer) (rivalMesh true) (.ok true)
      rivalStore :=
    alone_after (s := sampleStore.after (storeCorner 0 [0x62])) (c := storeCorner 1 [0x62])
      (by decide +kernel)
  have hjoins : (storeCorner 1 [0x62]).Joins (sampleRows : Set Row) (rivalMesh true) :=
    ⟨fun _ => ⟨by decide +kernel, by decide +kernel⟩, by decide +kernel⟩
  have hcrash : meshSem .reliable (.crash true (storeCorner 1 [0x62]) testIndexer) rivalMesh ()
      restartedMesh := ⟨rivalStore.tree, ⟨_, .of_alone hrun, rfl⟩, rfl⟩
  have hmeet : CallsMeet (CallsJoin (sampleRows : Set Row)) rivalMesh
      ⟨[], .call (.crash true (storeCorner 1 [0x62]) testIndexer) fun _ =>
        pure Ended.restarted⟩ := by
    intro o k i c heq hcall
    cases heq
    cases hcall
    exact hjoins
  have hstart : MeshStart pairDepth (fun i => [!i])
      (.call (.crash true (storeCorner 1 [0x62]) testIndexer) fun _ => pure Ended.restarted) :=
    .crash ..
  exact ⟨_, .head (.start hstart) (.single (.run [] [] hmeet hcrash))⟩

theorem exists_phase_restarted (ts : List (Thread (meshSig Bool) (Ended Bool)))
    (C : Mesh pairDepth → Bool → StoreCall → Prop) :
    ∃ ts', Phase .reliable (fun i => [!i]) C ⟨restartedMesh, ts⟩ ⟨restartedMeshPulled, ts'⟩ := by
  have h : Alone (syncSem .reliable) (syncOnce merkleLeafDepth) ⟨storedOnce, restartedStore⟩
      (.ok ⟨1, 2, 1⟩) ⟨restartedPull.own, restartedPull.peer⟩ := alone_pull (by decide +kernel)
  have h' : Alone (syncSem .reliable) (syncOnce merkleLeafDepth)
      ⟨restartedPull.peer, restartedPull.own⟩ (.ok ⟨1, 2, 1⟩)
      ⟨restartedPullBack.own, restartedPullBack.peer⟩ := alone_pull (by decide +kernel)
  unfold restartedMeshPulled
  generalize restartedPullBack = y at h' ⊢
  generalize restartedPull = x at h h'
  exact exists_phase (s := restartedMesh) ts C h h'

theorem dominates_of_phases_rivals :
    DominatesAll (restartedMeshPulled true) (storedOnce.rows : Set Row) := by
  obtain ⟨ts, hrestart⟩ := exists_restart
  obtain ⟨ts', hphase⟩ := exists_phase_restarted ts (CallsJoin (sampleRows : Set Row))
  have hdom := (dominates_of_phases independent_sampleRows few_sampleRows consistent_rivalMesh
    durable_rivalMesh hrestart (.succ (.zero _) hphase)).1
  exact hdom true false (.inr ⟨false, List.mem_singleton_self _, rfl⟩)

theorem converged_of_phases_rivals : MeshConverged .reliable restartedMesh restartedMeshPulled := by
  obtain ⟨ts, hrestart⟩ := exists_restart
  obtain ⟨ts', hphase⟩ := exists_phase_restarted ts (NothingNew (sampleRows : Set Row))
  have hreach : ∀ i j : Bool, Relation.ReflTransGen (fun i j => j ∈ [!i]) i j := by
    intro i j
    by_cases hij : i = j
    · rw [hij]
    · exact .single (List.mem_singleton.2 (Bool.eq_not.2 (Ne.symm hij)))
  exact converged_of_phases independent_sampleRows few_sampleRows consistent_rivalMesh
    durable_rivalMesh hreach hrestart (.succ (.zero _) hphase)

end Sample

end InterstellarDb
