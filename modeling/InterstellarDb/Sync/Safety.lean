import InterstellarDb.Store.Calls
import InterstellarDb.Sync.Peers

/-!
# A pull round while both peers change

Between any two operations of a round other writes may happen, at the store that pulls and at its
peer (`Interferes`): each is a merging write that runs alone. Such writes are gentle
(`gentle_interferes`), so a round that returns without an error dominates every row that the peer
held when it served `Roots` (`dominates_of_pull`).
-/

namespace InterstellarDb

open Atomic GreatestWins SetFold

section Runs

variable {L L' : LeafDepth} [Sha256]

/-! ## Other writes -/

/-- Another write at a store, atomic, after which all rows are in `U`. -/
def OtherWrite (pol : KvPolicy) (U : Set Row) (c : StoreCall) (s s' : SpatioTemporalStore L) :
    Prop :=
  ∃ r : Except String Bool, c.Merges s ∧ Alone (storeSem L pol) (c.prog s.indexer) s r s' ∧
    (s'.rows : Set Row) ⊆ U

/-- One other write, at the store that pulls or at its peer. -/
inductive WriteStep (pol : KvPolicy) (U : Set Row) : Peers L L' → Peers L L' → Prop
  | own {s : Peers L L'} {own : SpatioTemporalStore L} (c : StoreCall)
      (h : OtherWrite pol U c s.own own) : WriteStep pol U s { s with own }
  | peer {s : Peers L L'} {peer : SpatioTemporalStore L'} (c : StoreCall)
      (h : OtherWrite pol U c s.peer peer) : WriteStep pol U s { s with peer }

/-- Any number of other writes. -/
abbrev Interferes (pol : KvPolicy) (U : Set Row) : Peers L L' → Peers L L' → Prop :=
  Relation.ReflTransGen (WriteStep pol U)

variable {pol : KvPolicy} {U : Set Row}

theorem OtherWrite.consistent {c : StoreCall} {s s' : SpatioTemporalStore L}
    (h : OtherWrite pol U c s s') (hU : Independent rowDigest U) (hs : Consistent U s) :
    Consistent U s' ∧ Below itemDigest s.table s'.table := by
  obtain ⟨r, hm, hrun, hrows⟩ := h
  exact ⟨⟨merge_hashes hU hs hm hrun, hrows⟩, merge_below hm hrun⟩

theorem WriteStep.advanced {s s' : Peers L L'} (h : WriteStep pol U s s')
    (hU : Independent rowDigest U) (hs : BothConsistent U s) : Advanced U s s' := by
  cases h with
  | own c h =>
    obtain ⟨hown, hbelow⟩ := h.consistent hU hs.own
    exact ⟨⟨hown, hs.peer⟩, hbelow, .refl _⟩
  | peer c h =>
    obtain ⟨hpeer, hbelow⟩ := h.consistent hU hs.peer
    exact ⟨⟨hs.own, hpeer⟩, .refl _, hbelow⟩

theorem gentle_interferes (hU : Independent rowDigest U) :
    Gentle U (Interferes pol U : Peers L L' → Peers L L' → Prop) where
  refl := fun _ => .refl
  advanced := by
    intro s s' h hs
    induction h with
    | refl => exact .refl hs
    | tail _ hstep ih => exact ih.trans (hstep.advanced hU ih.consistent)

/-! ## Safety -/

/-- **A pull round is safe while both peers change.** The stores are consistent, and no non-empty
set of rows that they ever hold folds to `0`. When the round returns without an error, the store
dominates every row that the peer held when it served `Roots`, the first entry of the log. -/
theorem dominates_of_pull (hU : Independent rowDigest U) {s s' t : Peers L L'}
    (hown : Consistent U s.own) (hpeer : Consistent U s.peer) {stats : SyncStats}
    {log : List (SyncOp × Peers L L')}
    (h : Run (unlogged (Interferes pol U)) (logged (syncSem pol)) (syncOnce L) (s, [])
      (.ok stats) (s', (.roots, t) :: log)) {k : Key} {p : Bytes} (hkp : (k, p) ∈ t.peer.rows) :
    Dominates itemDigest s'.own.table k p := by
  obtain ⟨s₁, response, s₂, ⟨hR, hlog₁⟩, ⟨hop, hlog₂⟩, hrest⟩ := h
  obtain ⟨more, hmore⟩ := Run.exists_log hrest
  obtain rfl : t = s₁.1 := by
    rw [hlog₂, hlog₁] at hmore
    simpa using congrArg List.head? hmore
  have hgentle : Gentle U (Interferes pol U : Peers L L' → Peers L L' → Prop) :=
    gentle_interferes hU
  have hadv := hgentle.advanced _ _ hR ⟨hown, hpeer⟩
  obtain ⟨hst, hop⟩ := hop
  rcases hop with rfl | ⟨status, rfl⟩
  · have hrun : Run (Interferes pol U) (syncSem pol) (pullFrom L (SyncService.roots s₁.1.peer))
        s₂.1 (.ok stats) s' := Run.of_logged hrest
    rw [hst] at hrun
    exact (run_pullFrom hU hgentle hadv.consistent.peer hadv.consistent (.refl _) hrun).2 stats rfl
      (k, p) hkp
  · obtain ⟨-, hret⟩ := hrest
    cases hret

end Runs

section Sample

local instance safetySha : Sha256 := sampleDigests

/-- An empty store and a peer with one row. -/
def samplePeers : Peers merkleLeafDepth merkleLeafDepth := ⟨sampleStore, storedOnce⟩

theorem dominates_of_pull_storedOnce :
    Dominates itemDigest (pull sampleStore storedOnce).own.table zeroKey [0x61] := by
  have hround : Alone (syncSem .reliable) (syncOnce merkleLeafDepth) samplePeers (.ok ⟨1, 1, 1⟩)
      ⟨(pull sampleStore storedOnce).own, (pull sampleStore storedOnce).peer⟩ :=
    alone_pull (by decide +kernel)
  have hmem : (zeroKey, [0x61]) ∈ samplePeers.peer.rows := by decide +kernel
  generalize pull sampleStore storedOnce = s at hround ⊢
  obtain ⟨_, response, s₁, rfl, hop, hrest⟩ := hround
  obtain ⟨log, hlog⟩ := Run.exists_logged hrest [(.roots, samplePeers)]
  have hrun : Run (unlogged (Interferes .reliable (sampleRows : Set Row)))
      (logged (syncSem .reliable)) (syncOnce merkleLeafDepth) (samplePeers, []) (.ok ⟨1, 1, 1⟩)
      (⟨s.own, s.peer⟩, (.roots, samplePeers) :: log) :=
    ⟨(samplePeers, []), response, (s₁, [(.roots, samplePeers)]), ⟨.refl, rfl⟩, ⟨hop, rfl⟩,
      Run.logged_mono (fun _ => .refl) hlog⟩
  exact dominates_of_pull independent_sampleRows consistent_sampleStore consistent_storedOnce hrun
    hmem

end Sample

end InterstellarDb
