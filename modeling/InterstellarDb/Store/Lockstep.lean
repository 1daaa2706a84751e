import InterstellarDb.Store.Reopen
import InterstellarDb.Store.Trust

/-!
# The forest in lockstep with the rows

`store` and `store_batch` fold their rows in without folding a replaced row out, so writing one
key twice leaves the forest with a row that is not stored (`not_lockstep`). As long as the keys
they write are fresh, the forest is in lockstep with the rows in every state of every run, with
failures and reopens (`lockstep_of_runs`).
-/

namespace InterstellarDb

open Atomic

section Runs

variable {L : LeafDepth} [Sha256]

/-- The forest has the node hashes and the length of the stored rows, and closing and opening
again gives the same forest. -/
structure Lockstep (s : SpatioTemporalStore L) : Prop where
  nodeHash : ∀ e d p, L.Valid d → IsPrefix d p → s.merkle.nodeHash e d p = cellHash s.rows e d p
  len : s.merkle.len.toNat = s.rows.card
  reopen : ∀ ix, Reopen.SameForest (openStore L ix s.tree).merkle s.merkle

theorem Trusted.lockstep {D : Set LeafDepth} {s : SpatioTemporalStore L} (h : Trusted D s)
    (hL : L ∈ D) : Lockstep s where
  nodeHash := h.fold.hashes
  len := by
    have := h.fits
    rw [h.fold.counts.len, BitVec.natCast_eq_ofNat, BitVec.toNat_ofNat, Nat.mod_eq_of_lt this]
  reopen := by
    intro ix
    have hopen := (h.reopen hL ix).fold
    refine Reopen.sameForest (fun e d p hd hp => ?_) fun e => ?_
    · rw [h.fold.hashes e d p hd hp, hopen.hashes e d p hd hp]
      rfl
    · rw [h.fold.counts e, hopen.counts e]
      rfl

/-- Within one leaf depth, a step with fresh keys keeps the records trustworthy. -/
theorem trusted_step {pol : KvPolicy} {x y : Session}
    (h : Session.Step pol {L} FreshWrites x y) (hx : x.1 = L ∧ Trusted {L} x.2) :
    y.1 = L ∧ Trusted {L} y.2 := by
  cases h with
  | call hrun hC =>
    obtain ⟨rfl, ht⟩ := hx
    refine ⟨rfl, ht.call rfl hrun fun hr => ?_⟩
    obtain ⟨hfresh, hfits⟩ := hC hr
    exact ⟨hfresh, hfits, fun _ _ _ _ _ hL' _ => hL'⟩
  | reopen L' hL' ix =>
    obtain rfl : L' = L := hL'
    exact ⟨rfl, hx.2.reopen rfl ix⟩

/-- **The forest stays in lockstep with the rows**, from an empty disk on, through every run in
which the keys that `store` and `store_batch` write are fresh. -/
theorem lockstep_of_runs {pol : KvPolicy} (ix : HybridSpatioTemporalIndexer) {x : Session}
    (h : Session.Runs pol {L} FreshWrites ⟨L, openStore L ix .empty⟩ x) : Lockstep x.2 := by
  suffices hx : x.1 = L ∧ Trusted {L} x.2 from hx.2.lockstep hx.1
  induction h with
  | refl => exact ⟨rfl, trusted_empty ix rfl⟩
  | tail _ hstep ih => exact trusted_step hstep ih

end Runs

/-! ## A key written twice -/

section Sample

local instance lockstepSha : Sha256 := sampleDigests

theorem lockstep_of_runs_corner : Lockstep storedOnce ∧ storedOnce.rows.card = 1 := by
  constructor
  · refine lockstep_of_runs (x := ⟨merkleLeafDepth, storedOnce⟩) testIndexer
      (.single (.call alone_storedOnce fun _ => ⟨fun _ => ?_, ?_⟩))
    · decide +kernel
    · unfold Fits
      decide +kernel
  · decide +kernel

/-- **Storing a key twice breaks the lockstep.** -/
theorem not_lockstep :
    ¬ ∀ x : Session, Session.Runs .reliable {merkleLeafDepth} (fun _ _ _ => True)
      ⟨merkleLeafDepth, sampleStore⟩ x → Lockstep x.2 := by
  intro h
  have hsecond : Alone (storeSem merkleLeafDepth .reliable)
      (StoreCall.prog testIndexer (storeCorner 0 [0x61])) storedOnce (.ok true)
      (storedOnce.after (storeCorner 0 [0x61])) :=
    alone_after (s := storedOnce) (c := storeCorner 0 [0x61]) (by decide +kernel)
  have hlock := h ⟨_, storedOnce.after (storeCorner 0 [0x61])⟩
    (.tail (.single (.call alone_storedOnce trivial)) (.call hsecond trivial))
  have hlen : (storedOnce.after (storeCorner 0 [0x61])).merkle.len.toNat = 2 := by decide +kernel
  have hrows : (storedOnce.after (storeCorner 0 [0x61])).rows.card = 1 := by decide +kernel
  have := hlock.len
  dsimp only at this
  omega

end Sample

end InterstellarDb
