import InterstellarDb.Store.Calls

/-!
# Accepted rows

`ingest` replaces a stored payload only by one of a greater digest, so what the node holds only
grows. `store` and `store_batch` write without looking, and can replace an accepted row by one of
a smaller digest (`not_dominates`). As long as they do not, every accepted row is dominated in
every later state (`dominates_of_runs`).
-/

namespace InterstellarDb

open Atomic GreatestWins KvTree

section Runs

variable {L : LeafDepth} [Sha256]

/-- Written in order into the table `m`, no row replaces a payload of a greater digest. -/
def Rising (m : Key → Option Bytes) : List Row → Prop
  | [] => True
  | r :: l => (∀ c, m r.1 = some c → itemDigest r.1 c ≤ rowDigest r) ∧
      Rising (Function.update m r.1 (some r.2)) l

/-- The accepted `store` and `store_batch` calls replace no payload by one of a smaller digest. -/
def RisingWrites (x : Session) (c : StoreCall) (r : Except String Bool) : Prop :=
  r = .ok true → c.IsStore → Rising x.2.table (c.rows x.2.indexer)

variable {m : Key → Option Bytes} {l : List Row}

theorem below_writeAll (h : Rising m l) : Below itemDigest m (writeAll m l) := by
  induction l generalizing m with
  | nil => exact .refl m
  | cons r l ih => exact (below_update h.1).trans (ih h.2)

/-- Rising writes dominate every row that they write. -/
theorem dominates_writeAll (h : Rising m l) {r : Row} (hr : r ∈ l) :
    Dominates itemDigest (writeAll m l) r.1 r.2 := by
  induction l generalizing m with
  | nil => cases hr
  | cons x l ih =>
    rcases List.mem_cons.1 hr with rfl | hr
    · have hself : Dominates itemDigest (Function.update m r.1 (some r.2)) r.1 r.2 :=
        .of_eq (Function.update_self ..)
      exact hself.mono (below_writeAll h.2)
    · exact ih h.2 hr

/-- An `ingest` that does not keep the stored payload rises. -/
theorem rising_of_keepsExisting {k : Key} {v : Bytes} (h : keepsExisting k v (m k) = false) :
    Rising m [(k, v)] := by
  rw [keepsExisting_eq_false] at h
  exact ⟨fun c hc => rank_le_of_not_dominates h hc, trivial⟩

variable {s s' : SpatioTemporalStore L} {c : StoreCall}

/-- The rows of every accepted call rise. -/
theorem CallWrote.rising (hw : CallWrote c s s')
    (hrise : c.IsStore → Rising s.table (c.rows s.indexer)) :
    Rising s.table (c.rows s.indexer) := by
  cases c with
  | store x => exact hrise trivial
  | storeBatch xs => exact hrise trivial
  | ingest k v => exact rising_of_keepsExisting (hw.replaces k v rfl)
  | sealSettledEpochs now grace => exact absurd rfl (hw.writes now grace)

/-- **A step loses no row** to one of a smaller digest. -/
theorem below_step {pol : KvPolicy} {D : Set LeafDepth} {x y : Session}
    (h : Session.Step pol D RisingWrites x y) : Below itemDigest x.2.table y.2.table := by
  cases h with
  | call hrun hC =>
    rcases alone_call hrun with ⟨-, _, -, hu⟩ | ⟨-, hu⟩ | ⟨hr, hw⟩
    · dsimp only
      rw [hu.table]
      exact .refl _
    · dsimp only
      rw [hu.table]
      exact .refl _
    · dsimp only
      rw [hw.table]
      exact below_writeAll (hw.rising (hC hr))
  | reopen L' hL' ix => exact .refl _

/-- **An accepted row is never lost to a smaller digest**, in every run in which the writes of
`store` and `store_batch` do not lower the digest of a key. -/
theorem dominates_of_runs {pol : KvPolicy} {D : Set LeafDepth} {x : Session}
    (hcall : Alone (storeSem L pol) (c.prog s.indexer) s (.ok true) s')
    (hrise : RisingWrites ⟨L, s⟩ c (.ok true))
    (hruns : Session.Runs pol D RisingWrites ⟨L, s'⟩ x) {r : Row} (hr : r ∈ c.rows s.indexer) :
    Dominates itemDigest x.2.table r.1 r.2 := by
  have hbelow : Below itemDigest s'.table x.2.table := by
    induction hruns with
    | refl => exact .refl _
    | tail _ hstep ih => exact ih.trans (below_step hstep)
  rcases alone_call hcall with ⟨⟨_, h⟩, -⟩ | ⟨h, -⟩ | ⟨-, hw⟩
  · cases h
  · exact absurd rfl h
  · have hwrite := dominates_writeAll (hw.rising (hrise rfl)) hr
    rw [← hw.table] at hwrite
    exact hwrite.mono hbelow

end Runs

/-! ## A smaller digest stored -/

section Sample

local instance acceptedSha : Sha256 := sampleDigests

/-- The key of zeros. -/
def zeroKey : Key := .ofFields 0 0 0

/-- The store after the payload `b` was stored over `a`. -/
def storedOver : SpatioTemporalStore merkleLeafDepth := storedOnce.after (storeCorner 0 [0x62])

theorem dominates_of_runs_corner : Dominates itemDigest storedOnce.table zeroKey [0x61] := by
  refine dominates_of_runs (s := sampleStore) (c := storeCorner 0 [0x61])
    (x := ⟨merkleLeafDepth, storedOnce⟩) (D := Set.univ) (r := (zeroKey, [0x61]))
    alone_storedOnce ?_ .refl ?_
  · intro _ _
    refine ⟨fun c hc => ?_, trivial⟩
    have : sampleStore.table zeroKey = none := by decide +kernel
    cases this.symm.trans hc
  · decide +kernel

/-- **A stored row is lost to a smaller digest** that is stored after it. -/
theorem not_dominates :
    ¬ ∀ (c : StoreCall) (s s' : SpatioTemporalStore merkleLeafDepth) (x : Session) (r : Row),
      Alone (storeSem merkleLeafDepth .reliable) (c.prog s.indexer) s (.ok true) s' →
      Session.Runs .reliable ∅ (fun _ _ _ => True) ⟨merkleLeafDepth, s'⟩ x →
      r ∈ c.rows s.indexer → Dominates itemDigest x.2.table r.1 r.2 := by
  intro h
  have hsecond : Alone (storeSem merkleLeafDepth .reliable)
      (StoreCall.prog testIndexer (storeCorner 0 [0x62])) storedOnce (.ok true) storedOver :=
    alone_after (s := storedOnce) (c := storeCorner 0 [0x62]) (by decide +kernel)
  obtain ⟨v, hv, hle⟩ := h (storeCorner 0 [0x61]) sampleStore storedOnce
    ⟨merkleLeafDepth, storedOver⟩ (zeroKey, [0x61]) alone_storedOnce
    (.single (.call hsecond trivial)) (by decide +kernel)
  have hstored : storedOver.table zeroKey = some [0x62] := by decide +kernel
  obtain rfl := Option.some.inj (hstored.symm.trans hv)
  exact absurd hle (by decide +kernel)

end Sample

end InterstellarDb
