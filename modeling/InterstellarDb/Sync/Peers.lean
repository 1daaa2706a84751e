import InterstellarDb.Sync.Merge
import InterstellarDb.Sync.Pull

/-!
# A pull round between two stores

`syncSem` runs the operations of a pull round on a store and a peer: the RPCs are answered by the
`SyncService` of the peer and may fail, node hashes are read from the own forest, and rows are
ingested into the own store. Other writes may happen on both sides between the operations.

Throughout a round both stores stay consistent and only grow (`Advanced`), when the interference
does the same. The invariant of the loop (`Pending`): every row to pull is dominated by the own
store, or lies in a cell of the work list.

* A cell is skipped when its hashes agree, the peer's at one moment and the own one at a later
  one; the rows of the peer are then among the own ones (`run_divergent`).
* A fetched cell is dominated once its rows are ingested (`run_pullLeaf`).
* So a round that ends well dominates all the peer held when it served `Roots`
  (`run_pullFrom`).
-/

namespace InterstellarDb

open Atomic GreatestWins SetFold

variable {L L' : LeafDepth}

/-! ## Peers -/

/-- A store that pulls, and the peer that it pulls from. -/
structure Peers (L L' : LeafDepth) where
  own : SpatioTemporalStore L
  peer : SpatioTemporalStore L'

/-- The stream delivers the rows, or breaks off with an error after some of them. -/
def Streams (rows : List SyncRow) (items : List (Except Status SyncRow)) : Prop :=
  items = rows.map .ok ∨ ∃ n status, items = (rows.take n).map .ok ++ [.error status]

variable [Sha256]

/-- What the operations of a pull round do. Every RPC can fail. -/
def syncSem (pol : KvPolicy) : Sem syncSig (Peers L L')
  | .roots => fun s r s' => s' = s ∧ (r = .ok (SyncService.roots s.peer) ∨ ∃ st, r = .error st)
  | .children e d p => fun s r s' =>
    s' = s ∧ (r = SyncService.children s.peer e d p ∨ ∃ st, r = .error st)
  | .fetch start stop => fun s r s' =>
    s' = s ∧ ((∃ rows items, SyncService.fetch s.peer start stop = .ok rows ∧
      Streams rows items ∧ r = .ok items) ∨ ∃ st, r = .error st)
  | .nodeHash e d p => fun s r s' => s' = s ∧ r = s.own.merkle.nodeHash e d p
  | .ingest k v => fun s r s' =>
    s'.peer = s.peer ∧ Alone (storeSem L pol) (ingest k v) s.own r s'.own

/-! ## Progress of two stores -/

variable {U : Set Row} {pol : KvPolicy} {s s₁ s₂ s' : Peers L L'}

/-- Both stores are consistent. -/
structure BothConsistent (U : Set Row) (s : Peers L L') : Prop where
  own : Consistent U s.own
  peer : Consistent U s.peer

/-- Both stores have grown, and are consistent. -/
structure Advanced (U : Set Row) (s s' : Peers L L') : Prop where
  consistent : BothConsistent U s'
  own : Below itemDigest s.own.table s'.own.table
  peer : Below itemDigest s.peer.table s'.peer.table

theorem Advanced.refl (h : BothConsistent U s) : Advanced U s s := ⟨h, .refl _, .refl _⟩

theorem Advanced.trans (h : Advanced U s s₁) (h' : Advanced U s₁ s') : Advanced U s s' :=
  ⟨h'.consistent, h.own.trans h'.own, h.peer.trans h'.peer⟩

/-- Interference under which both stores stay consistent and grow. -/
structure Gentle (U : Set Row) (R : Peers L L' → Peers L L' → Prop) : Prop where
  refl : ∀ s, R s s
  advanced : ∀ s s', R s s' → BothConsistent U s → Advanced U s s'

theorem gentle_eq : Gentle U (Eq : Peers L L' → Peers L L' → Prop) where
  refl := fun _ => rfl
  advanced := by
    rintro s _ rfl h
    exact .refl h

/-- The rows are dominated by the store. -/
abbrev DominatesAll (s : SpatioTemporalStore L) (rows : Set Row) : Prop :=
  ∀ r ∈ rows, Dominates itemDigest s.table r.1 r.2

theorem DominatesAll.mono {t t' : SpatioTemporalStore L} {rows : Set Row}
    (h : DominatesAll t rows) (ht : Below itemDigest t.table t'.table) : DominatesAll t' rows :=
  fun r hr => (h r hr).mono ht

theorem dominatesAll_rows (t : SpatioTemporalStore L) : DominatesAll t (t.rows : Set Row) :=
  fun _ hr => .of_eq (mem_rows.1 hr)

/-- A dominated row has a row of the store under its key. -/
theorem exists_mem_rows {t : SpatioTemporalStore L} {k : Key} {v : Bytes}
    (h : Dominates itemDigest t.table k v) :
    ∃ w, (k, w) ∈ t.rows ∧ itemDigest k v ≤ itemDigest k w := by
  obtain ⟨w, hw, hle⟩ := h
  exact ⟨w, mem_rows.2 hw, hle⟩

/-! ## The operations -/

/-- An ingest of a row of `U` advances the own store. -/
theorem BothConsistent.ingest (hs : BothConsistent U s) (hU : Independent rowDigest U) {k : Key}
    {v : Bytes} (hkv : (k, v) ∈ U) {r : Except String Bool}
    (h : syncSem pol (.ingest k v) s r s') : Advanced U s s' := by
  obtain ⟨hpeer, hrun⟩ := h
  have hcall : Alone (storeSem L pol) ((StoreCall.ingest k v).prog s.own.indexer) s.own r s'.own :=
    hrun
  have hm : (StoreCall.ingest k v).Merges s.own := trivial
  refine ⟨⟨⟨merge_hashes hU hs.own hm hcall, fun x hx => ?_⟩, ?_⟩, merge_below hm hcall, ?_⟩
  · rcases mem_rows_of_call hcall hx with hx | hx
    · exact hs.own.rows hx
    · obtain rfl := List.mem_singleton.1 hx
      exact hkv
  · rw [hpeer]
    exact hs.peer
  · rw [hpeer]
    exact .refl _

/-! ## Skipped cells -/

section Runs

variable {R : Peers L L' → Peers L L' → Prop} {T : Finset Row} {d : ℕ}

/-- The hash of the cell is that of the rows `T`. -/
structure TellsOf (T : Finset Row) (d : ℕ) (x : Epoch × ChildHash) : Prop where
  isPrefix : IsPrefix d x.2.nodePrefix
  hash : x.2.hash = hashBytes (cellHash T x.1 d x.2.nodePrefix)

/-- The store dominates the rows of `T` in the cell. -/
def Holds (t : SpatioTemporalStore L) (T : Finset Row) (e : Epoch) (d p : ℕ) : Prop :=
  ∀ y ∈ T, InCell e d p y.1 → Dominates itemDigest t.table y.1 y.2

theorem Holds.mono {t t' : SpatioTemporalStore L} {e : Epoch} {p : ℕ} (h : Holds t T e d p)
    (ht : Below itemDigest t.table t'.table) : Holds t' T e d p :=
  fun y hy hc => (h y hy hc).mono ht

/-- **Skipping a cell is safe**: the own store dominates the rows whose hash the peer sent. -/
theorem run_diverges (hU : Independent rowDigest U) (hR : Gentle U R) (hT : (T : Set Row) ⊆ U)
    (hd : L.Valid d) {x : Epoch × ChildHash} (hx : TellsOf T d x) (hs : BothConsistent U s)
    {r : Except SyncError Bool} (h : Run R (syncSem pol) (diverges x.1 d x.2) s r s') :
    Advanced U s s' ∧ (r = .ok true ∨ r = .ok false ∧ Holds s'.own T x.1 d x.2.nodePrefix) := by
  rw [diverges, hx.hash, hashFromBytes_hashBytes] at h
  dsimp only at h
  split_ifs at h with hzero
  · obtain ⟨hR', rfl⟩ := h
    refine ⟨hR.advanced _ _ hR' hs, .inr ⟨rfl, fun y hy hc => ?_⟩⟩
    exact absurd hzero (cellHash_ne_zero hU hT hy hc)
  · obtain ⟨_, ours, s₁, hR₁, ⟨rfl, rfl⟩, hR₂, rfl⟩ := h
    have h₁ := hR.advanced _ _ hR₁ hs
    have h₂ := hR.advanced _ _ hR₂ h₁.consistent
    refine ⟨h₁.trans h₂, ?_⟩
    have hown := h₁.consistent.own
    rw [hown.hashes _ _ _ hd hx.isPrefix]
    by_cases heq : cellHash T x.1 d x.2.nodePrefix = cellHash s₁.own.rows x.1 d x.2.nodePrefix
    · -- the rows of the peer are among the own ones at the moment of the read
      refine .inr ⟨by simp [heq], fun y hy hc => ?_⟩
      have hmem := mem_of_cellHash_eq hU hT hown.rows heq hy hc
      exact (dominatesAll_rows s₁.own y hmem).mono h₂.own
    · exact .inl (by simp [heq])

/-- The cells that are not divergent are held by the own store. -/
theorem run_divergent (hU : Independent rowDigest U) (hR : Gentle U R) (hT : (T : Set Row) ⊆ U)
    (hd : L.Valid d) {cells : List (Epoch × ChildHash)} (hcells : ∀ x ∈ cells, TellsOf T d x)
    (hs : BothConsistent U s) {r : Except SyncError (List (Epoch × ℕ))}
    (h : Run R (syncSem pol) (divergent d cells) s r s') :
    Advanced U s s' ∧ ∀ l, r = .ok l →
      (∀ y ∈ l, IsPrefix d y.2) ∧
      ∀ x ∈ cells, (x.1, x.2.nodePrefix) ∈ l ∨ Holds s'.own T x.1 d x.2.nodePrefix := by
  induction cells generalizing s s' r with
  | nil =>
    obtain ⟨hR', rfl⟩ := h
    refine ⟨hR.advanced _ _ hR' hs, fun l hl => ?_⟩
    obtain rfl := Except.ok.inj hl
    simp
  | cons x cells ih =>
    obtain ⟨b, s₁, hone, hrest⟩ := run_bind hR.refl h
    have hx := hcells x (by simp)
    obtain ⟨hadv, hb⟩ := run_diverges hU hR hT hd hx hs hone
    obtain ⟨pushed, rfl⟩ : ∃ pushed, b = .ok pushed := by
      rcases hb with rfl | ⟨rfl, -⟩
      · exact ⟨_, rfl⟩
      · exact ⟨_, rfl⟩
    obtain ⟨r', s₂, hrest, hret⟩ := run_bind hR.refl hrest
    obtain ⟨hadv', hl'⟩ := ih (fun y hy => hcells y (List.mem_cons_of_mem _ hy)) hadv.consistent
      hrest
    obtain ⟨hR', rfl⟩ := hret
    have hlast := hR.advanced _ _ hR' hadv'.consistent
    refine ⟨(hadv.trans hadv').trans hlast, fun l hl => ?_⟩
    cases r' with
    | error err => cases hl
    | ok l' =>
      obtain rfl := Except.ok.inj hl
      obtain ⟨hcut, hheld⟩ := hl' l' rfl
      refine ⟨fun y hy => ?_, fun y hy => ?_⟩
      · cases pushed with
        | false => exact hcut y hy
        | true =>
          rcases List.mem_cons.1 hy with rfl | hy
          · exact hx.isPrefix
          · exact hcut y hy
      · rcases List.mem_cons.1 hy with rfl | hy
        · rcases hb with hb | ⟨-, hb⟩
          · obtain rfl := Except.ok.inj hb
            exact .inl (List.mem_cons_self ..)
          · exact .inr (hb.mono (hadv'.own.trans hlast.own))
        · rcases hheld y hy with hy | hy
          · left
            cases pushed with
            | false => exact hy
            | true => exact List.mem_cons_of_mem _ hy
          · exact .inr (hy.mono hlast.own)

/-! ## Fetched cells -/

/-- The rows of a stream that ends well are all dominated. -/
theorem run_ingestRows (hU : Independent rowDigest U) (hR : Gentle U R)
    {items : List (Except Status SyncRow)}
    (hitems : ∀ row, .ok row ∈ items → ∃ y ∈ U, row = ⟨y.1.bytes, y.2⟩) {stats : SyncStats}
    (hs : BothConsistent U s) {r : Except SyncError SyncStats}
    (h : Run R (syncSem pol) (ingestRows items stats) s r s') :
    Advanced U s s' ∧ ∀ stats', r = .ok stats' →
      (∀ status, .error status ∉ items) ∧
      ∀ y : Row, .ok ⟨y.1.bytes, y.2⟩ ∈ items → Dominates itemDigest s'.own.table y.1 y.2 := by
  induction items generalizing s s' r stats with
  | nil =>
    obtain ⟨hR', rfl⟩ := h
    exact ⟨hR.advanced _ _ hR' hs, fun _ _ => by simp⟩
  | cons x items ih =>
    cases x with
    | error status =>
      obtain ⟨hR', rfl⟩ := h
      exact ⟨hR.advanced _ _ hR' hs, fun _ h => nomatch h⟩
    | ok row =>
      obtain ⟨y, hy, rfl⟩ := hitems row (by simp)
      rw [ingestRows, Key.tryFrom_bytes] at h
      obtain ⟨s₁, changed, s₂, hR₁, hop, hrest⟩ := h
      have h₁ := hR.advanced _ _ hR₁ hs
      have h₂ := h₁.trans (h₁.consistent.ingest hU hy hop)
      cases changed with
      | error err =>
        obtain ⟨hR', rfl⟩ := hrest
        exact ⟨h₂.trans (hR.advanced _ _ hR' h₂.consistent), fun _ h => nomatch h⟩
      | ok changed =>
        obtain ⟨h₃, hdom⟩ := ih (fun row hrow => hitems row (List.mem_cons_of_mem _ hrow))
          h₂.consistent hrest
        refine ⟨h₂.trans h₃, fun stats' hr => ?_⟩
        obtain ⟨herr, hdom⟩ := hdom stats' hr
        refine ⟨fun status hst => ?_, fun z hz => ?_⟩
        · rcases List.mem_cons.1 hst with hst | hst
          · cases hst
          · exact herr status hst
        · rcases List.mem_cons.1 hz with hz | hz
          · simp only [Except.ok.injEq, SyncRow.mk.injEq] at hz
            obtain rfl : z = y := Prod.ext (Key.ext hz.1) hz.2
            exact (ingest_dominates hop.2).mono h₃.own
          · exact hdom z hz

/-- **A leaf cell that is pulled is dominated**: whatever the peer dominated in it. -/
theorem run_pullLeaf (hU : Independent rowDigest U) (hR : Gentle U R) {D : LeafDepth}
    {item : WorkItem D} (hp : IsPrefix item.depth item.nodePrefix) {stats : SyncStats}
    {S : Set Row} (hs : BothConsistent U s) (hS : DominatesAll s.peer S)
    {r : Except SyncError SyncStats} (h : Run R (syncSem pol) (pullLeaf item stats) s r s') :
    Advanced U s s' ∧ ∀ stats', r = .ok stats' → ∀ y ∈ S,
      InCell item.epoch item.depth item.nodePrefix y.1 →
        Dominates itemDigest s'.own.table y.1 y.2 := by
  obtain ⟨_, answer, s₁, hR₁, ⟨rfl, hop⟩, hrest⟩ := h
  have h₁ := hR.advanced _ _ hR₁ hs
  rcases hop with ⟨rows, items, hrows, hitems, rfl⟩ | ⟨status, rfl⟩
  · have hmem := @SyncService.mem_fetch_leaf _ s₁.peer item.epoch _ _ hp rows hrows
    have hsent : ∀ row, .ok row ∈ items → row ∈ rows := by
      intro row hrow
      rcases hitems with rfl | ⟨n, status, rfl⟩
      · simpa using hrow
      · rcases List.mem_append.1 hrow with hrow | hrow
        · obtain ⟨x, hx, hxr⟩ := List.mem_map.1 hrow
          obtain rfl := Except.ok.inj hxr
          exact List.mem_of_mem_take hx
        · cases List.mem_singleton.1 hrow
    have hinU : ∀ row, .ok row ∈ items → ∃ y ∈ U, row = ⟨y.1.bytes, y.2⟩ := by
      intro row hrow
      obtain ⟨y, hy, -, rfl⟩ := hmem.1 (hsent row hrow)
      exact ⟨y, h₁.consistent.peer.rows hy, rfl⟩
    obtain ⟨h₂, hdom⟩ := run_ingestRows hU hR hinU h₁.consistent hrest
    refine ⟨h₁.trans h₂, fun stats' hr y hy hc => ?_⟩
    obtain ⟨herr, hdom⟩ := hdom stats' hr
    obtain rfl : items = rows.map .ok := by
      rcases hitems with hitems | ⟨n, status, rfl⟩
      · exact hitems
      · exact absurd (by simp) (herr status)
    obtain ⟨w, hw, hle⟩ := exists_mem_rows ((hS y hy).mono h₁.peer)
    have hrow : (⟨y.1.bytes, w⟩ : SyncRow) ∈ rows := hmem.2 ⟨(y.1, w), hw, hc, rfl⟩
    exact (hdom (y.1, w) (List.mem_map_of_mem hrow)).of_le hle
  · obtain ⟨hR', rfl⟩ := hrest
    exact ⟨h₁.trans (hR.advanced _ _ hR' h₁.consistent), fun _ h => nomatch h⟩

/-! ## The descent -/

section Answers

variable {t : SpatioTemporalStore L'} {e : Epoch} {p : ℕ} {cells : List ChildHash}

theorem tellsOf_roots (ht : Consistent U t) :
    ∀ x ∈ (SyncService.roots t).roots.map fun root =>
      (root.epoch, (⟨0, root.hash⟩ : ChildHash)), TellsOf t.rows 0 x := by
  intro x hx
  obtain ⟨root, hin, rfl⟩ := List.mem_map.1 hx
  refine ⟨isPrefix_zero, ?_⟩
  rw [← ht.hashes root.epoch 0 0 L'.valid_zero isPrefix_zero]
  exact (SyncService.mem_roots.1 hin).2

/-- The peer sends the root of the epoch of every row that it holds. -/
theorem exists_root_of_mem (hU : Independent rowDigest U) (ht : Consistent U t) {y : Row}
    (hy : y ∈ t.rows) : ∃ root ∈ (SyncService.roots t).roots, InCell root.epoch 0 0 y.1 := by
  have hc : InCell y.1.epoch 0 0 y.1 := inCell_zero.2 rfl
  have hne := cellHash_ne_zero hU ht.rows hy hc
  rw [← ht.hashes _ 0 0 L'.valid_zero isPrefix_zero] at hne
  obtain ⟨root, hin, he⟩ := SyncService.exists_root hne
  exact ⟨root, hin, he ▸ hc⟩

theorem nodeHash_children (ht : Consistent U t) (hp : IsPrefix d p)
    (h : SyncService.children t e d p = .ok cells) {c : ℕ} (hc : c < 8) :
    t.merkle.nodeHash e (d + 3) (childPrefix d p c) =
      cellHash t.rows e (d + 3) (childPrefix d p c) := by
  have hvalid := (SyncService.children_eq_ok h).1
  have hdepth : d + 3 ≤ 64 := (hvalid.2.trans L'.le_63).trans (by norm_num)
  exact ht.hashes _ _ _ hvalid (hp.childPrefix hdepth hc)

theorem tellsOf_children (ht : Consistent U t) (hp : IsPrefix d p)
    (h : SyncService.children t e d p = .ok cells) :
    ∀ x ∈ cells.map fun c => (e, c), TellsOf t.rows (d + 3) x := by
  intro x hx
  obtain ⟨cell, hcell, rfl⟩ := List.mem_map.1 hx
  obtain ⟨hvalid, hcells⟩ := SyncService.children_eq_ok h
  obtain ⟨c, hc, hq, -, hh⟩ := (hcells cell).1 hcell
  have hdepth : d + 3 ≤ 64 := (hvalid.2.trans L'.le_63).trans (by norm_num)
  rw [hq, nodeHash_children ht hp h hc, ← hq] at hh
  exact ⟨hq ▸ hp.childPrefix hdepth hc, hh⟩

/-- The peer sends a child cell for every row that it holds in the cell. -/
theorem exists_child_of_mem (hU : Independent rowDigest U) (ht : Consistent U t)
    (hp : IsPrefix d p) (h : SyncService.children t e d p = .ok cells) {y : Row}
    (hy : y ∈ t.rows) (hc : InCell e d p y.1) :
    ∃ cell ∈ cells, InCell e (d + 3) cell.nodePrefix y.1 := by
  have hvalid := (SyncService.children_eq_ok h).1
  obtain ⟨c, hc8, hc⟩ := hc.exists_child ((hvalid.2.trans L'.le_63).trans (by norm_num))
  have hne := cellHash_ne_zero hU ht.rows hy hc
  rw [← nodeHash_children ht hp h hc8] at hne
  obtain ⟨cell, hcell, hq⟩ := SyncService.exists_child h hc8 hne
  exact ⟨cell, hcell, hq ▸ hc⟩

end Answers

/-- The dominated rows of an inner cell go on to the children, or are dominated. -/
theorem run_pullChildren (hU : Independent rowDigest U) (hR : Gentle U R) {D : LeafDepth}
    (hD : D.bits ≤ L.bits) {item : WorkItem D} (hleaf : item.depth ≠ D.bits)
    (hp : IsPrefix item.depth item.nodePrefix) {S : Set Row} (hs : BothConsistent U s)
    (hS : DominatesAll s.peer S) {r : Except SyncError (List ℕ)}
    (h : Run R (syncSem pol) (pullChildren item) s r s') :
    Advanced U s s' ∧ ∀ l, r = .ok l →
      (∀ q ∈ l, IsPrefix (item.depth + 3) q) ∧
      ∀ y ∈ S, InCell item.epoch item.depth item.nodePrefix y.1 →
        (∃ q ∈ l, InCell item.epoch (item.depth + 3) q y.1) ∨
          Dominates itemDigest s'.own.table y.1 y.2 := by
  have hvalid : D.Valid (item.depth + 3) := (item.child hleaf 0).valid
  obtain ⟨_, answer, s₁, hR₁, ⟨rfl, hop⟩, hrest⟩ := h
  have h₁ := hR.advanced _ _ hR₁ hs
  cases answer with
  | error status =>
    obtain ⟨hR', rfl⟩ := hrest
    exact ⟨h₁.trans (hR.advanced _ _ hR' h₁.consistent), fun _ h => nomatch h⟩
  | ok cells =>
    have hop : SyncService.children s₁.peer item.epoch item.depth item.nodePrefix = .ok cells := by
      rcases hop with hop | ⟨status, hop⟩
      · exact hop.symm
      · cases hop
    change Run R (syncSem pol) (divergent (item.depth + 3) (cells.map fun c => (item.epoch, c)) >>=
      fun r => pure (r.map (List.map Prod.snd))) s₁ r s' at hrest
    obtain ⟨r', s₂, hrun, hR₂, rfl⟩ := run_bind hR.refl hrest
    obtain ⟨h₂, hl⟩ := run_divergent hU hR h₁.consistent.peer.rows ⟨hvalid.1, hvalid.2.trans hD⟩
      (tellsOf_children h₁.consistent.peer hp hop) h₁.consistent hrun
    have h₃ := hR.advanced _ _ hR₂ h₂.consistent
    refine ⟨(h₁.trans h₂).trans h₃, fun l hl' => ?_⟩
    cases r' with
    | error err => cases hl'
    | ok l' =>
      obtain rfl := Except.ok.inj hl'
      obtain ⟨hcut, hheld⟩ := hl l' rfl
      refine ⟨fun q hq => ?_, fun y hy hc => ?_⟩
      · obtain ⟨z, hz, rfl⟩ := List.mem_map.1 hq
        exact hcut z hz
      · obtain ⟨w, hw, hle⟩ := exists_mem_rows ((hS y hy).mono h₁.peer)
        -- the child cell holds a row of the peer, so the peer sent its hash
        obtain ⟨cell, hcell, hc⟩ := exists_child_of_mem hU h₁.consistent.peer hp hop hw hc
        rcases hheld (item.epoch, cell) (List.mem_map_of_mem hcell) with hin | hin
        · exact .inl ⟨cell.nodePrefix, List.mem_map_of_mem hin, hc⟩
        · exact .inr (((hin (y.1, w) hw hc).mono h₃.own).of_le hle)

/-- The rows `S` are dominated by the own store, or lie in a cell of the work list. -/
structure Pending {D : LeafDepth} (S : Set Row) (own : SpatioTemporalStore L)
    (work : List (WorkItem D)) : Prop where
  isPrefix : ∀ item ∈ work, IsPrefix item.depth item.nodePrefix
  rows : ∀ y ∈ S, Dominates itemDigest own.table y.1 y.2 ∨
    ∃ item ∈ work, InCell item.epoch item.depth item.nodePrefix y.1

/-- A leaf cell is taken off the work list. -/
theorem Pending.leaf {D : LeafDepth} {S : Set Row} {own own' : SpatioTemporalStore L}
    {item : WorkItem D} {work : List (WorkItem D)} (h : Pending S own (item :: work))
    (hgrow : Below itemDigest own.table own'.table)
    (hitem : ∀ y ∈ S, InCell item.epoch item.depth item.nodePrefix y.1 →
      Dominates itemDigest own'.table y.1 y.2) : Pending S own' work where
  isPrefix := fun x hx => h.isPrefix x (List.mem_cons_of_mem _ hx)
  rows := by
    intro y hy
    rcases h.rows y hy with hdom | ⟨x, hx, hc⟩
    · exact .inl (hdom.mono hgrow)
    · rcases List.mem_cons.1 hx with rfl | hx
      · exact .inl (hitem y hy hc)
      · exact .inr ⟨x, hx, hc⟩

/-- An inner cell makes room for children of it. -/
theorem Pending.inner {D : LeafDepth} {S : Set Row} {own own' : SpatioTemporalStore L}
    {item : WorkItem D} {work : List (WorkItem D)} (h : Pending S own (item :: work))
    (hleaf : item.depth ≠ D.bits) (hgrow : Below itemDigest own.table own'.table) {l : List ℕ}
    (hcut : ∀ q ∈ l, IsPrefix (item.depth + 3) q)
    (hitem : ∀ y ∈ S, InCell item.epoch item.depth item.nodePrefix y.1 →
      (∃ q ∈ l, InCell item.epoch (item.depth + 3) q y.1) ∨
        Dominates itemDigest own'.table y.1 y.2) :
    Pending S own' (work ++ l.map (item.child hleaf)) where
  isPrefix := by
    intro x hx
    rcases List.mem_append.1 hx with hx | hx
    · exact h.isPrefix x (List.mem_cons_of_mem _ hx)
    · obtain ⟨q, hq, rfl⟩ := List.mem_map.1 hx
      exact hcut q hq
  rows := by
    intro y hy
    rcases h.rows y hy with hdom | ⟨x, hx, hc⟩
    · exact .inl (hdom.mono hgrow)
    · rcases List.mem_cons.1 hx with rfl | hx
      · rcases hitem y hy hc with ⟨q, hq, hc⟩ | hdom
        · exact .inr ⟨_, List.mem_append_right _ (List.mem_map_of_mem hq), hc⟩
        · exact .inl hdom
      · exact .inr ⟨x, List.mem_append_left _ hx, hc⟩

/-- **The loop dominates what is pending.** -/
theorem run_syncLoop (hU : Independent rowDigest U) (hR : Gentle U R) {D : LeafDepth}
    (hD : D.bits ≤ L.bits) {S : Set Row} (work : List (WorkItem D)) {stats : SyncStats}
    (hs : BothConsistent U s) (hS : DominatesAll s.peer S) (hpending : Pending S s.own work)
    {r : Except SyncError SyncStats} (h : Run R (syncSem pol) (syncLoop work stats) s r s') :
    Advanced U s s' ∧ ∀ stats', r = .ok stats' → DominatesAll s'.own S := by
  induction work using WorkItem.queue_induction generalizing s stats with
  | nil =>
    rw [syncLoop_nil] at h
    obtain ⟨hR', rfl⟩ := h
    have h₁ := hR.advanced _ _ hR' hs
    refine ⟨h₁, fun _ _ y hy => ?_⟩
    rcases hpending.rows y hy with hdom | ⟨_, hx, -⟩
    · exact hdom.mono h₁.own
    · cases hx
  | leaf item work hleaf ih =>
    rw [syncLoop_leaf hleaf] at h
    obtain ⟨r', s₁, hone, hrest⟩ := run_bind hR.refl h
    obtain ⟨h₁, hdom⟩ := run_pullLeaf hU hR (hpending.isPrefix item (by simp)) hs hS hone
    cases r' with
    | error err =>
      obtain ⟨hR', rfl⟩ := hrest
      exact ⟨h₁.trans (hR.advanced _ _ hR' h₁.consistent), fun _ h => nomatch h⟩
    | ok stats₁ =>
      obtain ⟨h₂, hrest⟩ := ih h₁.consistent (hS.mono h₁.peer)
        (hpending.leaf h₁.own (hdom stats₁ rfl)) hrest
      exact ⟨h₁.trans h₂, hrest⟩
  | inner item work hleaf ih =>
    rw [syncLoop_inner hleaf] at h
    obtain ⟨r', s₁, hone, hrest⟩ := run_bind hR.refl h
    obtain ⟨h₁, hl⟩ := run_pullChildren hU hR hD hleaf (hpending.isPrefix item (by simp)) hs hS
      hone
    cases r' with
    | error err =>
      obtain ⟨hR', rfl⟩ := hrest
      exact ⟨h₁.trans (hR.advanced _ _ hR' h₁.consistent), fun _ h => nomatch h⟩
    | ok l =>
      obtain ⟨hcut, hitem⟩ := hl l rfl
      obtain ⟨h₂, hrest⟩ := ih l h₁.consistent (hS.mono h₁.peer)
        (hpending.inner hleaf h₁.own hcut hitem) hrest
      exact ⟨h₁.trans h₂, hrest⟩

/-! ## The round -/

/-- **A round from the answer of `Roots` on** dominates all the rows that the peer held then. -/
theorem run_pullFrom (hU : Independent rowDigest U) (hR : Gentle U R)
    {t : SpatioTemporalStore L'} (ht : Consistent U t) (hs : BothConsistent U s)
    (hgrow : Below itemDigest t.table s.peer.table) {r : Except SyncError SyncStats}
    (h : Run R (syncSem pol) (pullFrom L (SyncService.roots t)) s r s') :
    Advanced U s s' ∧ ∀ stats, r = .ok stats → DominatesAll s'.own (t.rows : Set Row) := by
  unfold pullFrom at h
  cases hD : descendTo L (SyncService.roots t).leafDepthBits with
  | none =>
    rw [hD] at h
    obtain ⟨hR', rfl⟩ := h
    exact ⟨hR.advanced _ _ hR' hs, fun _ h => nomatch h⟩
  | some D =>
    rw [hD] at h
    obtain ⟨r', s₁, hone, hrest⟩ := run_bind hR.refl h
    obtain ⟨h₁, hl⟩ := run_divergent hU hR ht.rows L.valid_zero (tellsOf_roots ht) hs hone
    cases r' with
    | error err =>
      obtain ⟨hR', rfl⟩ := hrest
      exact ⟨h₁.trans (hR.advanced _ _ hR' h₁.consistent), fun _ h => nomatch h⟩
    | ok l =>
      obtain ⟨hcut, hheld⟩ := hl l rfl
      have hS : DominatesAll s₁.peer (t.rows : Set Row) :=
        (dominatesAll_rows t).mono (hgrow.trans h₁.peer)
      have hpending : Pending (t.rows : Set Row) s₁.own (l.map (.root (D := D))) := by
        refine ⟨fun x hx => ?_, fun y hy => ?_⟩
        · obtain ⟨z, hz, rfl⟩ := List.mem_map.1 hx
          exact hcut z hz
        · obtain ⟨root, hin, hc⟩ := exists_root_of_mem hU ht hy
          rcases hheld (root.epoch, ⟨0, root.hash⟩) (List.mem_map_of_mem hin) with hin | hin
          · exact .inr ⟨.root (root.epoch, 0), List.mem_map_of_mem hin, hc⟩
          · exact .inl (hin y hy hc)
      obtain ⟨h₂, hdom⟩ := run_syncLoop hU hR (bits_of_descendTo hD) _ h₁.consistent hS hpending
        hrest
      exact ⟨h₁.trans h₂, hdom⟩

end Runs

/-- A round never changes the peer. -/
theorem peer_of_alone {α : Type} {p : SyncProg α} {a : α} (h : Alone (syncSem pol) p s a s') :
    s'.peer = s.peer := by
  refine Run.preserves (I := fun x => x.peer = s.peer) (fun x y hxy hx => hxy ▸ hx) ?_ h rfl
  intro o x r y ho hx
  cases o with
  | ingest k v => exact ho.1.trans hx
  | _ => exact (congrArg Peers.peer ho.1).trans hx

/-- **A round that runs alone** grows the own store by rows of `U` and leaves the peer as it is;
when it ends well, the own store dominates all rows of the peer. -/
theorem alone_syncOnce (hU : Independent rowDigest U) (hs : BothConsistent U s)
    {r : Except SyncError SyncStats} (h : Alone (syncSem pol) (syncOnce L) s r s') :
    Advanced U s s' ∧ ∀ stats, r = .ok stats → DominatesAll s'.own (s.peer.rows : Set Row) := by
  obtain ⟨_, response, s₁, rfl, ⟨rfl, hop⟩, hrest⟩ := h
  rcases hop with rfl | ⟨status, rfl⟩
  · exact run_pullFrom hU gentle_eq hs.peer hs (.refl _) hrest
  · obtain ⟨rfl, rfl⟩ := hrest
    exact ⟨.refl hs, fun _ h => nomatch h⟩

/-! ## Concrete rounds -/

/-- What an operation does when nothing fails. -/
def SyncOp.run (o : SyncOp) (s : Peers L L') : Option (o.Resp × Peers L L') :=
  match o with
  | .roots => some (.ok (SyncService.roots s.peer), s)
  | .children e d p => some (SyncService.children s.peer e d p, s)
  | .fetch start stop => some ((SyncService.fetch s.peer start stop).map (List.map .ok), s)
  | .nodeHash e d p => some (s.own.merkle.nodeHash e d p, s)
  | .ingest k v =>
    ((InterstellarDb.ingest k v).exec StoreOp.run s.own).map fun x => (x.1, { s with own := x.2 })

theorem sem_of_run {o : SyncOp} {r : o.Resp} (h : o.run s = some (r, s')) :
    syncSem .reliable o s r s' := by
  cases o with
  | roots =>
    cases h
    exact ⟨rfl, .inl rfl⟩
  | children e d p =>
    cases h
    exact ⟨rfl, .inl rfl⟩
  | fetch start stop =>
    cases h
    refine ⟨rfl, ?_⟩
    cases hf : SyncService.fetch s.peer start stop with
    | error status => exact .inr ⟨status, rfl⟩
    | ok rows => exact .inl ⟨rows, _, rfl, .inl rfl, rfl⟩
  | nodeHash e d p =>
    cases h
    exact ⟨rfl, rfl⟩
  | ingest k v =>
    obtain ⟨x, hx, hr⟩ := Option.map_eq_some_iff.1 h
    cases hr
    exact ⟨rfl, alone_of_exec (fun _ _ _ _ => sem_reliable) hx⟩

/-- The stores after a round in which nothing fails. -/
def pull (A : SpatioTemporalStore L) (B : SpatioTemporalStore L') : Peers L L' :=
  (((levelwise L).exec SyncOp.run (⟨A, B⟩ : Peers L L')).map Prod.snd).getD ⟨A, B⟩

/-- A round that performs is a round. -/
theorem alone_pull {A : SpatioTemporalStore L} {B : SpatioTemporalStore L'}
    {r : Except SyncError SyncStats}
    (h : ((levelwise L).exec SyncOp.run (⟨A, B⟩ : Peers L L')).map Prod.fst = some r) :
    Alone (syncSem .reliable) (syncOnce L) ⟨A, B⟩ r ⟨(pull A B).own, (pull A B).peer⟩ := by
  obtain ⟨⟨_, s'⟩, hx, rfl⟩ := Option.map_eq_some_iff.1 h
  have hpull : pull A B = s' := by
    rw [pull, hx, Option.map_some, Option.getD_some]
  rw [hpull, syncOnce_eq_levelwise]
  exact alone_of_exec (fun _ _ _ _ => sem_of_run) hx

end InterstellarDb
