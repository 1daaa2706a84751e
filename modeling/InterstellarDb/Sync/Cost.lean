import InterstellarDb.Store.Batch
import InterstellarDb.Store.Scan
import InterstellarDb.Sync.Delivery
import InterstellarDb.Sync.Wire

/-!
# The cost and the report of a pull round

A round without other writes asks for the children of cells that differ only, and fetches leaf
cells that differ only, each of them once. Hashes of cells that hold the same rows are the same, so
there are at most as many such cells on a level as there are rows in the symmetric difference of
the two stores, whatever the digests are (`Divergent.length_le`).

The stats of a round that ends well are what it did (`syncOnce_reports`): the leaf cells it fetched,
the rows of the peer that lie in them, and the rows of the own store that changed.
-/

namespace InterstellarDb

open Atomic GreatestWins

variable {La Lb : LeafDepth}

/-! ## Cells that differ -/

/-- Distinct cells of one depth where the forests differ. -/
structure Divergent (a : MerkleForest La) (b : MerkleForest Lb) (d : ℕ) (l : List (Epoch × ℕ)) :
    Prop where
  nodup : l.Nodup
  isPrefix : ∀ x ∈ l, IsPrefix d x.2
  differ : ∀ x ∈ l, a.nodeHash x.1 d x.2 ≠ b.nodeHash x.1 d x.2

/-- The offered children of cells. -/
def offeredNext (a : MerkleForest La) (b : MerkleForest Lb) (d : ℕ) (l : List (Epoch × ℕ)) :
    List (Epoch × ℕ) :=
  l.flatMap fun x => (offeredChildren a b x.1 d x.2).map (x.1, ·)

/-- The cells above the leaves of a descent from the cells `n` levels above them, level by level. -/
def innerCells (a : MerkleForest La) (b : MerkleForest Lb) (D : ℕ) :
    ℕ → List (Epoch × ℕ) → List (Epoch × ℕ × ℕ)
  | 0, _ => []
  | n + 1, l => l.map (fun x => (x.1, D - 3 * (n + 1), x.2)) ++
      innerCells a b D n (offeredNext a b (D - 3 * (n + 1)) l)

section Cells

variable {a : MerkleForest La} {b : MerkleForest Lb} {D d n : ℕ} {l : List (Epoch × ℕ)}

theorem nodup_offeredChildren {e : Epoch} {p : ℕ} (hp : IsPrefix d p) (hd : d + 3 ≤ 64) :
    (offeredChildren a b e d p).Nodup :=
  ((ascending_differing hp hd).imp ne_of_lt).filter _

theorem mem_offeredChildren {e : Epoch} {p q : ℕ} (h : q ∈ offeredChildren a b e d p) :
    (∃ c < 8, q = childPrefix d p c) ∧ a.nodeHash e (d + 3) q ≠ b.nodeHash e (d + 3) q :=
  mem_differing.1 (List.mem_filter.1 h).1

/-- The offered children of distinct cells are distinct cells. -/
theorem Divergent.next (h : Divergent a b d l) (hd : d + 3 ≤ 64) :
    Divergent a b (d + 3) (offeredNext a b d l) where
  nodup := by
    refine List.nodup_flatMap.2 ⟨fun x hx => ?_, ?_⟩
    · exact (nodup_offeredChildren (h.isPrefix x hx) hd).map fun _ _ h => congrArg Prod.snd h
    · refine h.nodup.imp_of_mem fun {x y} hx hy hne => ?_
      intro z hzx hzy
      obtain ⟨p, hp, rfl⟩ := List.mem_map.1 hzx
      obtain ⟨q, hq, heq⟩ := List.mem_map.1 hzy
      obtain ⟨he, rfl⟩ := Prod.mk.injEq .. ▸ heq
      obtain ⟨⟨c, hc, hpc⟩, -⟩ := mem_offeredChildren hp
      obtain ⟨⟨c', hc', hqc⟩, -⟩ := mem_offeredChildren hq
      -- a cell is the one above each of its children
      have hcell : x.2 = y.2 := by
        rw [← prefixAt_childPrefix (h.isPrefix x hx) hd hc, ← hpc, hqc,
          prefixAt_childPrefix (h.isPrefix y hy) hd hc']
      exact hne (Prod.ext he.symm hcell)
  isPrefix := by
    intro x hx
    obtain ⟨y, hy, hxy⟩ := List.mem_flatMap.1 hx
    obtain ⟨q, hq, rfl⟩ := List.mem_map.1 hxy
    obtain ⟨⟨c, hc, rfl⟩, -⟩ := mem_offeredChildren hq
    exact (h.isPrefix y hy).childPrefix hd hc
  differ := by
    intro x hx
    obtain ⟨y, -, hxy⟩ := List.mem_flatMap.1 hx
    obtain ⟨q, hq, rfl⟩ := List.mem_map.1 hxy
    exact (mem_offeredChildren hq).2

theorem divergent_offeredRoots (a : MerkleForest La) (b : MerkleForest Lb) :
    Divergent a b 0 (offeredRoots a b) where
  nodup := by
    rw [offeredRoots_eq]
    have hepochs : (bothEpochs a b).Nodup := (ascending_bothEpochs a b).imp ne_of_lt
    exact (hepochs.filter _).map fun _ _ h => congrArg Prod.fst h
  isPrefix := by
    intro x hx
    obtain ⟨_, -, rfl⟩ := List.mem_map.1 hx
    exact isPrefix_zero
  differ := by
    intro x hx
    rw [offeredRoots_eq] at hx
    obtain ⟨e, he, rfl⟩ := List.mem_map.1 hx
    exact (of_decide_eq_true (List.mem_filter.1 he).2).1

/-- The cells of all levels down to the leaves differ. -/
theorem Divergent.levels (h : Divergent a b (D - 3 * n) l) (hn : 3 * n ≤ D) (hD : D ≤ 63) :
    Divergent a b D (offeredLevels a b D n l) ∧
      ∀ c ∈ innerCells a b D n l, c.2.1 + 3 ≤ D ∧ c.2.1 % 3 = D % 3 ∧ IsPrefix c.2.1 c.2.2 ∧
        a.nodeHash c.1 c.2.1 c.2.2 ≠ b.nodeHash c.1 c.2.1 c.2.2 := by
  induction n generalizing l with
  | zero => exact ⟨h, fun _ hc => (List.not_mem_nil hc).elim⟩
  | succ n ih =>
    have hnext : Divergent a b (D - 3 * n) (offeredNext a b (D - 3 * (n + 1)) l) := by
      have := h.next (by omega)
      rwa [show D - 3 * (n + 1) + 3 = D - 3 * n by omega] at this
    obtain ⟨hleaves, hinner⟩ := ih hnext (by omega)
    refine ⟨hleaves, fun c hc => ?_⟩
    rcases List.mem_append.1 hc with hc | hc
    · obtain ⟨x, hx, rfl⟩ := List.mem_map.1 hc
      exact ⟨by dsimp only; omega, by dsimp only; omega, h.isPrefix x hx, h.differ x hx⟩
    · exact hinner c hc

end Cells

/-! ## Forests of rows -/

section Rows

variable [Sha256] {a : MerkleForest La} {b : MerkleForest Lb} {A B : Finset Row} {d D n : ℕ}
  {l : List (Epoch × ℕ)}

/-- A cell where the hashes differ holds a row of one of the sets only. -/
theorem exists_of_nodeHash_ne (ha : Hashes a A) (hb : Hashes b B) {e : Epoch} {p : ℕ}
    (hda : La.Valid d) (hdb : Lb.Valid d) (hp : IsPrefix d p)
    (hne : a.nodeHash e d p ≠ b.nodeHash e d p) : ∃ y ∈ symmDiff A B, InCell e d p y.1 := by
  by_contra hnone
  push Not at hnone
  refine hne ?_
  rw [ha e d p hda hp, hb e d p hdb hp, cellHash, cellHash]
  congr 1
  ext y
  simp only [Finset.mem_filter]
  refine and_congr_left fun hc => ?_
  by_contra hiff
  refine hnone y ?_ hc
  rw [Finset.mem_symmDiff]
  tauto

/-- **There are at most as many cells that differ as rows that do.** -/
theorem Divergent.length_le (h : Divergent a b d l) (ha : Hashes a A) (hb : Hashes b B)
    (hda : La.Valid d) (hdb : Lb.Valid d) : l.length ≤ (symmDiff A B).card := by
  have hcells : l.toFinset ⊆
      (symmDiff A B).image fun y => (y.1.epoch, prefixAt y.1.morton d) := by
    intro x hx
    rw [List.mem_toFinset] at hx
    obtain ⟨y, hy, he, hp⟩ :=
      exists_of_nodeHash_ne ha hb hda hdb (h.isPrefix x hx) (h.differ x hx)
    exact Finset.mem_image.2 ⟨y, hy, Prod.ext he hp⟩
  calc l.length = l.toFinset.card := (List.toFinset_card_of_nodup h.nodup).symm
    _ ≤ ((symmDiff A B).image fun y => (y.1.epoch, prefixAt y.1.morton d)).card :=
      Finset.card_le_card hcells
    _ ≤ (symmDiff A B).card := Finset.card_image_le

/-- Every level above the leaves has at most as many cells as rows differ. -/
theorem Divergent.length_innerCells_le (h : Divergent a b (D - 3 * n) l) (hn : 3 * n ≤ D)
    (hDa : La.Valid D) (hDb : Lb.Valid D) (ha : Hashes a A) (hb : Hashes b B) :
    (innerCells a b D n l).length ≤ n * (symmDiff A B).card := by
  have hD := hDa.2.trans La.le_63
  induction n generalizing l with
  | zero => exact Nat.zero_le _
  | succ n ih =>
    have hnext : Divergent a b (D - 3 * n) (offeredNext a b (D - 3 * (n + 1)) l) := by
      have := h.next (by omega)
      rwa [show D - 3 * (n + 1) + 3 = D - 3 * n by omega] at this
    obtain ⟨hmoda, hlea⟩ := hDa
    obtain ⟨hmodb, hleb⟩ := hDb
    have hlevel := h.length_le ha hb ⟨by omega, by omega⟩ ⟨by omega, by omega⟩
    have hrest := ih hnext (by omega)
    rw [innerCells, List.length_append, List.length_map, Nat.succ_mul n]
    omega

end Rows

/-! ## The questions of a round -/

variable {L L' : LeafDepth}

/-- The cell whose children an operation asks for. -/
def SyncOp.asked : SyncOp → Option (Epoch × ℕ × ℕ)
  | .children e d p => some (e, d, p)
  | _ => none

/-- The cells whose children are asked for in a trace, in order. -/
def asks (t : List (Event syncSig (Peers L L'))) : List (Epoch × ℕ × ℕ) :=
  t.filterMap fun x => x.op.asked

/-- A part of a round asks for the children of a first part of the cells, and of all of them when it
ends well. -/
structure Asks {α : Type} (t : List (Event syncSig (Peers L L'))) (r : Except SyncError α)
    (l : List (Epoch × ℕ × ℕ)) : Prop where
  first : asks t <+: l
  all : ∀ a, r = .ok a → asks t = l

section Asks

variable {s s' : Peers L L'} {t t₁ t₂ : List (Event syncSig (Peers L L'))} {α β : Type}
  {l l₁ l₂ : List (Epoch × ℕ × ℕ)}

theorem asks_append : asks (t₁ ++ t₂) = asks t₁ ++ asks t₂ := List.filterMap_append

theorem asks_eq_nil (h : ∀ x ∈ t, x.op.asked = none) : asks t = [] :=
  List.filterMap_eq_nil_iff.2 h

theorem Asks.of_eq {r : Except SyncError α} (h : asks t = l) : Asks t r l :=
  ⟨h ▸ List.prefix_rfl, fun _ _ => h⟩

theorem Asks.append {a : α} {r : Except SyncError β} (h₁ : Asks t₁ (.ok a) l₁) (h₂ : Asks t₂ r l₂) :
    Asks (t₁ ++ t₂) r (l₁ ++ l₂) where
  first := by
    rw [asks_append, h₁.all a rfl]
    exact (List.prefix_append_right_inj _).2 h₂.first
  all := by
    intro b hb
    rw [asks_append, h₁.all a rfl, h₂.all b hb]

theorem Asks.stop {err err' : SyncError} (h : Asks t (.error err : Except SyncError α) l₁) :
    Asks t (.error err' : Except SyncError β) (l₁ ++ l₂) :=
  ⟨h.first.trans (List.prefix_append _ _), fun _ hr => nomatch hr⟩

end Asks

section Parts

variable {D : LeafDepth}

/-- The operations that ask for no children. -/
abbrev unasking : Protocol syncSig := .only fun o => o.asked = none

theorem follows_divergent_unasking (d : ℕ) (cells : List (Epoch × ChildHash)) :
    Follows unasking (fun _ _ => True) () (divergent d cells) := by
  induction cells with
  | nil => trivial
  | cons x cells ih =>
    have hone : Follows unasking (fun _ _ => True) () (diverges x.1 d x.2) := by
      unfold diverges
      split
      · trivial
      · split_ifs
        · trivial
        · exact ⟨rfl, fun _ => trivial⟩
    refine hone.bind fun r _ _ => ?_
    cases r with
    | error err => trivial
    | ok pushed => exact ih.bind fun _ _ _ => trivial

theorem follows_ingestRows_unasking (items : List (Except Status SyncRow)) (stats : SyncStats) :
    Follows unasking (fun _ _ => True) () (ingestRows items stats) := by
  induction items generalizing stats with
  | nil => trivial
  | cons x items ih =>
    cases x with
    | error status => trivial
    | ok row =>
      rw [ingestRows]
      cases Key.tryFrom row.key with
      | none => trivial
      | some key =>
        refine ⟨rfl, fun r => ?_⟩
        cases r with
        | error err => trivial
        | ok changed => exact ih _

theorem follows_pullLeaves_unasking (l : List (Epoch × ℕ)) (stats : SyncStats) :
    Follows unasking (fun _ _ => True) () (pullLeaves D l stats) := by
  induction l generalizing stats with
  | nil => trivial
  | cons x l ih =>
    have hone : Follows unasking (fun _ _ => True) () (pullLeaf (.above (D := D) 0 x) stats) := by
      rw [pullLeaf_eq]
      refine ⟨rfl, fun r => ?_⟩
      cases r with
      | error status => trivial
      | ok items => exact follows_ingestRows_unasking items _
    refine hone.bind fun r _ _ => ?_
    cases r with
    | error err => trivial
    | ok stats' => exact ih stats'

variable [Sha256] {pol : KvPolicy} {s s' : Peers L L'} {t : List (Event syncSig (Peers L L'))}

theorem asks_pullChildren {item : WorkItem D} {r : Except SyncError (List ℕ)}
    (hrun : Traced (syncSem pol) (pullChildren item) s t r s') :
    asks t = [(item.epoch, item.depth, item.nodePrefix)] := by
  obtain ⟨answer, s₁, t', rfl, -, hrest⟩ := hrun
  have hnil : asks t' = [] := by
    cases answer with
    | error status =>
      obtain ⟨rfl, -, -⟩ := hrest
      rfl
    | ok children =>
      refine asks_eq_nil (hrest.forall_op (C := fun o : SyncOp => o.asked = none)
        (Q := fun _ _ => True) ?_)
      exact (follows_divergent_unasking _ _).bind fun _ _ _ => trivial
  exact congrArg (_ :: ·) hnil

theorem asks_pullLevel {n : ℕ} {l : List (Epoch × ℕ)} {r : Except SyncError (List (Epoch × ℕ))}
    (hrun : Traced (syncSem pol) (pullLevel D n l) s t r s') :
    Asks t r (l.map fun x => (x.1, D.bits - 3 * (n + 1), x.2)) := by
  induction l generalizing s t r with
  | nil =>
    obtain ⟨rfl, -, -⟩ := hrun
    exact .of_eq rfl
  | cons x l ih =>
    obtain ⟨t₁, r₁, s₁, t₂, rfl, hone, hrest⟩ := traced_bind.1 hrun
    have hfirst := asks_pullChildren hone
    cases r₁ with
    | error err =>
      obtain ⟨rfl, -, rfl⟩ := hrest
      rw [List.append_nil, List.map_cons]
      exact (Asks.of_eq (r := (.error err : Except SyncError (List ℕ))) hfirst).stop
    | ok children =>
      obtain ⟨t₂, r₂, s₂, t₃, rfl, hlevel, rfl, rfl, rfl⟩ := traced_bind.1 hrest
      have hrest := ih hlevel
      rw [List.append_nil, List.map_cons]
      refine (Asks.of_eq (r := (.ok children : Except SyncError (List ℕ))) hfirst).append
        ⟨hrest.first, fun a ha => ?_⟩
      cases r₂ with
      | error err => cases ha
      | ok more => exact hrest.all more rfl

/-- **The cells that a round asks about** are those of the levels above the leaves. -/
theorem asks_pullLevels (hD : D.bits ≤ L'.bits) {n : ℕ} (hn : n ≤ D.levels)
    {l : List (Epoch × ℕ)} {stats : SyncStats} {r : Except SyncError SyncStats}
    (hrun : Traced (syncSem pol) (pullLevels D n l stats) s t r s') :
    Asks t r (innerCells s.own.merkle s.peer.merkle D.bits n l) := by
  induction n generalizing l s t with
  | zero => exact .of_eq (asks_eq_nil (hrun.forall_op (follows_pullLeaves_unasking l stats)))
  | succ n ih =>
    obtain ⟨t₁, r₁, s₁, t₂, rfl, hlevel, hrest⟩ := traced_bind.1 hrun
    have hasks := asks_pullLevel hlevel
    obtain ⟨rfl, -, hr₁⟩ := traced_pullLevel hD hn hlevel
    rcases hr₁ with rfl | ⟨⟨err, rfl⟩, -⟩
    · exact hasks.append (ih (Nat.le_of_succ_le hn) hrest)
    · obtain ⟨rfl, -, rfl⟩ := hrest
      rw [List.append_nil]
      exact hasks.stop

end Parts

/-! ## The report of a round -/

/-- The stats after some leaf cells were fetched and their rows ingested. -/
def SyncStats.add (stats : SyncStats) (leaves : ℕ) (ds : List (Delivery L)) : SyncStats where
  leavesFetched := stats.leavesFetched + leaves
  rowsReceived := stats.rowsReceived + ds.length
  rowsApplied := stats.rowsApplied + ds.countP Delivery.changed

/-- The rows of leaf cells, cell after cell. -/
def cellRows (kv : KvTree) (d : ℕ) (l : List (Epoch × ℕ)) : List Row :=
  l.flatMap fun x => scanRange kv (leafKeyRange x.1 x.2 d).1 (leafKeyRange x.1 x.2 d).2

section CellRows

variable {kv : KvTree} {d : ℕ} {l : List (Epoch × ℕ)}

theorem mem_cellRows (hl : ∀ x ∈ l, IsPrefix d x.2) {y : Row} :
    y ∈ cellRows kv d l ↔ y ∈ kv.rows ∧ ∃ x ∈ l, InCell x.1 d x.2 y.1 := by
  rw [cellRows, List.mem_flatMap]
  constructor
  · rintro ⟨x, hx, hy⟩
    obtain ⟨hrow, hcovers⟩ := mem_scanRange.1 hy
    exact ⟨hrow, x, hx, (mem_leafKeyRange (hl x hx) y.1).1 hcovers⟩
  · rintro ⟨hrow, x, hx, hc⟩
    exact ⟨x, hx, mem_scanRange.2 ⟨hrow, (mem_leafKeyRange (hl x hx) y.1).2 hc⟩⟩

theorem cellRows_cons (x : Epoch × ℕ) :
    cellRows kv d (x :: l) = cellRows kv d [x] ++ cellRows kv d l := by
  simp [cellRows]

/-- Distinct cells have no key in common. -/
theorem nodup_keys_cellRows (kv : KvTree) (hnd : l.Nodup) (hl : ∀ x ∈ l, IsPrefix d x.2) :
    ((cellRows kv d l).map Prod.fst).Nodup := by
  rw [cellRows, List.map_flatMap, List.nodup_flatMap]
  refine ⟨fun x _ => (ascending_scanRange kv _ _).nodup_keys, hnd.imp_of_mem ?_⟩
  intro x y hx hy hne k hkx hky
  obtain ⟨v, hv, rfl⟩ := List.mem_map.1 hkx
  obtain ⟨w, hw, hkey⟩ := List.mem_map.1 hky
  obtain ⟨he, hp⟩ := (mem_leafKeyRange (hl x hx) v.1).1 (mem_scanRange.1 hv).2
  obtain ⟨he', hp'⟩ := (mem_leafKeyRange (hl y hy) w.1).1 (mem_scanRange.1 hw).2
  rw [hkey] at he' hp'
  exact hne (Prod.ext (he.symm.trans he') (hp.symm.trans hp'))

end CellRows

/-! ### Deliveries of distinct keys -/

section Deliveries

variable [Sha256] {pol : KvPolicy} {s s' : SpatioTemporalStore L} {ds : List (Delivery L)} {k : Key}

theorem Ingests.append {s₁ : SpatioTemporalStore L} {ds' : List (Delivery L)}
    (h : Ingests pol s ds s₁) (h' : Ingests pol s₁ ds' s') : Ingests pol s (ds ++ ds') s' := by
  induction ds generalizing s with
  | nil =>
    obtain rfl : s₁ = s := h
    exact h'
  | cons d ds ih =>
    obtain ⟨hbefore, hcall, hrest⟩ := h
    exact ⟨hbefore, hcall, ih hrest⟩

/-- A key that is not delivered keeps its payload. -/
theorem Ingests.frame (h : Ingests pol s ds s') (hk : ∀ d ∈ ds, d.row.1 ≠ k) :
    s'.table k = s.table k := by
  induction ds generalizing s with
  | nil =>
    obtain rfl : s' = s := h
    rfl
  | cons d ds ih =>
    obtain ⟨rfl, hcall, hrest⟩ := h
    rw [ih hrest fun x hx => hk x (List.mem_cons_of_mem _ hx), table_ingest hcall]
    exact offer_of_ne (hk d (List.mem_cons_self ..)).symm

/-- Among distinct keys, a delivery meets the payload that its key had at first, and leaves the one
that it has in the end. -/
theorem Ingests.of_mem (h : Ingests pol s ds s') (hnd : (ds.map fun d => d.row.1).Nodup)
    {d : Delivery L} (hd : d ∈ ds) :
    d.before.table d.row.1 = s.table d.row.1 ∧ s'.table d.row.1 = d.after.table d.row.1 ∧
      Alone (storeSem L pol) (ingest d.row.1 d.row.2) d.before (.ok d.changed) d.after := by
  induction ds generalizing s with
  | nil => exact (List.not_mem_nil hd).elim
  | cons x ds ih =>
    obtain ⟨rfl, hcall, hrest⟩ := h
    obtain ⟨hx, hnd⟩ := List.nodup_cons.1 hnd
    rcases List.mem_cons.1 hd with rfl | hd
    · exact ⟨rfl, hrest.frame fun y hy hyd => hx (List.mem_map.2 ⟨y, hy, hyd⟩), hcall⟩
    · obtain ⟨hbefore, hafter⟩ := ih hrest hnd hd
      refine ⟨hbefore.trans ?_, hafter⟩
      rw [table_ingest hcall]
      exact offer_of_ne fun heq => hx (List.mem_map.2 ⟨d, hd, heq⟩)

/-- Among distinct keys, a delivery reports a change when its key has another payload in the end,
and this is then the delivered one. -/
theorem Ingests.changed_iff (h : Ingests pol s ds s') (hnd : (ds.map fun d => d.row.1).Nodup)
    {d : Delivery L} (hd : d ∈ ds) :
    (d.changed = true ↔ s'.table d.row.1 ≠ s.table d.row.1) ∧
      (d.changed = true → s'.table d.row.1 = some d.row.2) := by
  obtain ⟨hbefore, hafter, hcall⟩ := h.of_mem hnd hd
  have hchanges := ingest_changes hcall
  have htable := table_ingest hcall
  refine ⟨by rw [hafter, ← hbefore, hchanges], fun hchanged => ?_⟩
  rw [hchanges, htable] at hchanged
  rw [hafter, htable]
  exact offer_eq_some_of_ne hchanged

/-- **The rows that change** are those of the deliveries that report a change. -/
theorem Ingests.toFinset_changed (h : Ingests pol s ds s')
    (hnd : (ds.map fun d => d.row.1).Nodup) :
    ((ds.filter Delivery.changed).map Delivery.row).toFinset = s'.rows \ s.rows := by
  ext ⟨k, v⟩
  rw [List.mem_toFinset, Finset.mem_sdiff, mem_rows, mem_rows, List.mem_map]
  constructor
  · rintro ⟨d, hd, hrow⟩
    obtain ⟨hd, hchanged⟩ := List.mem_filter.1 hd
    obtain ⟨hiff, hsome⟩ := h.changed_iff hnd hd
    have hnew := hsome hchanged
    rw [hiff, hnew, hrow] at hchanged
    rw [hrow] at hnew
    exact ⟨hnew, hchanged.symm⟩
  · rintro ⟨hnew, hold⟩
    have hdelivered : ∃ d ∈ ds, d.row.1 = k := by
      by_contra hnone
      push Not at hnone
      exact hold (h.frame hnone ▸ hnew)
    obtain ⟨d, hd, rfl⟩ := hdelivered
    obtain ⟨hiff, hsome⟩ := h.changed_iff hnd hd
    have hchanged : d.changed = true := hiff.2 fun heq => hold (heq ▸ hnew)
    have hv : v = d.row.2 := Option.some.inj (hnew.symm.trans (hsome hchanged))
    exact ⟨d, List.mem_filter.2 ⟨hd, hchanged⟩, by rw [hv]⟩

/-- The deliveries that report a change publish their rows, in order. -/
theorem Ingests.events_eq (h : Ingests pol s ds s') :
    s'.indexer = s.indexer ∧ s'.receivers = s.receivers ∧
      s'.events = s.events ++ s.newEvents ((ds.filter Delivery.changed).map Delivery.row) := by
  induction ds generalizing s with
  | nil =>
    obtain rfl : s' = s := h
    simp [SpatioTemporalStore.newEvents]
  | cons d ds ih =>
    obtain ⟨rfl, hcall, hrest⟩ := h
    obtain ⟨hindexer, hreceivers, hevents⟩ := ih hrest
    have hsent := ingest_events hcall
    have hkept : d.after.indexer = d.before.indexer ∧ d.after.receivers = d.before.receivers := by
      rcases alone_ingest hcall with ⟨⟨_, hr⟩, -⟩ | ⟨-, -, hsame⟩ | ⟨-, -, s₁, hu, hw⟩
      · cases hr
      · rw [hsame]
        exact ⟨rfl, rfl⟩
      · exact ⟨hw.indexer.trans hu.indexer, hw.receivers.trans hu.receivers⟩
    refine ⟨hindexer.trans hkept.1, hreceivers.trans hkept.2, ?_⟩
    rw [hevents, hsent, newEvents_congr hkept.1 hkept.2, List.append_assoc]
    congr 1
    cases hchanged : d.changed with
    | false => simp [hchanged]
    | true =>
      by_cases h₀ : d.before.receivers = 0 <;>
        simp [SpatioTemporalStore.newEvents, hchanged, h₀]

end Deliveries

/-! ### What a round delivers -/

section Reports

variable [Sha256] {pol : KvPolicy} {s s' : Peers L L'} {t : List (Event syncSig (Peers L L'))}
  {stats stats' : SyncStats}

/-- The rows were ingested into the own store, one after another, and the stats count them. -/
structure Delivers (pol : KvPolicy) (s s' : Peers L L') (stats stats' : SyncStats) (leaves : ℕ)
    (rows : List Row) : Prop where
  peer : s'.peer = s.peer
  delivered : ∃ ds : List (Delivery L), Ingests pol s.own ds s'.own ∧
    ds.map Delivery.row = rows ∧ stats' = stats.add leaves ds

theorem delivers_nil : Delivers pol s s stats stats 0 [] := ⟨rfl, [], rfl, rfl, rfl⟩

theorem Delivers.append {s₁ : Peers L L'} {stats₁ : SyncStats} {m n : ℕ} {rows₁ rows₂ : List Row}
    (h₁ : Delivers pol s s₁ stats stats₁ m rows₁) (h₂ : Delivers pol s₁ s' stats₁ stats' n rows₂) :
    Delivers pol s s' stats stats' (m + n) (rows₁ ++ rows₂) := by
  obtain ⟨hpeer₁, ds₁, hing₁, rfl, rfl⟩ := h₁
  obtain ⟨hpeer₂, ds₂, hing₂, rfl, rfl⟩ := h₂
  refine ⟨hpeer₂.trans hpeer₁, ds₁ ++ ds₂, hing₁.append hing₂, List.map_append, ?_⟩
  simp [SyncStats.add, add_assoc]

/-- The rows of a stream that ends well are delivered. -/
theorem delivers_ingestRows {items : List (Except Status SyncRow)}
    (hrun : Traced (syncSem pol) (ingestRows items stats) s t (.ok stats') s') :
    ∃ rows : List Row, items = rows.map (fun y => .ok ⟨y.1.bytes, y.2⟩) ∧
      Delivers pol s s' stats stats' 0 rows := by
  induction items generalizing s t stats with
  | nil =>
    obtain ⟨-, rfl, hr⟩ := hrun
    obtain rfl := Except.ok.inj hr
    exact ⟨[], rfl, delivers_nil⟩
  | cons x items ih =>
    cases x with
    | error status =>
      obtain ⟨-, -, hr⟩ := hrun
      cases hr
    | ok row =>
      rw [ingestRows] at hrun
      cases hkey : Key.tryFrom row.key with
      | none =>
        rw [hkey] at hrun
        obtain ⟨-, -, hr⟩ := hrun
        cases hr
      | some key =>
        rw [hkey] at hrun
        obtain ⟨answer, s₁, t', -, ⟨hpeer, hcall⟩, hrest⟩ := hrun
        cases answer with
        | error err =>
          obtain ⟨-, -, hr⟩ := hrest
          cases hr
        | ok changed =>
          obtain ⟨rows, rfl, hdelivers⟩ := ih hrest
          refine ⟨(key, row.payload) :: rows, ?_, ?_⟩
          · rw [List.map_cons, ← Key.tryFrom_eq_some.1 hkey]
          · -- the first row is a delivery of its own
            have hone : Delivers pol s s₁ stats (if changed then
                { stats with
                  rowsReceived := stats.rowsReceived + 1
                  rowsApplied := stats.rowsApplied + 1 }
                else { stats with rowsReceived := stats.rowsReceived + 1 }) 0
                [(key, row.payload)] := by
              refine ⟨hpeer, [⟨s.own, (key, row.payload), changed, s₁.own⟩],
                ⟨rfl, hcall, rfl⟩, rfl, ?_⟩
              cases changed <;> rfl
            exact hone.append hdelivers

/-- A leaf cell that is pulled is one more, and its rows are delivered. -/
theorem delivers_pullLeaf {D : LeafDepth} {item : WorkItem D}
    (hp : IsPrefix item.depth item.nodePrefix)
    (hrun : Traced (syncSem pol) (pullLeaf item stats) s t (.ok stats') s') :
    Delivers pol s s' stats stats' 1
      (cellRows s.peer.tree item.depth [(item.epoch, item.nodePrefix)]) := by
  rw [pullLeaf_eq] at hrun
  obtain ⟨answer, s₁, t', -, ⟨rfl, hanswer⟩, hrest⟩ := hrun
  rcases hanswer with ⟨rows, items, hrows, hitems, rfl⟩ | ⟨status, rfl⟩
  · obtain ⟨sent, rfl, hpeer, ds, hing, hds, rfl⟩ := delivers_ingestRows hrest
    -- the stream did not break off
    have hall : sent.map (fun y => (.ok ⟨y.1.bytes, y.2⟩ : Except Status SyncRow)) =
        rows.map .ok := by
      rcases hitems with hitems | ⟨n, status, hitems⟩
      · exact hitems
      · have hmem : (.error status : Except Status SyncRow) ∈
            sent.map fun y => .ok ⟨y.1.bytes, y.2⟩ := by simp [hitems]
        obtain ⟨_, -, h⟩ := List.mem_map.1 hmem
        cases h
    rw [SyncService.fetch_leaf s₁.peer item.epoch hp] at hrows
    obtain rfl := Except.ok.inj hrows
    rw [List.map_map] at hall
    have hinj : Function.Injective
        fun y : Row => (.ok ⟨y.1.bytes, y.2⟩ : Except Status SyncRow) := fun y z h => by
      obtain ⟨hkey, hpayload⟩ := SyncRow.mk.inj (Except.ok.inj h)
      exact Prod.ext (Key.ext hkey) hpayload
    obtain rfl := hinj.list_map hall
    refine ⟨hpeer, ds, hing, ?_, ?_⟩
    · rw [hds, cellRows, List.flatMap_singleton]
    · simp [SyncStats.add]
  · obtain ⟨-, -, hr⟩ := hrest
    cases hr

theorem delivers_pullLeaves {D : LeafDepth} {l : List (Epoch × ℕ)}
    (hl : ∀ x ∈ l, IsPrefix D.bits x.2)
    (hrun : Traced (syncSem pol) (pullLeaves D l stats) s t (.ok stats') s') :
    Delivers pol s s' stats stats' l.length (cellRows s.peer.tree D.bits l) := by
  induction l generalizing s t stats with
  | nil =>
    obtain ⟨-, rfl, hr⟩ := hrun
    obtain rfl := Except.ok.inj hr
    exact delivers_nil
  | cons x l ih =>
    obtain ⟨t₁, r₁, s₁, t₂, rfl, hone, hrest⟩ := traced_bind.1 hrun
    cases r₁ with
    | error err =>
      obtain ⟨-, -, hr⟩ := hrest
      cases hr
    | ok stats₁ =>
      have hx : IsPrefix (WorkItem.above (D := D) 0 x).depth x.2 := hl x (List.mem_cons_self ..)
      have hfirst := delivers_pullLeaf hx hone
      have hothers := ih (fun y hy => hl y (List.mem_cons_of_mem _ hy)) hrest
      rw [hfirst.peer] at hothers
      rw [List.length_cons, Nat.add_comm, cellRows_cons]
      exact hfirst.append hothers

/-- **A round that ends well** delivers the rows of the leaf cells below the cells it starts
from. -/
theorem delivers_pullLevels {D : LeafDepth} (hD : D.bits ≤ L'.bits) {n : ℕ} (hn : n ≤ D.levels)
    {l : List (Epoch × ℕ)}
    (hl : ∀ x ∈ offeredLevels s.own.merkle s.peer.merkle D.bits n l, IsPrefix D.bits x.2)
    (hrun : Traced (syncSem pol) (pullLevels D n l stats) s t (.ok stats') s') :
    Delivers pol s s' stats stats'
      (offeredLevels s.own.merkle s.peer.merkle D.bits n l).length
      (cellRows s.peer.tree D.bits (offeredLevels s.own.merkle s.peer.merkle D.bits n l)) := by
  induction n generalizing l s t with
  | zero => exact delivers_pullLeaves hl hrun
  | succ n ih =>
    obtain ⟨t₁, r₁, s₁, t₂, rfl, hlevel, hrest⟩ := traced_bind.1 hrun
    obtain ⟨rfl, -, hr₁⟩ := traced_pullLevel hD hn hlevel
    rcases hr₁ with rfl | ⟨⟨err, rfl⟩, -⟩
    · exact ih (Nat.le_of_succ_le hn) hl hrest
    · obtain ⟨-, -, hr⟩ := hrest
      cases hr

end Reports

/-! ## Rounds -/

section Rounds

variable [Sha256] {pol : KvPolicy} {s' : Peers L L'} {t : List (Event syncSig (Peers L L'))}
  {A : SpatioTemporalStore L} {B : SpatioTemporalStore L'} {r : Except SyncError SyncStats}

/-- The shape of a round without other writes: it fails at once, or goes on with the cells of the
offered roots after it has compared them. -/
theorem exists_pullLevels (hrun : Traced (syncSem pol) (syncOnce L) ⟨A, B⟩ t r s') :
    (∃ err, r = .error err) ∧ asks t = [] ∧ fetches t = [] ∨
      ∃ D : LeafDepth, D.bits = min L.bits L'.bits ∧ ∃ t₁ t₂, t = t₁ ++ t₂ ∧ asks t₁ = [] ∧
        fetches t₁ = [] ∧ Traced (syncSem pol)
          (pullLevels D D.levels (offeredRoots A.merkle B.merkle) .default) ⟨A, B⟩ t₂ r s' := by
  obtain ⟨answer, s₁, t', rfl, ⟨rfl, hop⟩, hrest⟩ := hrun
  rcases hop with rfl | ⟨status, rfl⟩
  · obtain ⟨D, hD, hbits⟩ := exists_descendTo L L'
    change Traced (syncSem pol) (pullFrom L (SyncService.roots B)) _ t' r s' at hrest
    have hD' : descendTo L (SyncService.roots B).leafDepthBits = some D := hD
    rw [pullFrom, hD'] at hrest
    obtain ⟨t₁, r₁, s₁, t₂, rfl, hroots, hrest⟩ := traced_bind.1 hrest
    have hasks := asks_eq_nil (hroots.forall_op (follows_divergent_unasking _ _))
    obtain ⟨rfl, hcmp, rfl⟩ := traced_roots (s := ⟨A, B⟩) hroots
    change Traced (syncSem pol) (syncLoop (_ : List (WorkItem D)) .default) _ t₂ r s' at hrest
    rw [syncLoop_roots] at hrest
    exact .inr ⟨D, hbits, _ :: t₁, t₂, rfl, hasks, hcmp.fetches_eq, hrest⟩
  · obtain ⟨rfl, -, rfl⟩ := hrest
    exact .inl ⟨⟨_, rfl⟩, rfl, rfl⟩

/-- What a round costs: it asks about distinct cells that hold a row of one of the stores only, and
there are not more of them on a level than there are such rows. -/
structure RoundCost (A : SpatioTemporalStore L) (B : SpatioTemporalStore L')
    (t : List (Event syncSig (Peers L L'))) : Prop where
  divergent : ∀ c ∈ asks t, ∃ y ∈ symmDiff A.rows B.rows, InCell c.1 c.2.1 c.2.2 y.1
  asks_le : (asks t).length ≤ min L.bits L'.bits / 3 * (symmDiff A.rows B.rows).card
  fetches_le : (fetches t).length ≤ (symmDiff A.rows B.rows).card

/-- **The cost of a pull round is proportional to the divergence.** In a round of a store against a
peer without other writes, whatever fails in it and whatever the digests are, every cell whose
children are asked for holds a row that only one of the two stores has; there are at most as many
`Children` calls on each level, and as many leaf cells fetched, as there are such rows. -/
theorem syncOnce_cost (hA : Hashes A.merkle A.rows) (hB : Hashes B.merkle B.rows)
    (hrun : Traced (syncSem pol) (syncOnce L) ⟨A, B⟩ t r s') : RoundCost A B t := by
  rcases exists_pullLevels hrun with ⟨-, hasks, hfetches⟩ |
    ⟨D, hbits, t₁, t₂, rfl, hasks₁, hfetches₁, hpull⟩
  · exact ⟨by simp [hasks], by simp [hasks], by simp [hfetches]⟩
  · have hlevels := D.three_mul_levels
    have hDL : L.Valid D.bits := ⟨D.mod_three, hbits.trans_le (min_le_left _ _)⟩
    have hDL' : L'.Valid D.bits := ⟨D.mod_three, hbits.trans_le (min_le_right _ _)⟩
    have hroots : Divergent A.merkle B.merkle (D.bits - 3 * D.levels)
        (offeredRoots A.merkle B.merkle) := by
      rw [hlevels, Nat.sub_self]
      exact divergent_offeredRoots _ _
    obtain ⟨hleaves, hinner⟩ := hroots.levels hlevels.le D.le_63
    have hask := asks_pullLevels hDL'.2 le_rfl hpull
    have hfetch := (traced_pullLevels hDL'.2 le_rfl hleaves.isPrefix hpull).fetched
    refine ⟨fun c hc => ?_, ?_, ?_⟩
    · rw [asks_append, hasks₁, List.nil_append] at hc
      obtain ⟨hdepth, hmod, hprefix, hne⟩ := hinner c (hask.first.subset hc)
      have hmod₃ := D.mod_three
      have hle := hDL.2
      have hle' := hDL'.2
      exact exists_of_nodeHash_ne hA hB ⟨by omega, by omega⟩ ⟨by omega, by omega⟩ hprefix hne
    · rw [asks_append, hasks₁, List.nil_append, ← hbits, ← hlevels, Nat.mul_div_cancel_left _ (by
        norm_num)]
      exact hask.first.length_le.trans
        (hroots.length_innerCells_le hlevels.le hDL hDL' hA hB)
    · rw [fetches_append, hfetches₁, List.nil_append]
      refine hfetch.length_le.trans ?_
      rw [List.length_map, List.length_map]
      exact hleaves.length_le hA hB hDL hDL'

/-- What the stats of a round say: the leaf cells where the stores differed and the peer had rows,
the rows of the peer in these cells, and the rows that are new in the own store, each of which was
published once. -/
structure RoundReport (A : SpatioTemporalStore L) (B : SpatioTemporalStore L') (s' : Peers L L')
    (stats : SyncStats) : Prop where
  peer : s'.peer = B
  leaves : stats.leavesFetched = (offeredLeaves A.merkle B.merkle).length
  received : stats.rowsReceived = (B.rows.filter fun y => ∃ x ∈ offeredLeaves A.merkle B.merkle,
    InCell x.epoch x.depthBits x.nodePrefix y.1).card
  applied : ∃ rows : List Row, stats.rowsApplied = rows.length ∧ rows.Nodup ∧
    rows.toFinset = s'.own.rows \ A.rows ∧ s'.own.events = A.events ++ A.newEvents rows

/-- **The stats of a pull round are what it did.** They count the leaf cells of `diff_forests` that
the peer offers, the rows of the peer that lie in them, and the rows of the own store that changed,
one event for each; whatever the forests and the digests are. -/
theorem syncOnce_reports {stats : SyncStats}
    (hrun : Traced (syncSem pol) (syncOnce L) ⟨A, B⟩ t (.ok stats) s') :
    RoundReport A B s' stats := by
  rcases exists_pullLevels hrun with ⟨⟨err, herr⟩, -, -⟩ | ⟨D, hbits, t₁, t₂, rfl, -, -, hpull⟩
  · cases herr
  · have hlevels := D.three_mul_levels
    have hoffered := offeredLeaves_eq (a := A.merkle) (b := B.merkle) (n := D.levels) (by omega)
    rw [hlevels] at hoffered
    have hroots : Divergent A.merkle B.merkle (D.bits - 3 * D.levels)
        (offeredRoots A.merkle B.merkle) := by
      rw [hlevels, Nat.sub_self]
      exact divergent_offeredRoots _ _
    obtain ⟨hcells, -⟩ := hroots.levels hlevels.le D.le_63
    obtain ⟨hpeer, ds, hing, hrows, rfl⟩ :=
      delivers_pullLevels (hbits.trans_le (min_le_right _ _)) le_rfl hcells.isPrefix hpull
    -- distinct cells, so no key is delivered twice
    have hkeys : (ds.map fun d => d.row.1).Nodup := by
      have hnd := nodup_keys_cellRows B.tree hcells.nodup hcells.isPrefix
      rwa [← hrows, List.map_map] at hnd
    have hnodup : (ds.map Delivery.row).Nodup := by
      refine .of_map Prod.fst ?_
      rw [List.map_map]
      exact hkeys
    refine ⟨hpeer, ?_, ?_, (ds.filter Delivery.changed).map Delivery.row, ?_,
      hnodup.sublist (List.filter_sublist.map _), hing.toFinset_changed hkeys, hing.events_eq.2.2⟩
    · simp [SyncStats.add, SyncStats.default, hoffered]
    · have hset : (ds.map Delivery.row).toFinset = B.rows.filter fun y =>
          ∃ x ∈ offeredLeaves A.merkle B.merkle, InCell x.epoch x.depthBits x.nodePrefix y.1 := by
        ext y
        rw [hrows, List.mem_toFinset, mem_cellRows hcells.isPrefix, Finset.mem_filter, hoffered]
        simp [DivergentLeaf.of]
      rw [← hset, List.toFinset_card_of_nodup hnodup]
      simp [SyncStats.add, SyncStats.default]
    · simp [SyncStats.add, SyncStats.default, List.countP_eq_length_filter]

end Rounds

section Sample

local instance costSha : Sha256 := sampleDigests

theorem syncOnce_cost_rivals : ∃ t s',
    Traced (syncSem .reliable) (syncOnce merkleLeafDepth) ⟨storedOnce, rivalStore⟩ t
      (.ok ⟨1, 2, 1⟩) s' ∧ RoundCost storedOnce rivalStore t := by
  have halone : Alone (syncSem .reliable) (syncOnce merkleLeafDepth) ⟨storedOnce, rivalStore⟩
      (.ok ⟨1, 2, 1⟩) _ := alone_pull (by decide +kernel)
  obtain ⟨t, ht⟩ := exists_traced halone
  exact ⟨t, _, ht, syncOnce_cost consistent_storedOnce.hashes consistent_rivalStore.hashes ht⟩

theorem syncOnce_reports_rivals : ∃ s',
    RoundReport storedOnce rivalStore s' ⟨1, 2, 1⟩ ∧ (s'.own.rows \ storedOnce.rows).card = 1 := by
  have halone : Alone (syncSem .reliable) (syncOnce merkleLeafDepth) ⟨storedOnce, rivalStore⟩
      (.ok ⟨1, 2, 1⟩) _ := alone_pull (by decide +kernel)
  obtain ⟨t, ht⟩ := exists_traced halone
  have hreport := syncOnce_reports ht
  refine ⟨_, hreport, ?_⟩
  obtain ⟨rows, hlen, hnd, hrows, -⟩ := hreport.applied
  rw [← hrows, List.toFinset_card_of_nodup hnd, ← hlen]

end Sample

end InterstellarDb
