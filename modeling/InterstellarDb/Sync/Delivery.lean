import InterstellarDb.Merkle.Edits
import InterstellarDb.Sync.Merge

/-!
# Ingesting in any order

Rows are delivered to a store by `ingest` calls, one after another (`Ingests`). A call offers its
row to the table, keeps the forest that of the rows, and reports a change when it makes one. So the
rows and the node hashes after a sequence of deliveries depend on which rows were delivered only
(`ingests_order_free`).
-/

namespace InterstellarDb

open Atomic GreatestWins KvTree

variable {L : LeafDepth}

section Deliveries

variable [Sha256]

/-- The forest of the store has the node hashes of the rows, and a tree for the epoch of each. -/
def SpatioTemporalStore.Folds (s : SpatioTemporalStore L) : Prop := Contains s.merkle s.rows.val

/-- A forest that is the fold of the rows, when their number fits its counts. -/
theorem folds_of_foldOf {s : SpatioTemporalStore L} (h : FoldOf s.merkle s.rows)
    (hfits : s.rows.card < 2 ^ 64) : s.Folds where
  hashes := fun e d p hd hp => (h.hashes e d p hd hp).trans (bagHash_val ..).symm
  trees := fun _ hr => MerkleForest.exists_tree_of_count_ne_zero
    (count_ne_zero h.counts s.tree.rows_table (mem_rows.1 hr) hfits)

/-! ## One call -/

omit [Sha256] in
/-- The rows after a write are those that the edits of an `ingest` leave. -/
theorem val_of_update {m : Key → Option Bytes} {s t : Finset Row} {k : Key} {v : Bytes}
    (hs : Rows m s) (ht : Rows (Function.update m k (some v)) t) :
    t.val = contents s.val (ingestEdits k v (m k)) := by
  have hval : t.val = (k, v) ::ₘ (s.filter fun r => r.1 ≠ k).val := by
    rw [ht.unique (hs.update k v), Finset.insert_val_of_notMem (by simp)]
  rw [hval]
  cases hk : m k with
  | none =>
    have hfilter : (s.filter fun r => r.1 ≠ k) = s := by
      refine Finset.filter_true_of_mem fun r hr hrk => ?_
      have := (hs r.1 r.2).1 hr
      rw [hrk, hk] at this
      cases this
    rw [hfilter]
    rfl
  | some c =>
    have hfilter : (s.filter fun r => r.1 ≠ k) = s.erase (k, c) := by
      ext ⟨j, w⟩
      rw [Finset.mem_filter, Finset.mem_erase, and_comm]
      refine and_congr_left fun hr => not_congr ?_
      constructor
      · rintro rfl
        have := (hs j w).1 hr
        rw [hk] at this
        rw [Option.some.inj this]
      · rintro h
        exact congrArg Prod.fst h
    rw [hfilter, Finset.erase_val]
    rfl

omit [Sha256] in
/-- The edits of an `ingest` take out a stored row only. -/
theorem removable_ingestEdits {m : Key → Option Bytes} {s : Finset Row} (hs : Rows m s) (k : Key)
    (v : Bytes) : Removable s.val (ingestEdits k v (m k)) := by
  cases hk : m k with
  | none => exact ⟨trivial, trivial⟩
  | some c => exact ⟨(hs k c).2 hk, trivial, trivial⟩

variable {pol : KvPolicy} {s s' : SpatioTemporalStore L} {k : Key} {v : Bytes} {b : Bool}

/-- An `ingest` keeps the forest that of the rows. -/
theorem SpatioTemporalStore.Folds.ingest (hs : s.Folds)
    (h : Alone (storeSem L pol) (ingest k v) s (.ok b) s') : s'.Folds := by
  rcases alone_ingest h with ⟨⟨_, hr⟩, -⟩ | ⟨-, -, rfl⟩ | ⟨-, -, s₁, hu, hw⟩
  · cases hr
  · exact hs
  · have htable : s'.tree.table = Function.update s.tree.table k (some v) := by
      have hu' : s₁.tree.table = s.tree.table := hu.table
      rw [hw.tree, table_setRows, hu']
      rfl
    have hrows : Rows (Function.update s.tree.table k (some v)) s'.rows := by
      rw [← htable]
      exact s'.tree.rows_table
    show Contains s'.merkle s'.rows.val
    rw [hw.merkle, hu.merkle, val_of_update s.tree.rows_table hrows]
    exact Contains.editAll hs (removable_ingestEdits s.tree.rows_table k v)

/-- A call that accepts its row changes the payload of the key. -/
theorem ingest_changes (h : Alone (storeSem L pol) (ingest k v) s (.ok b) s') :
    b = true ↔ s'.table k ≠ s.table k := by
  have htable := table_ingest h
  rcases alone_ingest h with ⟨⟨_, hr⟩, -⟩ | ⟨hb, -, rfl⟩ | ⟨hb, hk, -⟩
  · cases hr
  · obtain rfl := Except.ok.inj hb
    simp
  · obtain rfl := Except.ok.inj hb
    have hdom := keepsExisting_eq_false.1 hk
    rw [offer_of_not_dominates hdom] at htable
    rw [htable, Function.update_self]
    refine ⟨fun _ heq => hdom (.of_eq heq.symm), fun _ => rfl⟩

/-- A call that accepts its row sends its event, if somebody listens, and another sends none. -/
theorem ingest_events (h : Alone (storeSem L pol) (ingest k v) s (.ok b) s') :
    s'.events = s.events ++ if b = true ∧ s.receivers ≠ 0 then
      [SpatioTemporalStore.observationEvent s.indexer (k, v)] else [] := by
  rcases alone_ingest h with ⟨⟨_, hr⟩, -⟩ | ⟨hb, -, rfl⟩ | ⟨hb, -, s₁, hu, hw⟩
  · cases hr
  · obtain rfl := Except.ok.inj hb
    simp
  · obtain rfl := Except.ok.inj hb
    rw [hw.events, hu.events, SpatioTemporalStore.newEvents, hu.receivers, hu.indexer]
    by_cases h₀ : s.receivers = 0
    · simp [h₀]
    · simp [h₀]

/-! ## Sequences of calls -/

/-- An `ingest` call that succeeded: the store before it, its row, its answer and the store after
it. -/
structure Delivery (L : LeafDepth) where
  before : SpatioTemporalStore L
  row : Row
  changed : Bool
  after : SpatioTemporalStore L

/-- From `s`, the rows were ingested one after another, ending in `s'`. -/
def Ingests (pol : KvPolicy) (s : SpatioTemporalStore L) :
    List (Delivery L) → SpatioTemporalStore L → Prop
  | [], s' => s' = s
  | d :: ds, s' => d.before = s ∧
      Alone (storeSem L pol) (ingest d.row.1 d.row.2) s (.ok d.changed) d.after ∧
        Ingests pol d.after ds s'

/-- The call answers `true` when it changed the stored payload of its key, only then, and then it
publishes one event, to whoever listens. -/
structure Delivery.Reports (d : Delivery L) : Prop where
  changed : d.changed = true ↔ d.after.table d.row.1 ≠ d.before.table d.row.1
  events : d.after.events = d.before.events ++ if d.changed = true ∧ d.before.receivers ≠ 0 then
    [SpatioTemporalStore.observationEvent d.before.indexer d.row] else []

/-- **What a sequence of deliveries does**: it offers its rows to the table, keeps the forest that
of the rows, and every call reports what it did. -/
theorem Ingests.spec {ds : List (Delivery L)} (h : Ingests pol s ds s') :
    s'.table = offerAll itemDigest s.table (ds.map Delivery.row) ∧ (s.Folds → s'.Folds) ∧
      ∀ d ∈ ds, d.Reports := by
  induction ds generalizing s with
  | nil =>
    obtain rfl : s' = s := h
    exact ⟨rfl, id, by simp⟩
  | cons d ds ih =>
    obtain ⟨rfl, hcall, hrest⟩ := h
    obtain ⟨htable, hfolds, hreports⟩ := ih hrest
    refine ⟨?_, fun hs => hfolds (hs.ingest hcall), ?_⟩
    · rw [htable, table_ingest hcall]
      rfl
    · intro x hx
      rcases List.mem_cons.1 hx with rfl | hx
      · exact ⟨ingest_changes hcall, ingest_events hcall⟩
      · exact hreports x hx

/-- A forest that is the fold of the rows, counts included, stays so while their number fits the
counts. -/
theorem Ingests.foldOf {ds : List (Delivery L)} (h : Ingests pol s ds s')
    (hs : FoldOf s.merkle s.rows) (hfits : s'.rows.card < 2 ^ 64) :
    FoldOf s'.merkle s'.rows := by
  induction ds generalizing s with
  | nil =>
    obtain rfl : s' = s := h
    exact hs
  | cons d ds ih =>
    have hcard : s.rows.card ≤ s'.rows.card := by
      refine s.tree.rows_table.card_le_of_below s'.tree.rows_table (?_ : Below itemDigest _ _)
      have htable : s'.tree.table = offerAll itemDigest s.tree.table _ := h.spec.1
      rw [htable]
      exact below_offerAll _ _
    obtain ⟨rfl, hcall, hrest⟩ := h
    refine ih hrest ?_
    rcases alone_ingest hcall with ⟨⟨_, hr⟩, -⟩ | ⟨-, -, hsame⟩ | ⟨-, -, s₁, hu, hw⟩
    · cases hr
    · rw [hsame]
      exact hs
    · have htable : d.after.tree.table =
          Function.update d.before.tree.table d.row.1 (some d.row.2) := by
        have hu' : s₁.tree.table = d.before.tree.table := hu.table
        rw [hw.tree, table_setRows, hu']
        rfl
      have hrows := d.after.tree.rows_table
      rw [htable] at hrows
      rw [hw.merkle, hu.merkle]
      exact hs.ingest d.before.tree.rows_table (by omega) hrows

/-- **Ingest is an order-free, idempotent merge.** Two sequences of deliveries of the same rows to
one store end in the same rows and the same node hashes; each key ends up with the payload of the
greatest digest among the initial one and those delivered; and each call reports, in its answer and
with one event, whether it changed the stored payload. Different payloads of one key are assumed to
have different digests. -/
theorem ingests_order_free {s₁ s₂ : SpatioTemporalStore L} {ds₁ ds₂ : List (Delivery L)}
    (hs : s.Folds) (h₁ : Ingests pol s ds₁ s₁) (h₂ : Ingests pol s ds₂ s₂)
    (hsame : ∀ r, r ∈ ds₁.map Delivery.row ↔ r ∈ ds₂.map Delivery.row)
    (hinj : ∀ k v w, Candidate s.table (ds₁.map Delivery.row) k v →
      Candidate s.table (ds₁.map Delivery.row) k w → itemDigest k v = itemDigest k w → v = w) :
    s₁.rows = s₂.rows ∧
    (∀ e d p, L.Valid d → IsPrefix d p → s₁.merkle.nodeHash e d p = s₂.merkle.nodeHash e d p) ∧
    (∀ k v, s₁.table k = some v ↔ Candidate s.table (ds₁.map Delivery.row) k v ∧
      ∀ w, Candidate s.table (ds₁.map Delivery.row) k w → itemDigest k w ≤ itemDigest k v) ∧
    ∀ d, d ∈ ds₁ ∨ d ∈ ds₂ → d.Reports := by
  obtain ⟨htable₁, hfolds₁, hreports₁⟩ := h₁.spec
  obtain ⟨htable₂, hfolds₂, hreports₂⟩ := h₂.spec
  have hrows : s₁.rows = s₂.rows := by
    apply rows_congr
    show s₁.table = s₂.table
    rw [htable₁, htable₂, offerAll_congr hsame hinj]
  refine ⟨hrows, fun e d p hd hp => ?_, fun k v => ?_, ?_⟩
  · rw [(hfolds₁ hs).hashes e d p hd hp, (hfolds₂ hs).hashes e d p hd hp, hrows]
  · rw [htable₁]
    exact offerAll_eq_some_iff (hinj k)
  · rintro d (hd | hd)
    · exact hreports₁ d hd
    · exact hreports₂ d hd

/-! ## Concrete deliveries -/

/-- The delivery of a row to a store, when nothing fails. -/
def SpatioTemporalStore.deliver (s : SpatioTemporalStore L) (r : Row) : Delivery L where
  before := s
  row := r
  changed := decide ((s.perform (.ingest r.1 r.2)).map Prod.fst = some (.ok true))
  after := s.after (.ingest r.1 r.2)

/-- The deliveries of rows in turn. -/
def deliveries (s : SpatioTemporalStore L) : List Row → List (Delivery L)
  | [] => []
  | r :: rows => s.deliver r :: deliveries (s.deliver r).after rows

/-- The store after them. -/
def delivered (s : SpatioTemporalStore L) (rows : List Row) : SpatioTemporalStore L :=
  rows.foldl (fun s r => (s.deliver r).after) s

theorem row_deliveries (s : SpatioTemporalStore L) (rows : List Row) :
    (deliveries s rows).map Delivery.row = rows := by
  induction rows generalizing s with
  | nil => rfl
  | cons r rows ih => exact congrArg (r :: ·) (ih _)

theorem ingests_deliveries (rows : List Row) (h : ∀ d ∈ deliveries s rows,
    (d.before.perform (.ingest d.row.1 d.row.2)).map Prod.fst = some (.ok d.changed)) :
    Ingests .reliable s (deliveries s rows) (delivered s rows) := by
  induction rows generalizing s with
  | nil => rfl
  | cons r rows ih =>
    refine ⟨rfl, ?_, ih fun d hd => h d (List.mem_cons_of_mem _ hd)⟩
    exact alone_after (c := .ingest r.1 r.2) (h _ (List.mem_cons_self ..))

end Deliveries

section Sample

local instance deliverySha : Sha256 := sampleDigests

/-- Two payloads for one key. -/
def rivalRows : List Row := [(zeroKey, [0x61]), (zeroKey, [0x62])]

theorem ingests_order_free_sample :
    (delivered sampleStore rivalRows).rows =
      (delivered sampleStore ((zeroKey, [0x62]) :: rivalRows.reverse)).rows := by
  have hfolds : sampleStore.Folds :=
    folds_of_foldOf (trusted_empty (D := Set.univ) testIndexer trivial).fold (by decide +kernel)
  have hempty : sampleStore.table = fun _ => none := by
    funext k
    simp [sampleStore, SpatioTemporalStore.table, openStore, KvTree.table, KvTree.get, KvTree.empty]
  have hranks : ∀ x ∈ rivalRows, ∀ y ∈ rivalRows, rowDigest x = rowDigest y → x = y := by
    decide +kernel
  refine (ingests_order_free hfolds (ingests_deliveries rivalRows (by decide +kernel))
    (ingests_deliveries ((zeroKey, [0x62]) :: rivalRows.reverse) (by decide +kernel))
    ?_ ?_).1
  · intro r
    simp only [row_deliveries, rivalRows, List.reverse_cons, List.reverse_nil, List.nil_append,
      List.cons_append, List.mem_cons, List.not_mem_nil, or_false]
    tauto
  · intro k v w hv hw h
    rw [row_deliveries, Candidate, hempty] at hv hw
    have hv := hv.resolve_left (by simp)
    have hw := hw.resolve_left (by simp)
    exact congrArg Prod.snd (hranks _ hv _ hw h)

end Sample

end InterstellarDb
