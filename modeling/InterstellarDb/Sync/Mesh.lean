import InterstellarDb.Sync.Converge
import InterstellarDb.Sync.Safety

/-!
# A mesh of stores

Any number of nodes, each with a store of its own leaf depth. An event is a merging write at a
node, or a whole pull of one node from another that ends without an error (`Mesh.Step`). In every
history of events

* a row reaches every node to which a chain of pulls leads, or is replaced there by one of a
  greater digest (`Mesh.History.dominates`);
* the rows come from the start or from a write (`Mesh.History.rows`).
-/

namespace InterstellarDb

open Atomic GreatestWins SetFold

/-- The stores of the nodes, each opened at its own leaf depth. -/
abbrev Mesh {N : Type} (depth : N → LeafDepth) := ∀ i, SpatioTemporalStore (depth i)

/-- What happens in a mesh. -/
inductive MeshEvent (N : Type) where
  | write (i : N) (c : StoreCall)
  /-- Node `i` pulls from node `j`. -/
  | pull (i j : N)

/-- The pulls along a path: each node of it pulls from the one before. -/
def pullsAlong {N : Type} : N → List N → List (MeshEvent N)
  | _, [] => []
  | n, m :: path => .pull m n :: pullsAlong m path

section Histories

variable {N : Type} [DecidableEq N] {depth : N → LeafDepth} [Sha256] {pol : KvPolicy}
  {U : Set Row} {s s₁ t s' : Mesh depth} {e : MeshEvent N}
  {history before after : List (Mesh depth × MeshEvent N)}

/-! ## Events -/

/-- One event. The rows that are written are in `U`. -/
inductive Mesh.Step (pol : KvPolicy) (U : Set Row) : Mesh depth → MeshEvent N → Mesh depth → Prop
  | write {s : Mesh depth} {i : N} {c : StoreCall} {own : SpatioTemporalStore (depth i)}
      (h : OtherWrite pol U c (s i) own) : Step pol U s (.write i c) (Function.update s i own)
  | pull {s : Mesh depth} {i j : N} (hij : i ≠ j) {stats : SyncStats}
      {own : SpatioTemporalStore (depth i)} {peer : SpatioTemporalStore (depth j)}
      (h : Alone (syncSem pol) (syncOnce (depth i)) ⟨s i, s j⟩ (.ok stats) ⟨own, peer⟩) :
      Step pol U s (.pull i j) (Function.update (Function.update s j peer) i own)

/-- Events one after another, each with the mesh that it found. -/
inductive Mesh.History (pol : KvPolicy) (U : Set Row) :
    Mesh depth → List (Mesh depth × MeshEvent N) → Mesh depth → Prop
  | nil (s : Mesh depth) : History pol U s [] s
  | cons {s s₁ s' : Mesh depth} {e : MeshEvent N} {history : List (Mesh depth × MeshEvent N)}
      (h : Mesh.Step pol U s e s₁) (h' : History pol U s₁ history s') :
      History pol U s ((s, e) :: history) s'

/-- The row was given to a write of the history. -/
def Passed (history : List (Mesh depth × MeshEvent N)) (x : Row) : Prop :=
  ∃ s i c, (s, .write i c) ∈ history ∧ x ∈ c.rows (s i).indexer

/-! ## One event -/

/-- What one event does: every store stays consistent, loses nothing and invents nothing. -/
structure Mesh.Grows (U : Set Row) (s : Mesh depth) (e : MeshEvent N) (s' : Mesh depth) : Prop where
  consistent : ∀ i, Consistent U (s' i)
  below : ∀ i, Below itemDigest (s i).table (s' i).table
  rows : ∀ i, ∀ x ∈ (s' i).rows, (∃ j, x ∈ (s j).rows) ∨
    ∃ j c, e = .write j c ∧ x ∈ c.rows (s j).indexer
  pulled : ∀ i j, e = .pull i j → DominatesAll (s' i) ((s j).rows : Set Row)

/-- An event that changes one node grows the mesh when it grows this node. -/
theorem Mesh.Grows.of_update (hs : ∀ i, Consistent U (s i)) (i : N)
    {own : SpatioTemporalStore (depth i)} (hown : Consistent U own)
    (hbelow : Below itemDigest (s i).table own.table)
    (hrows : ∀ x ∈ own.rows, (∃ j, x ∈ (s j).rows) ∨
      ∃ j c, e = .write j c ∧ x ∈ c.rows (s j).indexer)
    (hpulled : ∀ k j, e = .pull k j → k = i ∧ DominatesAll own ((s j).rows : Set Row)) :
    Grows U s e (Function.update s i own) where
  consistent := by
    intro k
    rcases eq_or_ne k i with rfl | hk
    · rwa [Function.update_self]
    · rw [Function.update_of_ne hk]
      exact hs k
  below := by
    intro k
    rcases eq_or_ne k i with rfl | hk
    · rwa [Function.update_self]
    · rw [Function.update_of_ne hk]
      exact .refl _
  rows := by
    intro k
    rcases eq_or_ne k i with rfl | hk
    · rwa [Function.update_self]
    · rw [Function.update_of_ne hk]
      exact fun x hx => .inl ⟨k, hx⟩
  pulled := by
    intro k j he
    obtain ⟨rfl, hdom⟩ := hpulled k j he
    rwa [Function.update_self]

theorem Mesh.Step.grows (h : Mesh.Step pol U s e s') (hU : Independent rowDigest U)
    (hs : ∀ i, Consistent U (s i)) : Mesh.Grows U s e s' := by
  cases h with
  | @write i c own h =>
    obtain ⟨hown, hbelow⟩ := h.consistent hU (hs i)
    obtain ⟨r, -, hrun, -⟩ := h
    refine .of_update hs i hown hbelow (fun x hx => ?_) (fun _ _ he => nomatch he)
    rcases mem_rows_of_call hrun hx with hx | hx
    · exact .inl ⟨i, hx⟩
    · exact .inr ⟨i, c, rfl, hx⟩
  | @pull i j hij stats own peer h =>
    have hsub : (↑(s i).rows ∪ ↑(s j).rows : Set Row) ⊆ U :=
      Set.union_subset (hs i).rows (hs j).rows
    obtain ⟨rfl, hhashes, hjoin⟩ := isJoin_of_pull (hs i).hashes (hs j).hashes (hU.mono hsub) h
    rw [Function.update_eq_self]
    have hrows : ∀ x ∈ own.rows, x ∈ (s i).rows ∨ x ∈ (s j).rows :=
      fun _ => mem_rows_of_isJoin hjoin
    refine .of_update hs i ⟨hhashes, fun x hx => hsub (hrows x hx)⟩ hjoin.left (fun x hx => ?_)
      (fun k l he => ?_)
    · rcases hrows x hx with hx | hx
      · exact .inl ⟨i, hx⟩
      · exact .inl ⟨j, hx⟩
    · cases he
      exact ⟨rfl, fun x hx => hjoin.right x.1 x.2 (mem_rows.1 hx)⟩

/-! ## Histories -/

theorem Mesh.History.consistent (h : Mesh.History pol U s history s')
    (hU : Independent rowDigest U) (hs : ∀ i, Consistent U (s i)) : ∀ i, Consistent U (s' i) := by
  induction h with
  | nil s => exact hs
  | cons h _ ih => exact ih (h.grows hU hs).consistent

/-- **No loss**: a chain of pulls carries what the first node dominates to the last one, whatever
else happens. -/
theorem Mesh.History.dominates (h : Mesh.History pol U s history s')
    (hU : Independent rowDigest U) (hs : ∀ i, Consistent U (s i)) {n : N} {path : List N}
    (hpath : List.Sublist (pullsAlong n path) (history.map Prod.snd)) {k : Key} {v : Bytes}
    (hkv : Dominates itemDigest (s n).table k v) :
    Dominates itemDigest (s' (path.getLastD n)).table k v := by
  induction h generalizing n path with
  | nil s =>
    cases path with
    | nil => exact hkv
    | cons m path => cases hpath
  | @cons s s₁ s' e history h _ ih =>
    have hgrows := h.grows hU hs
    rw [List.map_cons] at hpath
    cases path with
    | nil => exact ih hgrows.consistent (List.nil_sublist _) (hkv.mono (hgrows.below n))
    | cons m path =>
      rw [List.getLastD_cons]
      rcases List.sublist_cons_iff.1 hpath with hpath | ⟨rest, heq, hrest⟩
      · have := ih hgrows.consistent hpath (hkv.mono (hgrows.below n))
        rwa [List.getLastD_cons] at this
      · -- the first pull of the path
        obtain ⟨he, rfl⟩ := List.cons.inj heq
        obtain ⟨w, hw, hle⟩ := exists_mem_rows hkv
        exact ih hgrows.consistent hrest ((hgrows.pulled m n he.symm (k, w) hw).of_le hle)

/-- **No invention**: a row comes from the start or from a write. -/
theorem Mesh.History.rows (h : Mesh.History pol U s history s')
    (hU : Independent rowDigest U) (hs : ∀ i, Consistent U (s i)) {i : N} {x : Row}
    (hx : x ∈ (s' i).rows) : (∃ j, x ∈ (s j).rows) ∨ Passed history x := by
  induction h with
  | nil s => exact .inl ⟨i, hx⟩
  | @cons s s₁ s' e history h _ ih =>
    have hgrows := h.grows hU hs
    rcases ih hgrows.consistent hx with ⟨j, hx⟩ | ⟨t, j, c, hmem, hx⟩
    · rcases hgrows.rows j x hx with hx | ⟨l, c, rfl, hx⟩
      · exact .inl hx
      · exact .inr ⟨s, l, c, List.mem_cons_self .., hx⟩
    · exact .inr ⟨t, j, c, List.mem_cons_of_mem _ hmem, hx⟩

theorem Mesh.History.append (h : Mesh.History pol U s before t)
    (h' : Mesh.History pol U t after s') : Mesh.History pol U s (before ++ after) s' := by
  induction h with
  | nil s => exact h'
  | cons h _ ih => exact .cons h (ih h')

/-- **Propagation without loss and without invention.** All stores are consistent at the start,
and no non-empty set of rows that are ever written folds to `0`. A row that a node holds at some
moment is dominated, once a chain of pulls has led from this node to another one and for ever
after, at the other node; and every row held comes from the start or was given to a write. -/
theorem propagation (hU : Independent rowDigest U) (hs : ∀ i, Consistent U (s i))
    (h : Mesh.History pol U s before t) (h' : Mesh.History pol U t after s') :
    (∀ n path k v, (k, v) ∈ (t n).rows →
      List.Sublist (pullsAlong n path) (after.map Prod.snd) →
      Dominates itemDigest (s' (path.getLastD n)).table k v) ∧
    ∀ i x, x ∈ (s' i).rows → (∃ j, x ∈ (s j).rows) ∨ Passed (before ++ after) x := by
  refine ⟨fun n path k v hkv hpath => ?_, fun i x hx => (h.append h').rows hU hs hx⟩
  exact h'.dominates hU (h.consistent hU hs) hpath (dominatesAll_rows (t n) (k, v) hkv)

end Histories

section Sample

local instance meshSha : Sha256 := sampleDigests

/-- Two nodes without rows. -/
def meshStart : Mesh fun _ : Bool => merkleLeafDepth := fun _ => sampleStore

/-- One node has stored a row. -/
def meshStored : Mesh fun _ : Bool => merkleLeafDepth := Function.update meshStart false storedOnce

/-- The other node has pulled. -/
def meshPulled : Mesh fun _ : Bool => merkleLeafDepth :=
  Function.update (Function.update meshStored false (pull sampleStore storedOnce).peer) true
    (pull sampleStore storedOnce).own

theorem propagation_storedOnce :
    Dominates itemDigest (meshPulled true).table zeroKey [0x61] ∧
      ∀ i x, x ∈ (meshPulled i).rows → (∃ j, x ∈ (meshStart j).rows) ∨
        Passed [(meshStart, .write false (storeCorner 0 [0x61])), (meshStored, .pull true false)]
          x := by
  have hround : Alone (syncSem .reliable) (syncOnce merkleLeafDepth)
      (⟨meshStored true, meshStored false⟩ : Peers merkleLeafDepth merkleLeafDepth)
      (.ok ⟨1, 1, 1⟩) ⟨(pull sampleStore storedOnce).own, (pull sampleStore storedOnce).peer⟩ :=
    alone_pull (A := sampleStore) (B := storedOnce) (by decide +kernel)
  have hmem : (zeroKey, [0x61]) ∈ (meshStored false).rows := by decide +kernel
  have hstart : ∀ i, Consistent (sampleRows : Set Row) (meshStart i) :=
    fun _ => consistent_sampleStore
  have hbefore : Mesh.History .reliable (sampleRows : Set Row) meshStart
      [(meshStart, .write false (storeCorner 0 [0x61]))] meshStored :=
    .cons (.write ⟨.ok true, by decide +kernel, alone_storedOnce, consistent_storedOnce.rows⟩)
      (.nil _)
  unfold meshPulled
  generalize pull sampleStore storedOnce = s at hround ⊢
  have hafter : Mesh.History .reliable (sampleRows : Set Row) meshStored
      [(meshStored, .pull true false)]
      (Function.update (Function.update meshStored false s.peer) true s.own) :=
    .cons (.pull (by decide) hround) (.nil _)
  obtain ⟨hloss, hinvent⟩ := propagation independent_sampleRows hstart hbefore hafter
  exact ⟨hloss false [true] zeroKey [0x61] hmem (.refl _), hinvent⟩

end Sample

end InterstellarDb
