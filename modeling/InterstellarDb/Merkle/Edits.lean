import InterstellarDb.Merkle.Forest

/-!
# Histories of a forest

A forest is built by a list of edits, each folding a row in or out. When every removal names a row
that is contained at that point (`Removable`), the node hash of a cell is the fold of the contained
rows of the cell, with multiplicity (`nodeHash_edits`): neither the order of the edits nor the leaf
depth matters. At every inner cell the hashes of the children fold to that of the parent, in any
forest (`MerkleForest.sum_childHashes`).
-/

namespace InterstellarDb

open Std

/-- One change of the forest. -/
inductive MerkleEdit where
  | insert (r : Row)
  | remove (r : Row)
  deriving DecidableEq

/-- The epoch whose tree a change is about. -/
def MerkleEdit.epoch : MerkleEdit → Epoch
  | .insert r => r.1.epoch
  | .remove r => r.1.epoch

section Edit

variable {L : LeafDepth} [Sha256]

/-- Apply one change. -/
def MerkleForest.edit (f : MerkleForest L) : MerkleEdit → MerkleForest L
  | .insert r => f.insert r.1 r.2
  | .remove r => f.remove r.1 r.2

/-- Apply a list of changes. -/
def MerkleForest.editAll (f : MerkleForest L) (edits : List MerkleEdit) : MerkleForest L :=
  edits.foldl MerkleForest.edit f

end Edit

/-! ## Contents -/

/-- The contained rows after a change, with multiplicity. -/
def MerkleEdit.contents (rows : Multiset Row) : MerkleEdit → Multiset Row
  | .insert r => r ::ₘ rows
  | .remove r => rows.erase r

/-- The contained rows after a list of changes. -/
def contents (rows : Multiset Row) (edits : List MerkleEdit) : Multiset Row :=
  edits.foldl MerkleEdit.contents rows

/-- A removal names a contained row. -/
def MerkleEdit.Names (rows : Multiset Row) : MerkleEdit → Prop
  | .insert _ => True
  | .remove r => r ∈ rows

instance (rows : Multiset Row) : (x : MerkleEdit) → Decidable (x.Names rows)
  | .insert _ => .isTrue trivial
  | .remove r => inferInstanceAs (Decidable (r ∈ rows))

/-- Every removal names a row that is contained at that point. -/
def Removable (rows : Multiset Row) : List MerkleEdit → Prop
  | [] => True
  | x :: edits => x.Names rows ∧ Removable (x.contents rows) edits

instance decidableRemovable :
    (rows : Multiset Row) → (edits : List MerkleEdit) → Decidable (Removable rows edits)
  | _, [] => .isTrue trivial
  | rows, x :: edits =>
    have := decidableRemovable (x.contents rows) edits
    inferInstanceAs (Decidable (_ ∧ _))

section Contents

variable {L : LeafDepth} [Sha256]

/-- The fold of the digests of the rows of a cell, with multiplicity. -/
def bagHash (rows : Multiset Row) (e : Epoch) (d p : ℕ) : NodeHash :=
  ((rows.filter fun r => InCell e d p r.1).map rowDigest).sum

@[simp] theorem bagHash_zero (e : Epoch) (d p : ℕ) : bagHash 0 e d p = 0 := rfl

theorem bagHash_cons (r : Row) (rows : Multiset Row) (e : Epoch) (d p : ℕ) :
    bagHash (r ::ₘ rows) e d p =
      bagHash rows e d p + if InCell e d p r.1 then rowDigest r else 0 := by
  rw [bagHash, bagHash]
  by_cases h : InCell e d p r.1
  · rw [Multiset.filter_cons_of_pos (p := fun r : Row => InCell e d p r.1) rows h, if_pos h,
      Multiset.map_cons, Multiset.sum_cons, add_comm]
  · rw [Multiset.filter_cons_of_neg (p := fun r : Row => InCell e d p r.1) rows h, if_neg h,
      add_zero]

/-- Taking a contained row out changes a cell like putting it in. -/
theorem bagHash_erase {r : Row} {rows : Multiset Row} (hr : r ∈ rows) (e : Epoch) (d p : ℕ) :
    bagHash (rows.erase r) e d p =
      bagHash rows e d p + if InCell e d p r.1 then rowDigest r else 0 := by
  have h := bagHash_cons r (rows.erase r) e d p
  rw [Multiset.cons_erase hr] at h
  rw [h, add_assoc, SetFold.add_self, add_zero]

/-- Of a set of rows, the fold with multiplicity is the fold of the cell. -/
theorem bagHash_val (rows : Finset Row) (e : Epoch) (d p : ℕ) :
    bagHash rows.val e d p = cellHash rows e d p := rfl

/-! ## What a forest contains -/

/-- The forest has the node hashes of the rows and a tree for the epoch of each. -/
structure Contains (f : MerkleForest L) (rows : Multiset Row) : Prop where
  hashes : ∀ e d p, L.Valid d → IsPrefix d p → f.nodeHash e d p = bagHash rows e d p
  trees : ∀ r ∈ rows, ∃ t, f.trees[r.1.epoch]? = some t

theorem contains_new : Contains (MerkleForest.new L) 0 where
  hashes := fun e d p _ _ => by simp
  trees := fun r hr => absurd hr (Multiset.notMem_zero r)

/-- Folding a row in keeps every tree and leaves one for the epoch of the row. -/
theorem MerkleForest.exists_tree_insert {f : MerkleForest L} {k : Key} (v : Bytes) {e : Epoch}
    (h : k.epoch = e ∨ ∃ t, f.trees[e]? = some t) : ∃ t, (f.insert k v).trees[e]? = some t := by
  simp only [MerkleForest.insert, splitKey, ExtTreeMap.getElem?_insert,
    LawfulEqCmp.compare_eq_iff_eq]
  by_cases hk : k.epoch = e
  · rw [if_pos hk]
    exact ⟨_, rfl⟩
  · rw [if_neg hk]
    exact h.resolve_left hk

/-- Folding a row out keeps every tree. -/
theorem MerkleForest.exists_tree_remove {f : MerkleForest L} (k : Key) (v : Bytes) {e : Epoch}
    (h : ∃ t, f.trees[e]? = some t) : ∃ t, (f.remove k v).trees[e]? = some t := by
  cases hk : f.trees[k.epoch]? with
  | none =>
    rw [remove_of_none hk]
    exact h
  | some t =>
    simp only [MerkleForest.remove, splitKey, hk, ExtTreeMap.getElem?_insert,
      LawfulEqCmp.compare_eq_iff_eq]
    by_cases he : k.epoch = e
    · rw [if_pos he]
      exact ⟨_, rfl⟩
    · rw [if_neg he]
      exact h

/-- An edit that names its row keeps the forest that of the contents. -/
theorem Contains.edit {f : MerkleForest L} {rows : Multiset Row} (h : Contains f rows)
    {x : MerkleEdit} (hx : x.Names rows) : Contains (f.edit x) (x.contents rows) := by
  cases x with
  | insert r =>
    constructor
    · intro e d p hd hp
      show (f.insert r.1 r.2).nodeHash e d p = bagHash (r ::ₘ rows) e d p
      rw [f.nodeHash_insert r.1 r.2 e hd hp, h.hashes e d p hd hp, bagHash_cons]
    · intro s hs
      apply MerkleForest.exists_tree_insert
      rcases Multiset.mem_cons.1 hs with rfl | hs
      · exact .inl rfl
      · exact .inr (h.trees s hs)
  | remove r =>
    constructor
    · intro e d p hd hp
      show (f.remove r.1 r.2).nodeHash e d p = bagHash (rows.erase r) e d p
      rw [MerkleForest.nodeHash_remove (h.trees r hx) r.2 e hd hp, h.hashes e d p hd hp,
        bagHash_erase hx]
    · intro s hs
      apply MerkleForest.exists_tree_remove
      exact h.trees s (Multiset.mem_of_mem_erase hs)

theorem Contains.editAll {f : MerkleForest L} {rows : Multiset Row} (h : Contains f rows)
    {edits : List MerkleEdit} (hx : Removable rows edits) :
    Contains (f.editAll edits) (contents rows edits) := by
  induction edits generalizing f rows with
  | nil => exact h
  | cons x edits ih =>
    obtain ⟨hname, hrest⟩ := hx
    exact ih (h.edit hname) hrest

/-- **What the node hashes of a forest mean.** After edits each of whose removals names a contained
row, a node hash is the exclusive or of the digests of the contained rows of the cell, with
multiplicity, whatever the order of the edits and the leaf depth; and the hashes of the children
of a cell fold to its own. -/
theorem nodeHash_edits {edits : List MerkleEdit} (hedits : Removable 0 edits) :
    (∀ (L : LeafDepth) (e : Epoch) (d p : ℕ), L.Valid d → IsPrefix d p →
      ((MerkleForest.new L).editAll edits).nodeHash e d p = bagHash (contents 0 edits) e d p) ∧
    (∀ edits', Removable 0 edits' → contents 0 edits' = contents 0 edits →
      ∀ (L L' : LeafDepth) (e : Epoch) (d p : ℕ), L.Valid d → L'.Valid d → IsPrefix d p →
        ((MerkleForest.new L').editAll edits').nodeHash e d p =
          ((MerkleForest.new L).editAll edits).nodeHash e d p) ∧
    ∀ (L : LeafDepth) (e : Epoch) (d p : ℕ), L.Valid d → d < L.bits → IsPrefix d p →
      ((((MerkleForest.new L).editAll edits).childHashes e d p).map Prod.snd).sum =
        ((MerkleForest.new L).editAll edits).nodeHash e d p := by
  refine ⟨fun L => (contains_new.editAll hedits).hashes, ?_, ?_⟩
  · intro edits' hedits' hsame L L' e d p hd hd' hp
    rw [(contains_new.editAll hedits').hashes e d p hd' hp,
      (contains_new.editAll hedits).hashes e d p hd hp, hsame]
  · intro L e d p hd hlt hp
    exact MerkleForest.sum_childHashes _ e (hd.succ hlt) hp

end Contents

section Sample

local instance editsSha : Sha256 := sampleDigests

/-- A row put in twice and taken out once, with another row in between. -/
def sampleEdits : List MerkleEdit :=
  [.insert (.ofFields 0 0 0, [0x61]), .insert (.ofFields 0 0 1, [0x62]),
    .insert (.ofFields 0 0 0, [0x61]), .remove (.ofFields 0 0 0, [0x61])]

theorem nodeHash_edits_sample :
    ((MerkleForest.new twoLevels).editAll sampleEdits).nodeHash 0 3 0 =
      bagHash {(.ofFields 0 0 0, [0x61]), (.ofFields 0 0 1, [0x62])} 0 3 0 := by
  have hcontents : contents 0 sampleEdits =
      {(.ofFields 0 0 0, [0x61]), (.ofFields 0 0 1, [0x62])} := by decide +kernel
  rw [← hcontents]
  exact (nodeHash_edits (by decide +kernel)).1 _ 0 3 0 (by decide) ⟨by norm_num, by decide⟩

end Sample

end InterstellarDb
