import InterstellarDb.Foundations.GreatestWins
import InterstellarDb.Foundations.MapList
import InterstellarDb.Merkle.Digest

/-!
# The key-value tree

The store keeps its rows in an ordered map from byte strings to byte strings with atomic
commits. A commit applies its writes in order and is logged; a commit that fails has no effect.
The map holds two kinds of keys: rows under 20-byte keys (`table`, `rows`) and seal records under
seal keys (`record`). A write to one kind leaves the other alone.

When operations on the tree may fail is a policy (`KvPolicy`).
-/

namespace InterstellarDb

open Std GreatestWins

/-- A write of a transaction. -/
inductive KvWrite where
  | set (key value : Bytes)
  | delete (key : Bytes)
  deriving DecidableEq

/-- The key that a write is about. -/
def KvWrite.key : KvWrite → Bytes
  | .set k _ => k
  | .delete k => k

/-- The contents of a tree. -/
abbrev KvData := ExtTreeMap Bytes Bytes

/-- Apply a write. -/
def KvWrite.apply (m : KvData) : KvWrite → KvData
  | .set k v => m.insert k v
  | .delete k => m.erase k

/-- A tree: its contents, and the commits that were made on it, newest first. -/
structure KvTree where
  data : KvData
  log : List (List KvWrite)

namespace KvTree

/-- The tree of an empty disk. -/
def empty : KvTree := ⟨∅, []⟩

/-- `txn.get`. -/
def get (kv : KvTree) (k : Bytes) : Option Bytes := kv.data[k]?

/-- `txn.commit`: apply the writes of a transaction, in order. -/
def commit (kv : KvTree) (ws : List KvWrite) : KvTree :=
  ⟨ws.foldl KvWrite.apply kv.data, ws :: kv.log⟩

/-- `txn.range`: the entries from `start` up to and without `stop`, in key order. -/
def range (kv : KvTree) (start stop : Bytes) : List (Bytes × Bytes) :=
  kv.data.toList.filter fun x => (compare start x.1).isLE && (compare x.1 stop).isLT

/-- The row stored under each key. -/
def table (kv : KvTree) (k : Key) : Option Bytes := kv.get k.bytes

/-- The seal record on disk for each epoch. -/
def record (kv : KvTree) (e : Epoch) : Option Bytes := kv.get (sealKey e)

/-- An entry under a 20-byte key, as a row. -/
def rowOf (x : Bytes × Bytes) : Option Row := (Key.tryFrom x.1).map (·, x.2)

/-- The rows of the tree. -/
def rows (kv : KvTree) : Finset Row := (kv.data.toList.filterMap rowOf).toFinset

theorem rowOf_eq_some {x : Bytes × Bytes} {r : Row} : rowOf x = some r ↔ x = (r.1.bytes, r.2) := by
  obtain ⟨b, v⟩ := x
  obtain ⟨k, w⟩ := r
  simp only [rowOf, Option.map_eq_some_iff, Key.tryFrom_eq_some, Prod.mk.injEq]
  constructor
  · rintro ⟨k', rfl, rfl, rfl⟩
    exact ⟨rfl, rfl⟩
  · rintro ⟨rfl, rfl⟩
    exact ⟨k, rfl, rfl, rfl⟩

theorem mem_range {kv : KvTree} {start stop : Bytes} {x : Bytes × Bytes} :
    x ∈ kv.range start stop ↔
      kv.get x.1 = some x.2 ∧ (compare start x.1).isLE ∧ compare x.1 stop = .lt := by
  rw [range, List.mem_filter, ExtTreeMap.mem_toList_iff_getElem?_eq_some, Bool.and_eq_true,
    Ordering.isLT_iff_eq_lt]
  rfl

/-- The rows are those of the table. -/
theorem rows_table (kv : KvTree) : Rows kv.table kv.rows := by
  intro k v
  rw [rows, List.mem_toFinset, List.mem_filterMap]
  constructor
  · rintro ⟨x, hx, h⟩
    rw [rowOf_eq_some] at h
    subst h
    exact ExtTreeMap.mem_toList_iff_getElem?_eq_some.1 hx
  · intro h
    exact ⟨(k.bytes, v), ExtTreeMap.mem_toList_iff_getElem?_eq_some.2 h, rowOf_eq_some.2 rfl⟩

theorem rows_congr {kv kv' : KvTree} (h : kv'.table = kv.table) : kv'.rows = kv.rows := by
  have hrows := kv'.rows_table
  rw [h] at hrows
  exact hrows.unique kv.rows_table

theorem rows_empty : empty.rows = ∅ := by
  refine empty.rows_table.unique fun k v => ?_
  simp [table, get, empty]

/-! ## What commits change -/

theorem get_set (kv : KvTree) (k v k' : Bytes) :
    (kv.commit [.set k v]).get k' = if k = k' then some v else kv.get k' := by
  show (kv.data.insert k v)[k']? = _
  rw [ExtTreeMap.getElem?_insert]
  simp only [LawfulEqCmp.compare_eq_iff_eq]
  rfl

theorem get_delete (kv : KvTree) (k k' : Bytes) :
    (kv.commit [.delete k]).get k' = if k = k' then none else kv.get k' := by
  show (kv.data.erase k)[k']? = _
  rw [ExtTreeMap.getElem?_erase]
  simp only [LawfulEqCmp.compare_eq_iff_eq]
  rfl

/-- The writes that set rows. -/
def setRows (l : List Row) : List KvWrite := l.map fun r => .set r.1.bytes r.2

/-- A table after rows were written in order. -/
def writeAll (m : Key → Option Bytes) (l : List Row) : Key → Option Bytes :=
  l.foldl (fun m r => Function.update m r.1 (some r.2)) m

theorem table_set (kv : KvTree) (k : Key) (v : Bytes) :
    (kv.commit [.set k.bytes v]).table = Function.update kv.table k (some v) := by
  funext k'
  rw [table, get_set]
  by_cases h : k' = k
  · subst h
    rw [if_pos rfl, Function.update_self]
  · rw [if_neg fun hb => h (Key.ext hb.symm), Function.update_of_ne h]
    rfl

theorem record_set (kv : KvTree) (k : Key) (v : Bytes) :
    (kv.commit [.set k.bytes v]).record = kv.record := by
  funext e
  rw [record, get_set, if_neg fun h => sealKey_ne_bytes e k h.symm]
  rfl

/-- **A commit of rows** changes the table row by row. -/
theorem table_setRows (kv : KvTree) (l : List Row) :
    (kv.commit (setRows l)).table = writeAll kv.table l := by
  induction l generalizing kv with
  | nil => rfl
  | cons r l ih =>
    have hcons : (kv.commit (setRows (r :: l))).table =
        ((kv.commit [.set r.1.bytes r.2]).commit (setRows l)).table := rfl
    rw [hcons, ih, table_set]
    rfl

theorem record_setRows (kv : KvTree) (l : List Row) :
    (kv.commit (setRows l)).record = kv.record := by
  induction l generalizing kv with
  | nil => rfl
  | cons r l ih =>
    have hcons : (kv.commit (setRows (r :: l))).record =
        ((kv.commit [.set r.1.bytes r.2]).commit (setRows l)).record := rfl
    rw [hcons, ih, record_set]

theorem table_setRecord (kv : KvTree) (e : Epoch) (b : Bytes) :
    (kv.commit [.set (sealKey e) b]).table = kv.table := by
  funext k
  rw [table, get_set, if_neg (sealKey_ne_bytes e k)]
  rfl

theorem record_setRecord (kv : KvTree) (e : Epoch) (b : Bytes) :
    (kv.commit [.set (sealKey e) b]).record = Function.update kv.record e (some b) := by
  funext e'
  rw [record, get_set]
  by_cases h : e' = e
  · subst h
    rw [if_pos rfl, Function.update_self]
  · rw [if_neg fun hb => h (sealKey_injective hb).symm, Function.update_of_ne h]
    rfl

theorem table_deleteRecord (kv : KvTree) (e : Epoch) :
    (kv.commit [.delete (sealKey e)]).table = kv.table := by
  funext k
  rw [table, get_delete, if_neg (sealKey_ne_bytes e k)]
  rfl

theorem record_deleteRecord (kv : KvTree) (e : Epoch) :
    (kv.commit [.delete (sealKey e)]).record = Function.update kv.record e none := by
  funext e'
  rw [record, get_delete]
  by_cases h : e' = e
  · subst h
    rw [if_pos rfl, Function.update_self]
  · rw [if_neg fun hb => h (sealKey_injective hb).symm, Function.update_of_ne h]
    rfl

end KvTree

/-! ## Failures -/

/-- When the operations of a transaction that began after `begun` commits may fail. -/
structure KvPolicy where
  /-- The commit may succeed. -/
  commitOk : KvTree → (begun : ℕ) → List KvWrite → Prop
  /-- The commit may fail. -/
  commitFails : KvTree → (begun : ℕ) → List KvWrite → Prop
  /-- Other operations may fail. -/
  opFails : Prop

/-- Some commit after the first `begun` ones wrote a key of `ws`. -/
def KvTree.Conflicts (kv : KvTree) (begun : ℕ) (ws : List KvWrite) : Prop :=
  ∃ c ∈ kv.log.take (kv.log.length - begun), ∃ w ∈ c, ∃ w' ∈ ws, w.key = w'.key

instance (kv : KvTree) (begun : ℕ) (ws : List KvWrite) : Decidable (kv.Conflicts begun ws) :=
  inferInstanceAs (Decidable (∃ c ∈ _, _))

namespace KvPolicy

/-- Nothing fails. -/
def reliable : KvPolicy := ⟨fun _ _ _ => True, fun _ _ _ => False, False⟩

/-- Anything may fail. -/
def faulty : KvPolicy := ⟨fun _ _ _ => True, fun _ _ _ => True, True⟩

/-- A commit fails exactly when another one wrote one of its keys since it began. -/
def isolated : KvPolicy :=
  ⟨fun kv n ws => ¬ kv.Conflicts n ws, fun kv n ws => kv.Conflicts n ws, False⟩

end KvPolicy

end InterstellarDb
