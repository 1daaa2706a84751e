import InterstellarDb.Index.Codec
import InterstellarDb.Index.Cover

/-!
# The order of generated keys

The bytes of a generated key are three digits, the epoch, the Morton code and the offset in the
epoch, so keys sort by epoch, then by cell, then by time (`compare_generateKey`).

* At one grid point the keys of two epochs follow on from each other, and keys sort as their
  instants (`compare_generateKey_of_gridPoint_eq`).
* A generated key determines the grid point and the instant (`generateKey_eq_iff`).
-/

namespace InterstellarDb

open BigEndian

/-- **Keys sort by their fields**, the epoch first. -/
theorem Key.compare_bytes_fields (k k' : Key) :
    compare k.bytes k'.bytes = (compare k.epoch.val k'.epoch.val).then
      ((compare k.morton k'.morton).then (compare k.offset k'.offset)) := by
  have hdigits : ∀ k : Key, k.toNat = (k.epoch.val * 2 ^ 64 + k.morton) * 2 ^ 64 + k.offset := by
    intro k
    rw [k.toNat_eq]
    ring
  rw [k.compare_bytes, hdigits, hdigits, compare_mul_add k.offset_lt k'.offset_lt,
    compare_mul_add k.morton_lt k'.morton_lt, Ordering.then_assoc]

namespace GridPoint

/-- The Morton code of a point determines it. -/
theorem morton_injective : Function.Injective morton := by
  intro n n' h
  have hdec := congrArg decode3dMorton h
  rw [morton, morton, decode3dMorton_encode3dMorton n.x_lt n.y_lt n.z_lt,
    decode3dMorton_encode3dMorton n'.x_lt n'.y_lt n'.z_lt, Prod.mk.injEq, Prod.mk.injEq] at hdec
  exact GridPoint.ext hdec.1 hdec.2.1 hdec.2.2

end GridPoint

namespace HybridSpatioTemporalIndexer

/-- The nanoseconds from the start of its epoch to an instant. -/
def epochOffset (ix : HybridSpatioTemporalIndexer) (secs nanos : ℕ) : ℕ :=
  secs % ix.epochDuration * nanosPerSec + nanos

variable {ix : HybridSpatioTemporalIndexer} {secs nanos secs' nanos' : ℕ}

/-- An offset stays within its epoch. -/
theorem epochOffset_lt (hn : nanos < nanosPerSec) :
    ix.epochOffset secs nanos < ix.epochDuration * nanosPerSec := by
  have hlt := Nat.mod_lt secs ix.epochDuration_pos
  have := mul_add_lt (y := 0) hlt hn
  rwa [add_zero] at this

/-- **Instants sort by epoch, then by offset.** -/
theorem compare_epoch_offset (hn : nanos < nanosPerSec) (hn' : nanos' < nanosPerSec) :
    (compare (secs / ix.epochDuration) (secs' / ix.epochDuration)).then
        (compare (ix.epochOffset secs nanos) (ix.epochOffset secs' nanos')) =
      (compare secs secs').then (compare nanos nanos') := by
  have hinstant : ∀ secs nanos, secs / ix.epochDuration * (ix.epochDuration * nanosPerSec) +
      ix.epochOffset secs nanos = secs * nanosPerSec + nanos := by
    intro secs nanos
    rw [← mul_assoc]
    exact (instant_eq ix secs nanos).symm
  rw [← compare_mul_add (epochOffset_lt hn) (epochOffset_lt hn'), hinstant, hinstant,
    compare_mul_add hn hn']

section GenerateKey

variable {x y z x' y' z' : ℚ} (hn : nanos < nanosPerSec) (hn' : nanos' < nanosPerSec)
  (he : secs / ix.epochDuration < 2 ^ 32) (he' : secs' / ix.epochDuration < 2 ^ 32)

include hn hn' he he'

/-- **Keys sort by epoch, then by Morton code, then by offset.** -/
theorem compare_generateKey :
    compare (ix.generateKey x y z secs nanos).bytes (ix.generateKey x' y' z' secs' nanos').bytes =
      (compare (secs / ix.epochDuration) (secs' / ix.epochDuration)).then
        ((compare (ix.gridPoint x y z).morton (ix.gridPoint x' y' z').morton).then
          (compare (ix.epochOffset secs nanos) (ix.epochOffset secs' nanos'))) := by
  rw [Key.compare_bytes_fields, epoch_generateKey he, epoch_generateKey he', morton_generateKey,
    morton_generateKey, offset_generateKey hn, offset_generateKey hn']
  rfl

/-- **At one grid point keys sort as their instants**, across epochs too. -/
theorem compare_generateKey_of_gridPoint_eq (h : ix.gridPoint x y z = ix.gridPoint x' y' z') :
    compare (ix.generateKey x y z secs nanos).bytes (ix.generateKey x' y' z' secs' nanos').bytes =
      (compare secs secs').then (compare nanos nanos') := by
  rw [compare_generateKey hn hn' he he', h, Nat.compare_eq_eq.2 rfl, Ordering.eq_then,
    compare_epoch_offset hn hn']

/-- **A generated key determines the grid point and the instant.** -/
theorem generateKey_eq_iff :
    ix.generateKey x y z secs nanos = ix.generateKey x' y' z' secs' nanos' ↔
      ix.gridPoint x y z = ix.gridPoint x' y' z' ∧ secs = secs' ∧ nanos = nanos' := by
  constructor
  · intro h
    have hpoint : ix.gridPoint x y z = ix.gridPoint x' y' z' := by
      apply GridPoint.morton_injective
      have := congrArg Key.morton h
      rwa [morton_generateKey, morton_generateKey] at this
    have hcmp := compare_generateKey_of_gridPoint_eq hn hn' he he' hpoint
    have hself : compare (ix.generateKey x' y' z' secs' nanos').bytes
        (ix.generateKey x' y' z' secs' nanos').bytes = .eq := Std.ReflCmp.compare_self
    rw [h, hself, eq_comm, Ordering.then_eq_eq, Nat.compare_eq_eq, Nat.compare_eq_eq] at hcmp
    exact ⟨hpoint, hcmp⟩
  · rintro ⟨hpoint, rfl, rfl⟩
    have hmorton := congrArg GridPoint.morton hpoint
    apply Key.ext_fields
    · rw [generateKey, Key.epoch_ofFields, generateKey, Key.epoch_ofFields]
    · rw [morton_generateKey, morton_generateKey]
      exact hmorton
    · rw [offset_generateKey hn, offset_generateKey hn]

end GenerateKey

/-- **The order of keys.** Generated keys sort by epoch, then by Morton code, then by the offset in
the epoch; at one grid point they sort as their instants; and two of them are equal exactly when the
grid points and the instants are. -/
theorem generateKey_order (ix : HybridSpatioTemporalIndexer) (x y z x' y' z' : ℚ)
    {secs nanos secs' nanos' : ℕ} (hn : nanos < nanosPerSec) (hn' : nanos' < nanosPerSec)
    (he : secs / ix.epochDuration < 2 ^ 32) (he' : secs' / ix.epochDuration < 2 ^ 32) :
    let k := ix.generateKey x y z secs nanos
    let k' := ix.generateKey x' y' z' secs' nanos'
    compare k.bytes k'.bytes =
        (compare (secs / ix.epochDuration) (secs' / ix.epochDuration)).then
          ((compare (ix.gridPoint x y z).morton (ix.gridPoint x' y' z').morton).then
            (compare (ix.epochOffset secs nanos) (ix.epochOffset secs' nanos'))) ∧
      (ix.gridPoint x y z = ix.gridPoint x' y' z' →
        compare k.bytes k'.bytes = (compare secs secs').then (compare nanos nanos')) ∧
      (k = k' ↔ ix.gridPoint x y z = ix.gridPoint x' y' z' ∧ secs = secs' ∧ nanos = nanos') :=
  ⟨compare_generateKey hn hn' he he', compare_generateKey_of_gridPoint_eq hn hn' he he',
    generateKey_eq_iff hn hn' he he'⟩

theorem generateKey_order_sample :
    compare (testIndexer.generateKey 12 (-5) 2000 3599 999999999).bytes
      (testIndexer.generateKey 12 (-5) 3000 3600 0).bytes = .lt := by
  have hpoint : testIndexer.gridPoint 12 (-5) 2000 = testIndexer.gridPoint 12 (-5) 3000 := by
    have hclamp : testIndexer.normalizeCoordinate 2000 = testIndexer.normalizeCoordinate 3000 := by
      norm_num [normalizeCoordinate, testIndexer]
    simp only [gridPoint, hclamp]
  have hn : 999999999 < nanosPerSec := by norm_num [nanosPerSec]
  have he : 3599 / testIndexer.epochDuration < 2 ^ 32 := by norm_num [testIndexer]
  have he' : 3600 / testIndexer.epochDuration < 2 ^ 32 := by norm_num [testIndexer]
  have h := (generateKey_order testIndexer 12 (-5) 2000 12 (-5) 3000 hn nanosPerSec_pos he
    he').2.1 hpoint
  rw [h]
  rfl

end HybridSpatioTemporalIndexer

end InterstellarDb
